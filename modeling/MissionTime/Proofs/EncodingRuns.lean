import MissionTime.Proofs.Registration

/-! Formulas added to an encoding one after the other. An addition comes to the same whatever the encoding
held before. Within the horizon it is safe, and after any run of additions, failed ones included, the
declarations match the assertions. -/
namespace MissionTime
open Runs

namespace Formula

theorem time_of_registered {f : Formula} {time : Nat} {term : Term} {table : AtomTable}
    (run : (f.unroll time).run {} = (.ok term, table)) {atom : TimedAtom} (mem : atom ∈ table.toList) :
    time ≤ atom.time ∧ atom.time ≤ time + f.reach := by
  have left : table = _ := run ▸ f.unroll_snd time {}
  rw [left, AtomTable.mem_toList_foldl_insert] at mem
  rcases mem with old | new
  · cases old
  · exact (atom_of_visit f.allAtoms_true (Visit.mem_of_mem_reached new)).2

end Formula

namespace Encoding

variable (limit : Nat) (f : Formula) (encoding : Encoding)

theorem push_fst_eq (encoding' : Encoding) :
    (encoding.push limit f).1 = (encoding'.push limit f).1 := by
  unfold push
  cases checkHorizon limit f with
  | error e => rfl
  | ok => rcases f.unroll_cases 0 with ⟨term, -, -, run⟩ | ⟨e, -, run⟩ <;> simp only [run]

variable {limit f encoding}

/-- Adding a formula whose windows are in order, under a limit that is not the last step that counts,
succeeds exactly if the horizon of the formula is within the limit, and otherwise does nothing but say so.
Formulas that were read from a text have their windows in order. Whatever the windows are, an unrolling
that succeeds registers no atom before its own step or beyond the reach of the formula. -/
theorem push_safe_within_horizon (f : Formula) :
    (f.AllWindows Interval.WellFormed → ∀ limit < maxTime, ∀ encoding : Encoding,
      ((encoding.push limit f).1 = .ok () ↔ f.horizon ≤ limit) ∧
      (limit < f.horizon →
        encoding.push limit f = (.error (.horizonExceeded f.horizon limit), encoding)) ∧
      (∀ time offset, (encoding.push limit f).1 ≠ .error (.timeOverflow time offset)) ∧
      ∀ window, (encoding.push limit f).1 ≠ .error (.invertedWindow window)) ∧
    (∀ maxNesting source, Formula.parse maxNesting source = .ok f →
      f.AllWindows Interval.WellFormed) ∧
    ∀ time term table, (f.unroll time).run {} = (.ok term, table) →
      ∀ atom ∈ table.toList, time ≤ atom.time ∧ atom.time ≤ time + f.reach := by
  refine ⟨fun ordered limit early encoding => ?_, fun maxNesting source parsed => ?_, ?_⟩
  · rcases push_cases limit f encoding with ⟨far, pushed⟩ | ⟨near, ⟨term, _, pushed⟩ | ⟨e, stopped, _⟩⟩
    · rw [pushed]
      exact ⟨⟨nofun, fun near => absurd far (Nat.not_lt.2 near)⟩, fun _ => rfl, nofun, nofun⟩
    · rw [pushed]
      exact ⟨⟨fun _ => near, fun _ => rfl⟩, fun far => absurd far (Nat.not_lt.2 near), nofun, nofun⟩
    · -- Below the last step the horizon is the reach itself, so that the formula fits.
      have fits : f.Fits 0 := by
        refine ⟨ordered, ?_⟩
        rw [Formula.horizon_eq] at near
        omega
      rw [(f.exists_yields_iff 0).1 fits.exists_yields] at stopped
      cases stopped
  · exact Formula.allWindows_of_parse (fun _ _ _ => Formula.wellFormed_of_windowOf) parsed
  · exact fun time term table run atom mem => Formula.time_of_registered run mem

/-- Under the last step as the limit the horizon no longer tells whether the clock goes beyond it. -/
example :
    (({} : Encoding).push maxTime
      (.eventually ⟨maxTime, maxTime⟩ (.eventually ⟨1, 1⟩ (.atom "a")))).1 =
        .error (.timeOverflow maxTime 1) := by decide +kernel

theorem push_safe_within_horizon_nested :
    let f : Formula := .eventually ⟨0, 10⟩ (.always ⟨3, 10⟩ (.atom "a"))
    f.AllWindows Interval.WellFormed ∧ 19 < maxTime ∧
      (({} : Encoding).push 20 f).1 = .ok () ∧
      (({} : Encoding).push 19 f) = (.error (.horizonExceeded 20 19), {}) := by
  intro f
  have ordered : f.AllWindows Interval.WellFormed := ⟨by decide, by decide, trivial⟩
  have horizon : f.horizon = 20 := by
    rw [Formula.horizon_eq]
    decide
  have safe := (push_safe_within_horizon f).1 ordered
  refine ⟨ordered, by decide, ?_, ?_⟩
  · exact ((safe 20 (by decide) {}).1).2 horizon.le
  · have refused := (safe 19 (by decide) {}).2.1 (by rw [horizon]; decide)
    rwa [horizon] at refused

theorem assertions_push_error {e : EncodingError} (failed : (encoding.push limit f).1 = .error e) :
    (encoding.push limit f).2.assertions = encoding.assertions := by
  rcases push_cases limit f encoding with ⟨_, pushed⟩ | ⟨_, ⟨term, _, pushed⟩ | ⟨e, _, pushed⟩⟩ <;>
    rw [pushed] at failed ⊢
  cases failed

theorem assertions_push_ok (succeeded : (encoding.push limit f).1 = .ok ()) :
    ∃ term, Yields (f.unroll 0) term ∧
      (encoding.push limit f).2.assertions = encoding.assertions.push term := by
  rcases push_cases limit f encoding with ⟨_, pushed⟩ | ⟨_, ⟨term, yields, pushed⟩ | ⟨e, _, pushed⟩⟩ <;>
    rw [pushed] at succeeded ⊢
  · cases succeeded
  · exact ⟨term, yields, rfl⟩
  · cases succeeded

def occurrences (encoding : Encoding) : List String := encoding.assertions.toList.flatMap Term.names

theorem declarations_push_ok (first : encoding.declarations = encoding.occurrences.eraseDups)
    (succeeded : (encoding.push limit f).1 = .ok ()) :
    (encoding.push limit f).2.declarations = (encoding.push limit f).2.occurrences.eraseDups := by
  rcases push_cases limit f encoding with ⟨_, pushed⟩ | ⟨_, ⟨term, yields, pushed⟩ | ⟨e, _, pushed⟩⟩ <;>
    rw [pushed] at succeeded ⊢
  · cases succeeded
  · have names : term.names = f.registrations.map TimedAtom.symbol := Formula.names_of_yields yields
    rw [declarations, AtomTable.symbols_foldl_insert encoding.table f.registrations first, ← names]
    simp [occurrences]
  · cases succeeded

/-- Adds formulas one after the other, each under a limit of its own, and goes on after failures. -/
def pushAll : List (Nat × Formula) → Encoding → List (Except EncodingError Unit) × Encoding
  | [], encoding => ([], encoding)
  | (limit, f) :: calls, encoding =>
    let (result, next) := encoding.push limit f
    let (results, last) := pushAll calls next
    (result :: results, last)

theorem Loadable.pushAll (h : encoding.Loadable fun _ => True) (calls : List (Nat × Formula)) :
    (pushAll calls encoding).2.Loadable fun _ => True := by
  induction calls generalizing encoding with
  | nil => exact h
  | cons call calls ih => exact ih (h.push call.1 call.2.allAtoms_true)

theorem declarations_pushAll {calls : List (Nat × Formula)}
    (first : encoding.declarations = encoding.occurrences.eraseDups)
    (succeeded : ∀ result ∈ (pushAll calls encoding).1, result = .ok ()) :
    (pushAll calls encoding).2.declarations = (pushAll calls encoding).2.occurrences.eraseDups := by
  induction calls generalizing encoding with
  | nil => exact first
  | cons call calls ih =>
    obtain ⟨head, tail⟩ := List.forall_mem_cons.1 succeeded
    exact ih (declarations_push_ok first head) tail

/-- After any run of additions, failed ones included, the declared names are distinct and cover the
assertions. One more addition leaves the declarations in front of its own; it adds one assertion if it
succeeds and none if it fails. If no addition has failed, the declarations are the variables of the
assertions in the order of their first occurrence. -/
theorem declarations_match_assertions (calls : List (Nat × Formula))
    {results : List (Except EncodingError Unit)} {encoding : Encoding}
    (run : pushAll calls {} = (results, encoding)) :
    encoding.declarations.Nodup ∧
    (∀ t ∈ encoding.assertions.toList, ∀ name ∈ t.names, name ∈ encoding.declarations) ∧
    (∀ limit f, encoding.declarations <+: (encoding.push limit f).2.declarations ∧
      (∀ e, (encoding.push limit f).1 = .error e →
        (encoding.push limit f).2.assertions = encoding.assertions) ∧
      ((encoding.push limit f).1 = .ok () → ∃ term, Yields (f.unroll 0) term ∧
        (encoding.push limit f).2.assertions = encoding.assertions.push term)) ∧
    ((∀ result ∈ results, result = .ok ()) →
      encoding.declarations = (encoding.assertions.toList.flatMap Term.names).eraseDups) := by
  have covered : (pushAll calls {}).2.Loadable fun _ => True := loadable_empty.pushAll calls
  have inOrder : (∀ result ∈ (pushAll calls {}).1, result = .ok ()) →
      (pushAll calls {}).2.declarations = (pushAll calls {}).2.occurrences.eraseDups :=
    declarations_pushAll rfl
  rw [run] at covered inOrder
  refine ⟨encoding.table.nodup_symbols, covered.declared, fun limit f => ?_, inOrder⟩
  exact ⟨declarations_prefix_push limit f encoding, fun e => assertions_push_error, assertions_push_ok⟩

theorem declarations_match_assertions_until :
    let calls := [(2, Formula.until ⟨1, 2⟩ (.atom "p") (.atom "q")), (2, .not (.atom "q"))]
    let broken := Formula.and (.atom "r") (.eventually ⟨2, 1⟩ (.atom "s"))
    ∃ results encoding, pushAll calls {} = (results, encoding) ∧
      (∀ result ∈ results, result = .ok ()) ∧
      encoding.declarations = ["p@0", "q@1", "p@1", "q@2", "q@0"] ∧
      encoding.declarations = (encoding.assertions.toList.flatMap Term.names).eraseDups ∧
      encoding.declarations.Nodup ∧
      (encoding.push 2 broken).1 = .error (.invertedWindow ⟨2, 1⟩) ∧
      (encoding.push 2 broken).2.assertions = encoding.assertions ∧
      encoding.declarations <+: (encoding.push 2 broken).2.declarations ∧
      (encoding.push 2 broken).2.declarations = ["p@0", "q@1", "p@1", "q@2", "q@0", "r@0"] := by
  intro calls broken
  have evaluated : (∀ result ∈ (pushAll calls {}).1, result = .ok ()) ∧
      (pushAll calls {}).2.declarations = ["p@0", "q@1", "p@1", "q@2", "q@0"] ∧
      ((pushAll calls {}).2.push 2 broken).1 = .error (.invertedWindow ⟨2, 1⟩) ∧
      ((pushAll calls {}).2.push 2 broken).2.declarations =
        ["p@0", "q@1", "p@1", "q@2", "q@0", "r@0"] := by decide +kernel
  rcases run : pushAll calls {} with ⟨results, encoding⟩
  rw [run] at evaluated
  obtain ⟨succeeded, declared, failed, declaredNext⟩ := evaluated
  obtain ⟨distinct, _, next, inOrder⟩ := declarations_match_assertions calls run
  exact ⟨results, encoding, rfl, succeeded, declared, inOrder succeeded, distinct, failed,
    (next 2 broken).2.1 _ failed, (next 2 broken).1, declaredNext⟩

end Encoding
end MissionTime
