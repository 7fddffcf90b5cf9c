import MissionTime.Oracle.Recorder
import MissionTime.Proofs.EncodingRuns
import MissionTime.Proofs.Explanation
import MissionTime.Proofs.Observation

/-! Errors of the input. Whether a formula can be encoded depends on nothing but the formula, so if a batch
can be encoded, then so can every part of it. A batch with an error is refused for the first one before the
oracle is called, and a batch without is not refused later either. -/
namespace MissionTime
open Runs

namespace Encoding

def Accepts (limit : Nat) (f : Formula) : Prop := ∀ encoding : Encoding, (encoding.push limit f).1 = .ok ()

def Rejects (limit : Nat) (f : Formula) (e : EncodingError) : Prop :=
  ∀ encoding : Encoding, (encoding.push limit f).1 = .error e

variable {α ε : Type} {limit : Nat} {f : Formula} {encoding : Encoding} {formula : α → Formula}
  {fault : α → EncodingError → ε} {item : α} {e : EncodingError}

theorem accepts_of_push (succeeds : (encoding.push limit f).1 = .ok ()) : Accepts limit f :=
  fun encoding' => (push_fst_eq limit f encoding' encoding).trans succeeds

theorem rejects_of_push (fails : (encoding.push limit f).1 = .error e) : Rejects limit f e :=
  fun encoding' => (push_fst_eq limit f encoding' encoding).trans fails

theorem ofItems_eq_error {before : List α} (accepted : ∀ item ∈ before, Accepts limit (formula item))
    (rejected : Rejects limit (formula item) e) (after : List α) :
    ofItems limit formula fault encoding (before ++ item :: after) = .error (fault item e) := by
  induction before generalizing encoding with
  | nil => exact ofItems_cons_error (Prod.ext (rejected encoding) rfl) after
  | cons b before ih =>
    obtain ⟨first, accepted⟩ := List.forall_mem_cons.1 accepted
    rw [List.cons_append, ofItems_cons_ok (Prod.ext (first encoding) rfl)]
    exact ih accepted

theorem exists_ofItems {items : List α} (accepted : ∀ item ∈ items, Accepts limit (formula item)) :
    ∃ encoding', ofItems limit formula fault encoding items = .ok encoding' := by
  induction items generalizing encoding with
  | nil => exact ⟨encoding, rfl⟩
  | cons item items ih =>
    obtain ⟨first, accepted⟩ := List.forall_mem_cons.1 accepted
    rw [ofItems_cons_ok (Prod.ext (first encoding) rfl)]
    exact ih accepted

end Encoding

namespace Requirement

variable {options : Options} {sources : List String}

theorem exists_split_finRange {n : Nat} (i : Fin n) :
    ∃ before after, List.finRange n = before ++ i :: after ∧ ∀ j ∈ before, j < i := by
  obtain ⟨before, after, split⟩ := List.append_of_mem (List.mem_finRange i)
  have increasing := List.pairwise_lt_finRange n
  rw [split] at increasing
  exact ⟨before, after, split, fun j mem =>
    (List.pairwise_append.1 increasing).2.2 j mem i List.mem_cons_self⟩

/-- Reads and encodes a batch, without an oracle. -/
def readAndEncode (options : Options) (sources : List String) : Except AnalysisError Encoding := do
  encodeAll options.maxHorizon (← readAll options.maxNesting sources)

theorem readAndEncode_of_unreadable {i : Fin sources.length} {d : Diagnostic}
    (fails : Formula.parse options.maxNesting (sources.get i) = .error d)
    (readable : ∀ j < i, ∃ f, Formula.parse options.maxNesting (sources.get j) = .ok f) :
    readAndEncode options sources =
      .error (.unreadable i (d.attach (sources.get i) s!"formula[{i.val}]")) := by
  have read : readAll options.maxNesting sources =
      .error (.unreadable i (d.attach (sources.get i) s!"formula[{i.val}]")) := by
    rw [readAll, zipIdx_eq, List.mapM_map]
    obtain ⟨before, after, split, earlier⟩ := exists_split_finRange i
    refine mapM_eq_error_iff.2 ⟨before, i, after, split, fun j mem => ?_, ?_⟩
    · obtain ⟨f, parsed⟩ := readable j (earlier j mem)
      exact ⟨⟨j, sources.get j, f⟩, by simp only [Function.comp, parsed]⟩
    · simp only [Function.comp, fails]
  rw [readAndEncode, read]
  rfl

variable {formula : Fin sources.length → Formula}

theorem encodeAll_eq_error {limit : Nat} {before : List Requirement} {r : Requirement} {e : EncodingError}
    (accepted : ∀ r ∈ before, Encoding.Accepts limit r.formula)
    (rejected : Encoding.Rejects limit r.formula e) (after : List Requirement) :
    encodeAll limit (before ++ r :: after) = .error (.unencodable r.index e) := by
  rw [encodeAll_eq, Encoding.ofItems_eq_error accepted rejected]

theorem exists_encodeAll {limit : Nat} {requirements : List Requirement}
    (accepted : ∀ r ∈ requirements, Encoding.Accepts limit r.formula) :
    ∃ encoding, encodeAll limit requirements = .ok encoding := by
  rw [encodeAll_eq]
  exact Encoding.exists_ofItems accepted

theorem readAndEncode_of_unencodable
    (parses : ∀ i, Formula.parse options.maxNesting (sources.get i) = .ok (formula i))
    {i : Fin sources.length} {e : EncodingError}
    (rejected : Encoding.Rejects options.maxHorizon (formula i) e)
    (accepted : ∀ j < i, Encoding.Accepts options.maxHorizon (formula j)) :
    readAndEncode options sources = .error (.unencodable i e) := by
  obtain ⟨before, after, split, earlier⟩ := exists_split_finRange i
  have first : ∀ r ∈ before.map (ofPosition sources formula),
      Encoding.Accepts options.maxHorizon r.formula := by
    intro r mem
    obtain ⟨j, chosen, rfl⟩ := List.mem_map.1 mem
    exact accepted j (earlier j chosen)
  rw [readAndEncode, readAll_eq parses, batch, split, List.map_append, List.map_cons]
  exact encodeAll_eq_error (r := ofPosition sources formula i) first rejected _

end Requirement

namespace Analysis

variable {σ α : Type} [Oracle σ] {options : Options} {sources : List String} {e : AnalysisError}

def Refuses (x : Analysis σ α) (p : Progress σ) (e : AnalysisError) : Prop :=
  ∃ deadline clock, x.run p = (.error e, { p with deadline, clock })

theorem refused_before_query (refused : Requirement.readAndEncode options sources = .error e)
    {p : Progress σ} (timely : p.clock.Timely options.timeout p.deadline) :
    (prepare options sources).run p = (.error e, p) ∨
    ∃ requirements p', (prepare options sources).run p = (.ok requirements, p) ∧
      (setDeadline options).run p = (.ok (), p') ∧
      ∃ deadline clock, (consistent options requirements).run p' = (.error e, { p with deadline, clock }) := by
  cases read : Requirement.readAll options.maxNesting sources with
  | error e' =>
    rw [Requirement.readAndEncode, read] at refused
    cases refused
    rw [prepare, read]
    exact .inl rfl
  | ok requirements =>
    rw [Requirement.readAndEncode, read] at refused
    change Requirement.encodeAll options.maxHorizon requirements = .error e at refused
    rw [prepare, read, run_bind_ok (run_ofExcept _ p)]
    cases options.keepScript with
    | true =>
      refine .inl ?_
      simp only [if_true, refused]
      rfl
    | false =>
      obtain ⟨deadline, looks, limited, timely⟩ := setDeadline_timely timely
      obtain ⟨looks', passed⟩ := checkDeadline_timely
        (p := { p with deadline, clock := p.clock.later looks }) timely
      refine .inr ⟨requirements, _, rfl, limited, deadline, (p.clock.later looks).later looks', ?_⟩
      rw [consistent_eq, run_bind_ok passed, refused]
      rfl

theorem check_refuses (refused : Requirement.readAndEncode options sources = .error e)
    {p : Progress σ} (timely : p.clock.Timely options.timeout p.deadline) :
    Refuses (check options sources) p e := by
  rcases refused_before_query refused timely with
    prepared | ⟨requirements, p', prepared, limited, deadline, clock, queried⟩
  · exact ⟨p.deadline, p.clock, run_bind_error prepared⟩
  · exact ⟨deadline, clock, by rw [check, run_bind_ok prepared, run_bind_ok limited, queried]⟩

theorem explain_refuses (nonempty : sources ≠ [])
    (refused : Requirement.readAndEncode options sources = .error e)
    {p : Progress σ} (timely : p.clock.Timely options.timeout p.deadline) :
    Refuses (explain options sources) p e := by
  rw [explain, if_neg (by simpa using nonempty)]
  rcases refused_before_query refused timely with
    prepared | ⟨requirements, p', prepared, limited, deadline, clock, queried⟩
  · exact ⟨p.deadline, p.clock, run_bind_error prepared⟩
  · refine ⟨deadline, clock, ?_⟩
    rw [run_bind_ok prepared, run_bind_ok limited, run_bind_error queried]

omit [Oracle σ] in
theorem prepare_run_of_encodeAll {requirements : List Requirement} {encoding : Encoding}
    (read : Requirement.readAll options.maxNesting sources = .ok requirements)
    (encoded : Requirement.encodeAll options.maxHorizon requirements = .ok encoding) (p : Progress σ) :
    (prepare options sources).run p = (.ok requirements,
      { p with script := if options.keepScript then some encoding.script else p.script }) := by
  rw [prepare, read, run_bind_ok (run_ofExcept _ p)]
  cases options.keepScript with
  | false => rfl
  | true =>
    simp only [if_true, encoded]
    rfl

/-- A check and an explanation end with `e` and leave everything but the time as it was. If the oracle is
observed, there was no call to it. -/
structure RefusesInput (options : Options) (sources : List String) (s : σ) (clock : Clock)
    (e : AnalysisError) : Prop where
  check : Refuses (Analysis.check options sources) { oracle := s, clock } e
  explain : Refuses (Analysis.explain options sources) { oracle := s, clock } e
  check_observed : Refuses (Analysis.check options sources) (.observing s clock) e
  explain_observed : Refuses (Analysis.explain options sources) (.observing s clock) e

theorem refusesInput_of_error (nonempty : sources ≠ [])
    (refused : Requirement.readAndEncode options sources = .error e) (s : σ) {clock : Clock}
    (inTime : clock.InTime options.timeout) : RefusesInput options sources s clock e where
  check := check_refuses refused inTime.timely
  explain := explain_refuses nonempty refused inTime.timely
  check_observed := check_refuses refused inTime.timely
  explain_observed := explain_refuses nonempty refused inTime.timely

/-- `I` outlasts all that a query does, and `E` holds where it fails after its formulas were encoded. -/
structure Outlasts (options : Options) (I : Progress σ → Prop) (E : AnalysisError → Progress σ → Prop) :
    Prop where
  checkDeadline : Ensures I (Analysis.checkDeadline options) (fun _ => I) E
  reset : ∀ backend, Ensures I (ask backend Oracle.reset) (fun _ => I) E
  limit : ∀ backend, Ensures I (limitCheck backend) (fun _ => I) E
  load : ∀ backend (encoding : Encoding), Ensures I (ask backend encoding.load) (fun _ => I) E
  check : ∀ backend, Ensures I (ask backend Oracle.check) (fun _ => I) E
  counted : ∀ ⦃p⦄, I p → I { p with queries := p.queries + 1 }
  undecided : ∀ ⦃p⦄ backend reason, I p → E (.oracle backend (.undecided reason)) p

section Outlasts
variable {I : Progress σ → Prop} {E : AnalysisError → Progress σ → Prop}

theorem Outlasts.consistent (h : Outlasts options I E) {requirements : List Requirement}
    (refused : ∀ e, Requirement.encodeAll options.maxHorizon requirements = .error e → ∀ ⦃p⦄, I p → E e p) :
    Ensures I (consistent options requirements) (fun _ => I) E := by
  refine h.checkDeadline.bind fun _ => Ensures.bind (.ofExcept (fun _ _ _ => id) refused) fun encoding => ?_
  refine Ensures.get_bind fun p start => Ensures.bind (Q := fun _ => I) ?_ fun _ => ?_
  · rintro _ rfl
    exact h.reset _ start
  refine (h.limit _).bind fun _ => (h.load _ encoding).bind fun _ => (h.check _).bind fun verdict => ?_
  refine Ensures.modify_bind h.counted ?_
  cases verdict with
  | sat | unsat => exact .pure fun _ => id
  | unknown reason => exact h.checkDeadline.bind fun _ _ kept => h.undecided _ reason kept

theorem Outlasts.ofAsk (ask : ∀ {β : Type} (backend : String) (call : Call σ β),
      Ensures I (Analysis.ask backend call) (fun _ => I) E)
    (checkDeadline : Ensures I (Analysis.checkDeadline options) (fun _ => I) E)
    (later : ∀ ⦃p⦄ looks, I p → I { p with clock := p.clock.later looks })
    (counted : ∀ ⦃p⦄, I p → I { p with queries := p.queries + 1 })
    (undecided : ∀ ⦃p⦄ backend reason, I p → E (.oracle backend (.undecided reason)) p) :
    Outlasts options I E where
  checkDeadline := checkDeadline
  reset backend := ask backend _
  limit backend := ensures_limitCheck fun _ _ start _ => ask backend _ (later 1 start)
  load backend _ := ask backend _
  check backend := ask backend _
  counted := counted
  undecided := undecided

end Outlasts

def FailsByOracle (options : Options) (x : Analysis σ α) : Prop :=
  Ensures (fun p => p.clock.Timely options.timeout p.deadline) x
    (fun _ p => p.clock.Timely options.timeout p.deadline)
    fun e _ => ∃ backend failure, e = .oracle backend failure

theorem outlasts_failsByOracle :
    Outlasts options (fun p : Progress σ => p.clock.Timely options.timeout p.deadline)
      fun e _ => ∃ backend failure, e = .oracle backend failure := by
  refine .ofAsk (fun backend call p timely => ?_) (ensures_checkDeadline_timely ?_ fun _ => id) ?_
    (fun _ => id) fun _ backend reason _ => ⟨backend, .undecided reason, rfl⟩
  · rw [ask_run_eq]
    rcases call.run p.oracle with ⟨e | a, s⟩
    · exact ⟨backend, .failed e, rfl⟩
    · exact timely
  · exact fun _ looks timely => timely.later looks
  · exact fun _ looks timely => timely.later looks

theorem failsByOracle_of_encodeAll {requirements : List Requirement} {encoding : Encoding}
    (encoded : Requirement.encodeAll options.maxHorizon requirements = .ok encoding) :
    FailsByOracle options (consistent options requirements : Analysis σ Bool) := by
  refine outlasts_failsByOracle.consistent fun e refused => ?_
  rw [encoded] at refused
  cases refused

theorem failsByOracle_consistent {requirements : List Requirement}
    (accepted : ∀ r ∈ requirements, Encoding.Accepts options.maxHorizon r.formula) :
    FailsByOracle options (consistent options requirements : Analysis σ Bool) := by
  obtain ⟨encoding, encoded⟩ := Requirement.exists_encodeAll accepted
  exact failsByOracle_of_encodeAll encoded

omit [Oracle σ] in
theorem failsByOracle_setDeadline : FailsByOracle options (setDeadline options : Analysis σ Unit) := by
  intro p timely
  obtain ⟨deadline, looks, run, timely⟩ := setDeadline_timely timely
  rw [run]
  exact timely

omit [Oracle σ] in
theorem ensures_prepare_accepted {formula : Fin sources.length → Formula}
    (parses : ∀ i, Formula.parse options.maxNesting (sources.get i) = .ok (formula i))
    (accepted : ∀ i, Encoding.Accepts options.maxHorizon (formula i)) :
    Ensures (fun p => p.clock.Timely options.timeout p.deadline) (prepare options sources : Analysis σ _)
      (fun requirements p => (∀ r ∈ requirements, Encoding.Accepts options.maxHorizon r.formula) ∧
        p.clock.Timely options.timeout p.deadline)
      fun e _ => ∃ backend failure, e = .oracle backend failure := by
  have all : ∀ r ∈ Requirement.batch sources formula,
      Encoding.Accepts options.maxHorizon r.formula := by
    intro r mem
    obtain ⟨i, _, rfl⟩ := List.mem_map.1 mem
    exact accepted i
  obtain ⟨encoding, encoded⟩ := Requirement.exists_encodeAll all
  intro p timely
  rw [prepare_run_of_encodeAll (Requirement.readAll_eq parses) encoded]
  exact ⟨all, timely⟩

/-- In an analysis in time, errors of the input come first. The first text that cannot be read is reported,
whatever else is wrong. If all can be read, the first formula that cannot be encoded is, with the error that
it has in an encoding of its own. In both cases no call was made to the oracle and no script was kept. If
there is no such text and no such formula, then only the oracle can make an analysis fail, whatever parts of
the batch it asks about. -/
theorem input_errors_come_first (options : Options) (sources : List String) (s : σ) (clock : Clock)
    (inTime : clock.InTime options.timeout) :
    (∀ (i : Fin sources.length) (d : Diagnostic),
      Formula.parse options.maxNesting (sources.get i) = .error d →
      (∀ j < i, ∃ f, Formula.parse options.maxNesting (sources.get j) = .ok f) →
      RefusesInput options sources s clock
        (.unreadable i (d.attach (sources.get i) s!"formula[{i.val}]"))) ∧
    ∀ formula : Fin sources.length → Formula,
      (∀ i, Formula.parse options.maxNesting (sources.get i) = .ok (formula i)) →
      (∀ i e, (({} : Encoding).push options.maxHorizon (formula i)).1 = .error e →
        (∀ j < i, (({} : Encoding).push options.maxHorizon (formula j)).1 = .ok ()) →
        RefusesInput options sources s clock (.unencodable i e)) ∧
      ((∀ i, (({} : Encoding).push options.maxHorizon (formula i)).1 = .ok ()) →
        (∀ e p, (check options sources).run { oracle := s, clock } = (.error e, p) →
          ∃ backend failure, e = .oracle backend failure) ∧
        ∀ e p, (explain options sources).run { oracle := s, clock } = (.error e, p) →
          ∃ backend failure, e = .oracle backend failure) := by
  have nonempty (i : Fin sources.length) : sources ≠ [] := List.ne_nil_of_length_pos i.pos
  refine ⟨fun i d fails readable => ?_, fun formula parses => ⟨fun i e fails succeeds => ?_,
    fun succeeds => ?_⟩⟩
  · have refused := Requirement.readAndEncode_of_unreadable fails readable
    exact refusesInput_of_error (nonempty i) refused s inTime
  · have refused := Requirement.readAndEncode_of_unencodable parses (Encoding.rejects_of_push fails)
      fun j earlier => Encoding.accepts_of_push (succeeds j earlier)
    exact refusesInput_of_error (nonempty i) refused s inTime
  · have prepared := ensures_prepare_accepted (σ := σ) parses fun i => Encoding.accepts_of_push (succeeds i)
    constructor
    · intro e p run
      have ends := MissionTime.ensures_check prepared failsByOracle_setDeadline (fun requirements all =>
        failsByOracle_consistent all) (s := { oracle := s, clock }) inTime.timely
      rw [run] at ends
      exact ends
    · intro e p run
      have ends := ensures_explain prepared failsByOracle_setDeadline (fun requirements all part sub =>
        failsByOracle_consistent fun r mem => all r (sub mem)) (s := { oracle := s, clock }) inTime.timely
      rw [run] at ends
      exact ends

theorem input_errors_come_first_two_faults :
    let options : Options := { maxHorizon := 5, timeout := 2 }
    let clock := Clock.still 7
    clock.InTime options.timeout ∧
    (∃ d, RefusesInput options ["F[0,9] a", "a &"] ({} : Recorder) clock (.unreadable 1 d)) ∧
    RefusesInput options ["a", "F[0,9] a", "G[0,8] b"] ({} : Recorder) clock
      (.unencodable 1 (.horizonExceeded 9 5)) := by
  intro options clock
  have inTime : clock.InTime options.timeout := fun _ _ => Nat.lt_add_of_pos_right (by decide)
  refine ⟨inTime, ?_, ?_⟩
  · have readable : (Formula.parse options.maxNesting "F[0,9] a").toOption =
        some (.eventually ⟨0, 9⟩ (.atom "a")) := by decide +kernel
    have unreadable : (Formula.parse options.maxNesting "a &").toOption = none := by decide +kernel
    cases parsed : Formula.parse options.maxNesting "a &" with
    | ok f =>
      rw [parsed] at unreadable
      cases unreadable
    | error d =>
      refine ⟨_, (input_errors_come_first options ["F[0,9] a", "a &"] ({} : Recorder) clock inTime).1 1 d
        parsed ?_⟩
      intro j earlier
      obtain rfl : j = 0 := Fin.ext (Nat.lt_one_iff.1 earlier)
      exact ⟨_, eq_ok_of_toOption readable⟩
  · let sources := ["a", "F[0,9] a", "G[0,8] b"]
    let formula : Fin 3 → Formula :=
      [.atom "a", .eventually ⟨0, 9⟩ (.atom "a"), .always ⟨0, 8⟩ (.atom "b")].get
    have parses : ∀ i : Fin 3,
        (Formula.parse options.maxNesting (sources.get i)).toOption = some (formula i) := by
      decide +kernel
    have pushed : (({} : Encoding).push options.maxHorizon (formula 1)).1 =
          .error (.horizonExceeded 9 5) ∧
        ∀ j < (1 : Fin 3), (({} : Encoding).push options.maxHorizon (formula j)).1 = .ok () := by
      decide +kernel
    exact ((input_errors_come_first options sources ({} : Recorder) clock inTime).2 formula
      fun i => eq_ok_of_toOption (parses i)).1 1 _ pushed.1 pushed.2

end Analysis
end MissionTime
