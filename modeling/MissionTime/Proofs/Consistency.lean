import MissionTime.Analysis.Backend
import MissionTime.Proofs.ClausalRuns
import MissionTime.Proofs.Deadlines
import MissionTime.Proofs.Encoding

/-! Queries to oracles that decide. What such an oracle does is said by five laws, one for each of its
calls; from them follows that a query is answered by the joint satisfiability of its formulas. The
internal oracle obeys the laws. -/
namespace MissionTime
open Runs

def Term.Satisfiable (terms : List Term) : Prop := ∃ value, ∀ t ∈ terms, t.eval value = true

/-- The laws of an oracle that decides. `Ready` tells the states in which a query may begin, and
`Holds names terms` those in which `names` are declared and `terms` asserted. -/
structure Oracle.Decides {σ : Type} [Oracle σ] (Ready : σ → Prop)
    (Holds : List String → List Term → σ → Prop) : Prop where
  reset : ∀ ⦃s : σ⦄, Ready s → ∃ s', (Oracle.reset : Call σ Unit).run s = (.ok (), s') ∧ Holds [] [] s'
  setTimeout : ∀ ⦃s : σ⦄ ⦃names terms⦄, Holds names terms s → ∀ seconds,
    ∃ s', (Oracle.setTimeout seconds : Call σ Unit).run s = (.ok (), s') ∧ Holds names terms s'
  declare : ∀ ⦃s : σ⦄ ⦃names terms⦄, Holds names terms s → ∀ name,
    ∃ s', (Oracle.declare name : Call σ Unit).run s = (.ok (), s') ∧ Holds (names ++ [name]) terms s'
  assertTerm : ∀ ⦃s : σ⦄ ⦃names terms⦄, Holds names terms s → ∀ t : Term, t.names ⊆ names →
    ∃ s', (Oracle.assertTerm t : Call σ Unit).run s = (.ok (), s') ∧ Holds names (terms ++ [t]) s'
  check : ∀ ⦃s : σ⦄ ⦃names terms⦄, Holds names terms s →
    ∃ verdict s', (Oracle.check : Call σ Verdict).run s = (.ok verdict, s') ∧ Ready s' ∧
      (verdict = .sat ∧ Term.Satisfiable terms ∨ verdict = .unsat ∧ ¬ Term.Satisfiable terms)

namespace Clausal

def HoldsTerms (names : List String) (terms : List Term) (s : Clausal) : Prop :=
  Ledger.Matches ⟨names, terms.flatMap Term.conjuncts⟩ s

theorem forall_conjuncts_iff (terms : List Term) (value : String → Bool) :
    (∀ t ∈ terms.flatMap Term.conjuncts, t.eval value = true) ↔ ∀ t ∈ terms, t.eval value = true := by
  simp only [List.forall_mem_flatMap, ← List.all_eq_true, Term.all_conjuncts]

theorem HoldsTerms.assertTerm {s : Clausal} {names : List String} {terms : List Term}
    (h : HoldsTerms names terms s) {t : Term} (declared : t.names ⊆ names) :
    ∃ s', (Clausal.assertTerm t).run s = (.ok (), s') ∧ HoldsTerms names (terms ++ [t]) s' := by
  obtain ⟨result, s', run, h', outcome⟩ := Ledger.Matches.assertTerm h t
  rcases outcome with ⟨all, rfl⟩ | ⟨name, mem, undeclared, _⟩
  · rw [Ledger.declares_eq_all_conjuncts, List.all_eq_true] at all
    rw [Ledger.record, List.takeWhile_eq_self_iff.2 all] at h'
    refine ⟨s', run, ?_⟩
    rwa [HoldsTerms, List.flatMap_append, List.flatMap_singleton]
  · exact absurd (declared mem) undeclared

theorem decides : Oracle.Decides (fun _ : Clausal => True) HoldsTerms where
  reset s _ := ⟨{}, rfl, Ledger.matches_empty⟩
  setTimeout s names terms h _ := ⟨s, rfl, h⟩
  declare s names terms h name := Ledger.Matches.declare h name
  assertTerm s names terms h t declared := h.assertTerm declared
  check s names terms h := by
    obtain ⟨⟨extension, represents⟩, _⟩ := h
    have satisfiable := represents.satisfiable_iff
    simp only [forall_conjuncts_iff] at satisfiable
    refine ⟨_, s, check_run s, trivial, ?_⟩
    split_ifs with found
    · exact .inl ⟨rfl, satisfiable.1 found⟩
    · exact .inr ⟨rfl, fun h => found (satisfiable.2 h)⟩

end Clausal

namespace Backend

def OnClausal (P : Clausal → Prop) (b : Backend) : Prop := ∃ s, b = .clausal s ∧ P s

theorem dispatch_run {α : Type} {onClausal : Call Clausal α} (onSession : Call Session α)
    {s s' : Clausal} {result : Except OracleError α} (run : onClausal.run s = (result, s')) :
    (dispatch onClausal onSession).run (.clausal s) = (result, .clausal s') := by
  rw [dispatch, run_modifyGet_bind, run_ofExcept]
  simp only [run]

theorem decides : Oracle.Decides (OnClausal fun _ => True)
    (fun names terms => OnClausal (Clausal.HoldsTerms names terms)) where
  reset := by
    rintro _ ⟨s, rfl, ready⟩
    obtain ⟨s', run, h⟩ := Clausal.decides.reset ready
    exact ⟨.clausal s', dispatch_run _ run, s', rfl, h⟩
  setTimeout := by
    rintro _ names terms ⟨s, rfl, h⟩ seconds
    obtain ⟨s', run, h⟩ := Clausal.decides.setTimeout h seconds
    exact ⟨.clausal s', dispatch_run _ run, s', rfl, h⟩
  declare := by
    rintro _ names terms ⟨s, rfl, h⟩ name
    obtain ⟨s', run, h⟩ := Clausal.decides.declare h name
    exact ⟨.clausal s', dispatch_run _ run, s', rfl, h⟩
  assertTerm := by
    rintro _ names terms ⟨s, rfl, h⟩ t declared
    obtain ⟨s', run, h⟩ := Clausal.decides.assertTerm h t declared
    exact ⟨.clausal s', dispatch_run _ run, s', rfl, h⟩
  check := by
    rintro _ names terms ⟨s, rfl, h⟩
    obtain ⟨verdict, s', run, ready, answer⟩ := Clausal.decides.check h
    exact ⟨verdict, .clausal s', dispatch_run _ run, ⟨s', rfl, ready⟩, answer⟩

end Backend

namespace Requirement

def Encodable (limit : Nat) (r : Requirement) : Prop := r.formula.Fits 0 ∧ r.formula.horizon ≤ limit

theorem encodeAll_eq (limit : Nat) (requirements : List Requirement) : encodeAll limit requirements =
    Encoding.ofItems limit formula (fun r => .unencodable r.index) {} requirements := rfl

theorem encodeAll_encodes {limit : Nat} {requirements : List Requirement}
    (encodable : ∀ r ∈ requirements, r.Encodable limit) :
    ∃ encoding, encodeAll limit requirements = .ok encoding ∧
      encoding.Encodes (requirements.map formula) := by
  rw [encodeAll_eq]
  exact Encoding.encodes_empty.ofItems _ (fun r mem => (encodable r mem).1) fun r mem => (encodable r mem).2

theorem unreadable_of_readAll {maxNesting : Nat} {sources : List String} {e : AnalysisError}
    (refused : readAll maxNesting sources = .error e) :
    ∃ index diagnostic, e = .unreadable index diagnostic := by
  obtain ⟨_, ⟨source, index⟩, _, _, _, fails⟩ := mapM_eq_error_iff.1 refused
  dsimp only at fails
  split at fails
  · cases fails
  · cases fails
    exact ⟨index, _, rfl⟩

theorem unencodable_of_encodeAll {maxHorizon : Nat} {requirements : List Requirement} {e : AnalysisError}
    (refused : encodeAll maxHorizon requirements = .error e) :
    ∃ index error, e = .unencodable index error := by
  obtain ⟨r, error, rfl⟩ := Encoding.fault_of_ofItems (encodeAll_eq .. ▸ refused)
  exact ⟨r.index, error, rfl⟩

open Classical in
noncomputable def agree (requirements : List Requirement) : Bool :=
  decide (Formula.JointlySatisfiable (requirements.map formula))

theorem agree_eq_true {requirements : List Requirement} :
    agree requirements = true ↔ Formula.JointlySatisfiable (requirements.map formula) :=
  @decide_eq_true_iff _ (Classical.propDecidable _)

theorem agree_eq_false {requirements : List Requirement} :
    agree requirements = false ↔ ¬ Formula.JointlySatisfiable (requirements.map formula) :=
  @decide_eq_false_iff_not _ (Classical.propDecidable _)

end Requirement

namespace Oracle.Decides

variable {σ : Type} [Oracle σ] {Ready : σ → Prop} {Holds : List String → List Term → σ → Prop}
  (decides : Oracle.Decides Ready Holds) {s : σ} {names : List String} {terms : List Term}
include decides

theorem forM_declare (h : Holds names terms s) (more : List String) :
    ∃ s', (more.forM Oracle.declare : Call σ Unit).run s = (.ok (), s') ∧
      Holds (names ++ more) terms s' := by
  apply run_forM (fun done name _ s _ h => ?_) (by rwa [List.append_nil])
  simpa using decides.declare h name

theorem forM_assertTerm (h : Holds names terms s) (more : List Term)
    (declared : ∀ t ∈ more, t.names ⊆ names) :
    ∃ s', (more.forM Oracle.assertTerm : Call σ Unit).run s = (.ok (), s') ∧
      Holds names (terms ++ more) s' := by
  apply run_forM (fun done t rest s all h => ?_) (by rwa [List.append_nil])
  have mem : t ∈ more := by simp [all]
  simpa using decides.assertTerm h t (declared t mem)

theorem load (h : Holds [] [] s) {encoding : Encoding} {formulas : List Formula}
    (encodes : encoding.Encodes formulas) :
    ∃ s', (encoding.load : Call σ Unit).run s = (.ok (), s') ∧
      Holds encoding.declarations encoding.assertions.toList s' := by
  obtain ⟨s₁, run₁, h₁⟩ := decides.forM_declare h encoding.declarations
  obtain ⟨s₂, run₂, h₂⟩ := decides.forM_assertTerm h₁ encoding.assertions.toList
    fun t mem name hn => encodes.declared t mem name hn
  exact ⟨s₂, by rw [Encoding.load, run_bind_ok run₁, run₂], h₂⟩

end Oracle.Decides

namespace Analysis

variable {σ : Type} [Oracle σ]

omit [Oracle σ] in
theorem ask_run_eq {α : Type} (call : Call σ α) (backend : String) (p : Progress σ) :
    (ask backend call).run p =
      ((call.run p.oracle).1.mapError fun e => .oracle backend (.failed e),
        { p with oracle := (call.run p.oracle).2 }) := by
  rw [ask, run_modifyGet_bind, run_ofExcept]
  rfl

omit [Oracle σ] in
theorem ask_run {α : Type} {call : Call σ α} {backend : String} (p : Progress σ) {a : α} {s : σ}
    (run : call.run p.oracle = (.ok a, s)) :
    (ask backend call).run p = (.ok a, { p with oracle := s }) := by
  rw [ask_run_eq, run]
  rfl

omit [Oracle σ] in
theorem ensures_prepare {options : Options} {sources : List String} {I : Progress σ → Prop}
    {E : AnalysisError → Progress σ → Prop}
    (unreadable : ∀ index diagnostic ⦃p⦄, I p → E (.unreadable index diagnostic) p)
    (unencodable : ∀ index error ⦃p⦄, I p → E (.unencodable index error) p)
    (kept : ∀ ⦃p⦄ script, I p → I { p with script := script }) :
    Ensures I (prepare options sources) (fun _ p => True ∧ I p) E := by
  refine Ensures.bind (.ofExcept (fun _ _ _ => id) fun e refused p start => ?_) fun requirements => ?_
  · obtain ⟨index, diagnostic, rfl⟩ := Requirement.unreadable_of_readAll refused
    exact unreadable index diagnostic start
  cases options.keepScript with
  | false => exact .pure fun _ start => ⟨trivial, start⟩
  | true =>
    refine Ensures.bind (.ofExcept (fun _ _ _ => id) fun e refused p start => ?_) fun encoding => ?_
    · obtain ⟨index, error, rfl⟩ := Requirement.unencodable_of_encodeAll refused
      exact unencodable index error start
    · exact .modify_bind (fun _ start => kept (some encoding.script) start)
        (.pure fun _ start => ⟨trivial, start⟩)

variable {Ready : σ → Prop} {Holds : List String → List Term → σ → Prop}

/-- The part of a query that follows once the oracle has been reset and limited. -/
def query (options : Options) (backend : String) (encoding : Encoding) : Analysis σ Bool := do
  ask backend encoding.load
  let verdict ← ask backend Oracle.check
  modify fun p => { p with queries := p.queries + 1 }
  match verdict with
  | .sat => return true
  | .unsat => return false
  | .unknown reason =>
    checkDeadline options
    throw (.oracle backend (.undecided reason))

theorem consistent_eq (options : Options) (requirements : List Requirement) :
    (consistent options requirements : Analysis σ Bool) = (do
      checkDeadline options
      let encoding ← MonadExcept.ofExcept (Requirement.encodeAll options.maxHorizon requirements)
      let p ← get
      ask (Oracle.backend p.oracle) Oracle.reset
      limitCheck (Oracle.backend p.oracle)
      query options (Oracle.backend p.oracle) encoding) := rfl

theorem query_run (decides : Oracle.Decides Ready Holds) {encoding : Encoding}
    {requirements : List Requirement} (encodes : encoding.Encodes (requirements.map Requirement.formula))
    (options : Options) (backend : String) (p : Progress σ) (h : Holds [] [] p.oracle) :
    ∃ s, Ready s ∧ (query options backend encoding).run p =
      (.ok (Requirement.agree requirements), { p with oracle := s, queries := p.queries + 1 }) := by
  obtain ⟨s₁, load, h⟩ := decides.load h encodes
  obtain ⟨verdict, s₂, check, ready, answer⟩ := decides.check h
  refine ⟨s₂, ready, ?_⟩
  rw [query, run_bind_ok (ask_run _ load), run_bind_ok (ask_run _ check), run_modify_bind]
  have satisfiable : Term.Satisfiable encoding.assertions.toList ↔ _ := encodes.satisfiable_iff
  rcases answer with ⟨rfl, yes⟩ | ⟨rfl, no⟩
  · rw [Requirement.agree_eq_true.2 (satisfiable.1 yes)]
    rfl
  · rw [Requirement.agree_eq_false.2 (mt satisfiable.2 no)]
    rfl

theorem limitCheck_run (decides : Oracle.Decides Ready Holds) (backend : String) (p : Progress σ)
    (h : Holds [] [] p.oracle) :
    ∃ s looks, Holds [] [] s ∧
      (limitCheck backend).run p = (.ok (), { p with oracle := s, clock := p.clock.later looks }) := by
  rcases Option.eq_none_or_eq_some p.deadline with unset | ⟨d, set⟩
  · exact ⟨p.oracle, 0, h, limitCheck_none unset⟩
  · obtain ⟨s, limit, h⟩ := decides.setTimeout h
      (max (Clock.secondsUntil d (p.clock.reading p.clock.looks)) 1)
    refine ⟨s, 1, h, ?_⟩
    rw [limitCheck_some set, ask_run { p with clock := p.clock.later 1 } limit]

/-- A query in time on requirements that can be encoded is answered by their joint satisfiability. -/
theorem consistent_run (decides : Oracle.Decides Ready Holds) {options : Options}
    {requirements : List Requirement}
    (encodable : ∀ r ∈ requirements, r.Encodable options.maxHorizon) {p : Progress σ}
    (ready : Ready p.oracle) (timely : p.clock.Timely options.timeout p.deadline) :
    ∃ s looks, Ready s ∧ (consistent options requirements).run p =
      (.ok (Requirement.agree requirements),
        { p with oracle := s, clock := p.clock.later looks, queries := p.queries + 1 }) := by
  obtain ⟨looks₁, passed⟩ := checkDeadline_timely timely
  obtain ⟨encoding, encoded, encodes⟩ := Requirement.encodeAll_encodes encodable
  generalize p₁_eq : { p with clock := p.clock.later looks₁ } = p₁ at passed
  have ready : Ready p₁.oracle := p₁_eq ▸ ready
  obtain ⟨s₁, reset, h₁⟩ := decides.reset ready
  obtain ⟨s₂, looks₂, h₂, limited⟩ :=
    limitCheck_run decides (Oracle.backend p₁.oracle) { p₁ with oracle := s₁ } h₁
  obtain ⟨s₃, ready, run⟩ := query_run decides encodes options (Oracle.backend p₁.oracle)
    { p₁ with oracle := s₂, clock := p₁.clock.later looks₂ } h₂
  refine ⟨s₃, looks₁ + looks₂, ready, ?_⟩
  rw [consistent_eq, run_bind_ok passed, encoded, run_bind_ok (run_ofExcept _ p₁), run_get_bind,
    run_bind_ok (ask_run p₁ reset), run_bind_ok limited, run, ← Clock.later_later, ← p₁_eq]

end Analysis
end MissionTime
