import MissionTime.Oracle.Recorder
import MissionTime.Proofs.Observation

/-! A failure of the oracle ends an analysis. As long as no call has failed the verdicts are counted; the
first call that fails, or the first check that is not decided, is the last call that is made, and the
analysis ends with the text of that failure. -/
namespace MissionTime
open Runs

namespace Observed

variable {σ : Type} {name : Option String} {backend text : String} {resets checks : Nat}
  {o : Observed σ}

/-- No call has failed. The backend in use is `name`, and the resets and the checks are counted. -/
structure Untroubled (name : Option String) (resets checks : Nat) (o : Observed σ) : Prop where
  clean : ∀ x ∈ o.exchanges, x.complaint? = none
  inUse : backendInUse o.exchanges = name
  begun : o.exchanges.countP Exchange.isReset = resets
  counted : o.exchanges.countP Exchange.isCheck = checks

structure Troubled (backend text : String) (o : Observed σ) : Prop where
  stopped : ∃ before x, o.exchanges = before ++ [x] ∧ (∀ y ∈ before, y.complaint? = none) ∧
    x.complaint? = some text
  inUse : backendInUse o.exchanges = some backend

theorem Untroubled.append (h : o.Untroubled name resets checks) {x : Exchange}
    (fine : x.complaint? = none) (s : σ) :
    Untroubled (x.backendAfter name) (resets + x.isReset.toNat) (checks + x.isCheck.toNat)
      ⟨s, o.exchanges ++ [x]⟩ where
  clean := List.forall_mem_append.2 ⟨h.clean, List.forall_mem_singleton.2 fine⟩
  inUse := by rw [← h.inUse, backendInUse, List.foldl_append]; rfl
  begun := by cases reset : x.isReset <;> simp [h.begun, reset]
  counted := by cases checked : x.isCheck <;> simp [h.counted, checked]

theorem Untroubled.append_complaint (h : o.Untroubled name resets checks) {x : Exchange}
    (complaint : x.complaint? = some text) (named : x.backendAfter name = some backend) (s : σ) :
    Troubled backend text ⟨s, o.exchanges ++ [x]⟩ where
  stopped := ⟨o.exchanges, x, rfl, h.clean, complaint⟩
  inUse := by rw [← named, ← h.inUse, backendInUse, List.foldl_append]; rfl

theorem Troubled.eq_last (h : o.Troubled backend text) {before after : List Exchange} {x : Exchange}
    {text' : String} (split : o.exchanges = before ++ x :: after) (complaint : x.complaint? = some text') :
    after = [] ∧ text = text' := by
  obtain ⟨earlier, last, stopped, silent, lastComplaint⟩ := h.stopped
  rw [stopped] at split
  rcases after.eq_nil_or_concat with rfl | ⟨init, z, rfl⟩
  · obtain ⟨-, same⟩ := List.append_inj' split rfl
    cases same
    exact ⟨rfl, Option.some.inj (lastComplaint.symm.trans complaint)⟩
  · rw [List.concat_eq_append, ← List.cons_append, ← List.append_assoc] at split
    obtain ⟨rfl, -⟩ := List.append_inj' split rfl
    have := silent x (by simp)
    rw [complaint] at this
    cases this

theorem Untroubled.observe (h : o.Untroubled name resets checks) (call : Call σ Unit)
    {exchange : σ → Except OracleError Unit → Exchange} {resets' : Nat}
    (named : ∀ result, (exchange o.oracle result).backendAfter name = some backend)
    (begun : ∀ result, resets + (exchange o.oracle result).isReset.toNat = resets')
    (unchecked : ∀ result, (exchange o.oracle result).isCheck = false)
    (fine : (exchange o.oracle (.ok ())).complaint? = none)
    (complains : ∀ e, (exchange o.oracle (.error e)).complaint? = some e.message) :
    Ends (fun _ => Untroubled (some backend) resets' checks)
      (fun e => Troubled backend e.message) ((Observed.observe exchange call).run o) := by
  rw [observe_run]
  rcases call.run o.oracle with ⟨e | ⟨⟩, s⟩
  · exact h.append_complaint (complains e) (named _) s
  · have after := h.append fine s
    rw [named, begun, unchecked] at after
    exact after

def Answered (backend : String) (resets checks : Nat) (o : Observed σ) : Verdict → Prop
  | .sat | .unsat => o.Untroubled (some backend) resets (checks + 1)
  | .unknown reason => o.Troubled backend ("solver returned unknown: " ++ reason)

variable [Oracle σ]

theorem Untroubled.reset (h : o.Untroubled name resets checks) :
    Ends (fun _ => Untroubled (some (Oracle.backend o.oracle)) (resets + 1) checks)
      (fun e => Troubled (Oracle.backend o.oracle) e.message)
      ((Oracle.reset : Call (Observed σ) Unit).run o) :=
  h.observe Oracle.reset (fun _ => rfl) (fun _ => rfl) (fun _ => rfl) rfl fun _ => rfl

theorem ensures_setTimeout (seconds : Nat) :
    Ensures (Untroubled (some backend) resets checks)
      (Oracle.setTimeout seconds : Call (Observed σ) Unit)
      (fun _ => Untroubled (some backend) resets checks) (fun e => Troubled backend e.message) :=
  fun _ h => h.observe (Oracle.setTimeout seconds) (fun _ => rfl) (fun _ => rfl) (fun _ => rfl) rfl
    fun _ => rfl

theorem ensures_load (encoding : Encoding) :
    Ensures (Untroubled (some backend) resets checks) (encoding.load : Call (Observed σ) Unit)
      (fun _ => Untroubled (some backend) resets checks) (fun e => Troubled backend e.message) := by
  refine (Ensures.forM (fun name => ?_) encoding.declarations).bind fun _ =>
    Ensures.forM (fun term => ?_) encoding.assertions.toList
  · exact fun _ h => h.observe (Oracle.declare name) (fun _ => rfl) (fun _ => rfl) (fun _ => rfl) rfl
      fun _ => rfl
  · exact fun _ h => h.observe (Oracle.assertTerm term) (fun _ => rfl) (fun _ => rfl) (fun _ => rfl) rfl
      fun _ => rfl

theorem ensures_check :
    Ensures (Untroubled (some backend) resets checks) (Oracle.check : Call (Observed σ) Verdict)
      (fun verdict o => o.Answered backend resets checks verdict)
      (fun e => Troubled backend e.message) := by
  intro o h
  change Ends _ _ ((Observed.observe (fun _ => .check) Oracle.check).run o)
  rw [observe_run]
  rcases Oracle.check.run o.oracle with ⟨e | verdict, s⟩
  · exact h.append_complaint (x := .check (.error e)) rfl rfl s
  · cases verdict with
    | sat => exact h.append (x := .check (.ok .sat)) rfl s
    | unsat => exact h.append (x := .check (.ok .unsat)) rfl s
    | unknown reason => exact h.append_complaint (x := .check (.ok (.unknown reason))) rfl rfl s

end Observed

namespace Analysis
open Observed

variable {σ α : Type} {options : Options}

/-- No call has failed, every query that was begun by a reset has had a check, which is counted, and there is
time. -/
def Idle (options : Options) (p : Progress (Observed σ)) : Prop :=
  (∃ name, p.oracle.Untroubled name p.queries p.queries) ∧ p.clock.Timely options.timeout p.deadline

def Serving (options : Options) (backend : String) (p : Progress (Observed σ)) : Prop :=
  p.oracle.Untroubled (some backend) (p.queries + 1) p.queries ∧ p.clock.Timely options.timeout p.deadline

def Blames (p : Progress (Observed σ)) : AnalysisError → Prop
  | .oracle backend failure => p.oracle.Troubled backend failure.message
  | _ => ∀ x ∈ p.oracle.exchanges, x.complaint? = none

/-- How an analysis ends on an oracle that was observed. A call that fails is the last one, and its text
is the error of the analysis; an error of the oracle is the failure of the last call; and an analysis
with a result has had a verdict from every check, one for each query that a reset began, and has counted
them. -/
structure StopsAtFailure (result : Except AnalysisError α) (p : Progress (Observed σ)) : Prop where
  aborts : ∀ before x after text, p.oracle.exchanges = before ++ x :: after →
    x.complaint? = some text → after = [] ∧ ∃ backend failure,
      result = .error (.oracle backend failure) ∧
      backendInUse p.oracle.exchanges = some backend ∧ failure.message = text
  blamed : ∀ backend failure, result = .error (.oracle backend failure) →
    ∃ before x, p.oracle.exchanges = before ++ [x] ∧ x.complaint? = some failure.message
  answered : ∀ a, result = .ok a →
    (∀ verdict, .check verdict ∈ p.oracle.exchanges → verdict = .ok .sat ∨ verdict = .ok .unsat) ∧
      p.oracle.exchanges.countP Exchange.isReset = p.queries ∧
      p.oracle.exchanges.countP Exchange.isCheck = p.queries

theorem stopsAtFailure_of_ends {result : Except AnalysisError α} {p : Progress (Observed σ)}
    (h : Ends (fun _ => Idle options) (fun e p => Blames p e) (result, p)) : StopsAtFailure result p where
  aborts before x after text split complaint := by
    -- A result, or an error that is not the oracle's, leaves no complaint.
    have not_clean : ¬ ∀ y ∈ p.oracle.exchanges, y.complaint? = none := by
      intro clean
      have := clean x (by simp [split])
      rw [complaint] at this
      cases this
    match result, h with
    | .ok a, ⟨⟨_, untroubled⟩, _⟩ => exact absurd untroubled.clean not_clean
    | .error (.oracle backend failure), (troubled : p.oracle.Troubled backend failure.message) =>
      obtain ⟨last, same⟩ := troubled.eq_last split complaint
      exact ⟨last, backend, failure, rfl, troubled.inUse, same⟩
    | .error (.unreadable _ _), clean | .error (.unencodable _ _), clean | .error (.deadline _), clean =>
      exact absurd clean not_clean
  blamed backend failure outcome := by
    subst outcome
    obtain ⟨before, x, split, _, complaint⟩ := Troubled.stopped h
    exact ⟨before, x, split, complaint⟩
  answered a outcome := by
    subst outcome
    obtain ⟨⟨name, untroubled⟩, -⟩ := h
    refine ⟨fun verdict mem => ?_, untroubled.begun, untroubled.counted⟩
    have clean := untroubled.clean _ mem
    match verdict, clean with
    | .ok .sat, _ => exact .inl rfl
    | .ok .unsat, _ => exact .inr rfl

theorem ends_ask {backend : String} {call : Call (Observed σ) α} {Q : α → Observed σ → Prop}
    {p : Progress (Observed σ)}
    (h : Ends Q (fun e => Troubled backend e.message) (call.run p.oracle)) :
    Ends (fun a p' => ∃ s, Q a s ∧ p' = { p with oracle := s }) (fun e p' => Blames p' e)
      ((ask backend call).run p) := by
  rw [ask_run_eq]
  rcases run : call.run p.oracle with ⟨e | a, s⟩ <;> rw [run] at h
  · exact h
  · exact ⟨s, h, rfl⟩

theorem ensures_ask {backend : String} {call : Call (Observed σ) α} {Q : Nat → α → Observed σ → Prop}
    (h : ∀ checks, Ensures (Untroubled (some backend) (checks + 1) checks) call (Q checks)
      fun e => Troubled backend e.message) :
    Ensures (Serving options backend) (ask backend call)
      (fun a p => Q p.queries a p.oracle ∧ p.clock.Timely options.timeout p.deadline)
      (fun e p => Blames p e) := by
  rintro p ⟨serving, timely⟩
  refine (ends_ask (h p.queries serving)).imp ?_
  rintro a _ ⟨s, after, rfl⟩
  exact ⟨after, timely⟩

theorem blames_of_encodeAll {maxHorizon : Nat} {requirements : List Requirement} {e : AnalysisError}
    (refused : Requirement.encodeAll maxHorizon requirements = .error e) {p : Progress (Observed σ)}
    (idle : Idle options p) : Blames p e := by
  obtain ⟨index, error, rfl⟩ := Requirement.unencodable_of_encodeAll refused
  exact idle.1.choose_spec.clean

theorem ensures_setDeadline_idle :
    Ensures (Idle options) (setDeadline options : Analysis (Observed σ) Unit) (fun _ => Idle options)
      (fun e p => Blames p e) := by
  rintro p ⟨untroubled, timely⟩
  obtain ⟨deadline, looks, run, timely⟩ := setDeadline_timely timely
  rw [run]
  exact ⟨untroubled, timely⟩

variable [Oracle σ]

theorem ensures_limitCheck_serving (backend : String) :
    Ensures (Serving options backend) (limitCheck backend : Analysis (Observed σ) Unit)
      (fun _ => Serving options backend) (fun e p => Blames p e) := by
  refine ensures_limitCheck fun p d ⟨serving, timely⟩ set => ?_
  exact ensures_ask (fun _ => ensures_setTimeout _) ⟨serving, timely.later 1⟩

theorem ensures_query (backend : String) (encoding : Encoding) :
    Ensures (Serving options backend) (query options backend encoding : Analysis (Observed σ) Bool)
      (fun _ => Idle options) (fun e p => Blames p e) := by
  refine (ensures_ask fun _ => ensures_load encoding).bind fun _ => ?_
  refine (ensures_ask fun _ => Observed.ensures_check).bind fun verdict => ?_
  cases verdict with
  | sat | unsat =>
    refine .modify_bind (I := Idle options) (fun _ answered => ?_) (.pure fun _ => id)
    exact ⟨⟨_, answered.1⟩, answered.2⟩
  | unknown reason =>
    refine .modify_bind (I := fun p => p.oracle.Troubled backend ("solver returned unknown: " ++ reason) ∧
      p.clock.Timely options.timeout p.deadline) (fun _ answered => answered) ?_
    refine Ensures.bind (ensures_checkDeadline_timely ?_ fun _ stopped => stopped.2) fun _ => ?_
    · exact fun _ looks stopped => ⟨stopped.1, stopped.2.later looks⟩
    · exact fun _ stopped => stopped.1

theorem ensures_consistent (options : Options) (requirements : List Requirement) :
    Ensures (Idle options) (consistent options requirements : Analysis (Observed σ) Bool)
      (fun _ => Idle options) (fun e p => Blames p e) := by
  rw [consistent_eq]
  refine Ensures.bind (ensures_checkDeadline_timely (fun _ looks idle => ⟨idle.1, idle.2.later looks⟩)
    fun _ idle => idle.2) fun _ => ?_
  refine Ensures.bind (.ofExcept (fun _ _ _ => id) fun _ refused _ => blames_of_encodeAll refused)
    fun encoding => .get_bind fun p idle => ?_
  obtain ⟨⟨name, untroubled⟩, timely⟩ := idle
  have reset : Ensures (· = p) (ask (Oracle.backend p.oracle) Oracle.reset)
      (fun _ => Serving options (Oracle.backend p.oracle)) (fun e p => Blames p e) := by
    rintro _ rfl
    refine (ends_ask untroubled.reset).imp ?_
    rintro _ _ ⟨s, after, rfl⟩
    exact ⟨after, timely⟩
  refine reset.bind fun _ => ?_
  exact (ensures_limitCheck_serving _).bind fun _ => ensures_query _ encoding

/-- A failure of the oracle ends an analysis that is in time. Whatever the oracle is, the first call that
fails and the first check that is not decided are the last call, and the analysis ends with the text of
that failure and the name of the backend. An analysis with a result has had a verdict from every check. -/
theorem oracle_failure_aborts (options : Options) (sources : List String) (s : σ) (clock : Clock)
    (inTime : clock.InTime options.timeout) :
    (∀ result p, (check options sources).run (.observing s clock) = (result, p) →
      (check options sources).run { oracle := s, clock } = (result, p.forget) ∧ StopsAtFailure result p) ∧
    ∀ result p, (explain options sources).run (.observing s clock) = (result, p) →
      (explain options sources).run { oracle := s, clock } = (result, p.forget) ∧ StopsAtFailure result p := by
  have idle : Idle options (.observing s clock) := ⟨⟨none, nofun, rfl, rfl, rfl⟩, inTime.timely⟩
  have prepared : Ensures (Idle options) (prepare options sources : Analysis (Observed σ) _)
      (fun _ p => True ∧ Idle options p) (fun e p => Blames p e) :=
    ensures_prepare (fun _ _ _ idle => idle.1.choose_spec.clean) (fun _ _ _ idle => idle.1.choose_spec.clean)
      fun _ _ => id
  constructor
  · intro result p run
    have ends := MissionTime.ensures_check prepared ensures_setDeadline_idle (fun requirements _ =>
      ensures_consistent options requirements) idle
    rw [run] at ends
    exact ⟨check_observed options sources s clock run, stopsAtFailure_of_ends ends⟩
  · intro result p run
    have ends := ensures_explain prepared ensures_setDeadline_idle
      (fun _ _ part _ => ensures_consistent options part) idle
    rw [run] at ends
    exact ⟨explain_observed options sources s clock run, stopsAtFailure_of_ends ends⟩

def failing : Recorder :=
  { verdicts := some [.unsat], failure := some ⟨1, .assertTerm, "pipe closed"⟩ }

theorem oracle_failure_aborts_second_query :
    let options : Options := { timeout := 3 }
    let sources := ["a", "b"]
    let clock := Clock.still 7
    clock.InTime options.timeout ∧ ∃ before x p failure,
      (explain options sources).run (.observing failing clock) = (.error (.oracle "recorder" failure), p) ∧
      (explain options sources).run { oracle := failing, clock } =
        (.error (.oracle "recorder" failure), p.forget) ∧
      p.oracle.exchanges = before ++ [x] ∧ x.complaint? = some "pipe closed" ∧
      failure.message = "pipe closed" ∧ p.queries = 1 := by
  intro options sources clock
  have inTime : clock.InTime options.timeout := fun _ _ => Nat.lt_add_of_pos_right (by decide)
  have evaluated : ((explain options sources).run (.observing failing clock)).2.queries = 1 ∧
      backendInUse ((explain options sources).run (.observing failing clock)).2.oracle.exchanges =
        some "recorder" ∧
      ((explain options sources).run (.observing failing clock)).2.oracle.exchanges.map Exchange.complaint? =
        List.replicate 10 none ++ [some "pipe closed"] := by decide +kernel
  rcases run : (explain options sources).run (.observing failing clock) with ⟨result, p⟩
  rw [run] at evaluated
  obtain ⟨queries, named, complaints⟩ := evaluated
  obtain ⟨before, last, split, _, final⟩ := List.map_eq_append_iff.1 complaints
  obtain ⟨x, rfl, complaint⟩ := List.map_eq_singleton_iff.1 final
  obtain ⟨same, stops⟩ := (oracle_failure_aborts options sources failing clock inTime).2 result p run
  obtain ⟨-, backend, failure, rfl, inUse, text⟩ := stops.aborts before x [] _ split complaint
  obtain rfl : backend = "recorder" := Option.some.inj (inUse.symm.trans named)
  exact ⟨inTime, before, x, p, failure, rfl, same, split, complaint, text, queries⟩

end Analysis
end MissionTime
