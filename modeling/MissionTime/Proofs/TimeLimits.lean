import MissionTime.Proofs.InputErrors

/-! Time limits. What an analysis tells its oracle are limits of at least a second and of at most the time
for the whole analysis, and it fails for its deadline only if the clock has shown that time to be over. -/
namespace MissionTime
open Runs

namespace Observed

variable {σ α : Type} {timeout : Nat}

def LimitsWithin (timeout : Nat) (o : Observed σ) : Prop :=
  ∀ seconds outcome, .setTimeout seconds outcome ∈ o.exchanges → 1 ≤ seconds ∧ seconds ≤ timeout

theorem ensures_observe {exchange : σ → Except OracleError α → Exchange}
    (fine : ∀ s result seconds outcome, exchange s result = .setTimeout seconds outcome →
      1 ≤ seconds ∧ seconds ≤ timeout) (call : Call σ α) :
    Ensures (LimitsWithin timeout) (observe exchange call) (fun _ => LimitsWithin timeout)
      fun _ => LimitsWithin timeout := by
  intro o within
  have after (result : Except OracleError α) (s : σ) :
      LimitsWithin timeout ⟨s, o.exchanges ++ [exchange o.oracle result]⟩ := by
    intro seconds outcome mem
    rcases List.mem_append.1 mem with old | new
    · exact within seconds outcome old
    · exact fine _ _ seconds outcome (List.mem_singleton.1 new).symm
  rw [observe_run]
  rcases call.run o.oracle with ⟨e | a, s⟩
  · exact after (.error e) s
  · exact after (.ok a) s

variable [Oracle σ]

theorem ensures_load_within (encoding : Encoding) :
    Ensures (LimitsWithin timeout) (encoding.load : Call (Observed σ) Unit) (fun _ => LimitsWithin timeout)
      fun _ => LimitsWithin timeout := by
  refine (Ensures.forM (fun name => ?_) encoding.declarations).bind fun _ =>
    Ensures.forM (fun term => ?_) encoding.assertions.toList
  · exact ensures_observe nofun (Oracle.declare name)
  · exact ensures_observe nofun (Oracle.assertTerm term)

end Observed

namespace Analysis
open Observed

variable {σ α : Type} {options : Options} {clock : Clock}

/-- An analysis that keeps to its time limit: the deadline, if there is one by now, was set at a look at
`clock`. -/
structure KeepsLimit (options : Options) (clock : Clock) (p : Progress (Observed σ)) : Prop where
  reading : p.clock.reading = clock.reading
  begun : ∃ n ≤ p.clock.looks, Clock.SetAt options.timeout (clock.reading n) p.deadline
  within : p.oracle.LimitsWithin options.timeout

def TellsLimit (options : Options) (clock : Clock) (e : AnalysisError) (p : Progress (Observed σ)) : Prop :=
  p.oracle.LimitsWithin options.timeout ∧ ∀ seconds, e = .deadline seconds →
    seconds = options.timeout ∧ ∃ m n, m ≤ n ∧ n < p.clock.looks ∧
      clock.reading m + options.timeout * Clock.second ≤ clock.reading n

theorem KeepsLimit.later {p : Progress (Observed σ)} (h : KeepsLimit options clock p) (looks : Nat) :
    KeepsLimit options clock { p with clock := p.clock.later looks } := by
  obtain ⟨n, le, set⟩ := h.begun
  exact ⟨h.reading, ⟨n, Nat.le_trans le (Nat.le_add_right ..), set⟩, h.within⟩

theorem ensures_ask_within {backend : String} {call : Call (Observed σ) α}
    (kept : Ensures (LimitsWithin options.timeout) call (fun _ => LimitsWithin options.timeout)
      fun _ => LimitsWithin options.timeout) :
    Ensures (KeepsLimit options clock) (ask backend call) (fun _ => KeepsLimit options clock)
      (TellsLimit options clock) := by
  intro p keeps
  have ends := kept keeps.within
  rw [ask_run_eq]
  rcases run : call.run p.oracle with ⟨e | a, o⟩ <;> rw [run] at ends
  · exact ⟨ends, nofun⟩
  · exact ⟨keeps.reading, keeps.begun, ends⟩

theorem ensures_checkDeadline_tells :
    Ensures (KeepsLimit options clock) (checkDeadline options : Analysis (Observed σ) Unit)
      (fun _ => KeepsLimit options clock) (TellsLimit options clock) := by
  refine ensures_checkDeadline (fun _ looks keeps => keeps.later looks) fun p d keeps set late => ?_
  obtain ⟨n, le, at_look⟩ := keeps.begun
  obtain ⟨-, rfl⟩ := at_look d set
  refine ⟨keeps.within, fun seconds told => ?_⟩
  cases told
  exact ⟨rfl, n, p.clock.looks, le, Nat.lt_succ_self _, keeps.reading ▸ late⟩

theorem ensures_setDeadline_keeps :
    Ensures (KeepsLimit options clock) (setDeadline options : Analysis (Observed σ) Unit)
      (fun _ => KeepsLimit options clock) (TellsLimit options clock) := by
  refine ensures_setDeadline fun p deadline looks keeps set => ?_
  exact ⟨keeps.reading, ⟨p.clock.looks, Nat.le_add_right .., keeps.reading ▸ set⟩, keeps.within⟩

variable [Oracle σ]

theorem ensures_limitCheck_within (backend : String) :
    Ensures (KeepsLimit options clock) (limitCheck backend : Analysis (Observed σ) Unit)
      (fun _ => KeepsLimit options clock) (TellsLimit options clock) := by
  refine ensures_limitCheck fun p d keeps set => ?_
  obtain ⟨n, le, at_look⟩ := keeps.begun
  obtain ⟨limited, rfl⟩ := at_look d set
  -- The clock does not go back, so no more is left than when the deadline was set.
  have started : clock.reading n ≤ p.clock.reading p.clock.looks := keeps.reading ▸ clock.monotone le
  have short := Clock.secondsUntil_le started limited
  refine ensures_ask_within (ensures_observe ?_ _) (keeps.later 1)
  rintro _ _ seconds _ ⟨⟩
  exact ⟨Nat.le_max_right .., Nat.max_le.2 ⟨short, limited⟩⟩

theorem outlasts_keepsLimit :
    Outlasts options (KeepsLimit options clock : Progress (Observed σ) → Prop)
      (TellsLimit options clock) where
  checkDeadline := ensures_checkDeadline_tells
  reset _ := ensures_ask_within (ensures_observe nofun _)
  limit backend := ensures_limitCheck_within backend
  load _ encoding := ensures_ask_within (ensures_load_within encoding)
  check _ := ensures_ask_within (ensures_observe nofun _)
  counted _ keeps := ⟨keeps.reading, keeps.begun, keeps.within⟩
  undecided _ _ _ keeps := ⟨keeps.within, nofun⟩

theorem ensures_consistent_keeps (requirements : List Requirement) :
    Ensures (KeepsLimit options clock) (consistent options requirements : Analysis (Observed σ) Bool)
      (fun _ => KeepsLimit options clock) (TellsLimit options clock) := by
  refine outlasts_keepsLimit.consistent fun e refused p keeps => ⟨keeps.within, ?_⟩
  obtain ⟨index, error, rfl⟩ := Requirement.unencodable_of_encodeAll refused
  exact nofun

/-- Whatever the clock shows and the oracle answers, every limit that the oracle is given is at least a second
and at most the time for the whole analysis, and an analysis that fails for its deadline has seen that time
pass between two looks at the clock. -/
theorem limits_within_timeout (options : Options) (sources : List String) (s : σ) (clock : Clock) :
    Ends (fun _ p => p.oracle.LimitsWithin options.timeout) (TellsLimit options clock)
      ((check options sources).run (.observing s clock)) ∧
    Ends (fun _ p => p.oracle.LimitsWithin options.timeout) (TellsLimit options clock)
      ((explain options sources).run (.observing s clock)) := by
  have start : KeepsLimit options clock (.observing s clock) :=
    ⟨rfl, ⟨clock.looks, Nat.le_refl _, nofun⟩, nofun⟩
  have prepared : Ensures (KeepsLimit options clock) (prepare options sources : Analysis (Observed σ) _)
      (fun _ p => True ∧ KeepsLimit options clock p) (TellsLimit options clock) :=
    ensures_prepare (fun _ _ _ keeps => ⟨keeps.within, nofun⟩) (fun _ _ _ keeps => ⟨keeps.within, nofun⟩)
      fun _ _ keeps => ⟨keeps.reading, keeps.begun, keeps.within⟩
  constructor
  · exact (ensures_check prepared ensures_setDeadline_keeps
      (fun requirements _ => ensures_consistent_keeps requirements) start).imp fun _ _ keeps => keeps.within
  · exact (ensures_explain prepared ensures_setDeadline_keeps
      (fun _ _ part _ => ensures_consistent_keeps part) start).imp fun _ _ keeps => keeps.within

-- A second passes from look to look, so the three seconds are over when the second query begins.
example :
    let clock : Clock := ⟨fun n => n * Clock.second, fun n => Nat.mul_le_mul_right _ (Nat.le_succ n), 0⟩
    let oracle : Recorder := { verdicts := some [.unsat] }
    let run := (explain { timeout := 3 } ["a", "!a"]).run { oracle, clock }
    (run.1.map fun _ => ()).mapError AnalysisError.message =
        .error "Deadline of 3s exceeded before the analysis completed" ∧
      run.2.queries = 1 ∧ run.2.oracle.queries.toList.map QueryRecord.timeout = [some 1] := by
  decide +kernel

end Analysis
end MissionTime
