import MissionTime.Analysis
import MissionTime.Proofs.Runs
import Mathlib.Order.Monotone.Basic

/-! Clocks and deadlines. A deadline is set once, when the queries of an analysis may begin; it is met by the
clock before each query and after a check that is not decided. An analysis that is in time meets its deadline
nowhere. -/
namespace MissionTime
open Runs

namespace Clock

variable {c : Clock} {timeout : Nat}

def later (c : Clock) (looks : Nat) : Clock := { c with looks := c.looks + looks }

theorem later_later (c : Clock) (looks looks' : Nat) :
    (c.later looks).later looks' = c.later (looks + looks') := by
  simp only [later, Nat.add_assoc]

theorem monotone (c : Clock) : Monotone c.reading := monotone_nat_of_le_succ c.forward

/-- From now on the clock never shows that a limit is used up. -/
def InTime (timeout : Nat) (c : Clock) : Prop :=
  0 < timeout → ∀ n, c.reading n < c.reading c.looks + timeout * second

theorem inTime_zero (c : Clock) : c.InTime 0 := fun limited => absurd limited (Nat.lt_irrefl 0)

theorem InTime.later (h : c.InTime timeout) (looks : Nat) : (c.later looks).InTime timeout := by
  intro limited n
  have kept : c.reading c.looks ≤ c.reading (c.looks + looks) := c.monotone (Nat.le_add_right ..)
  exact Nat.lt_of_lt_of_le (h limited n) (Nat.add_le_add_right kept _)

/-- The deadline is met neither now nor later, nor would one be that is set later. -/
structure Timely (timeout : Nat) (deadline : Option Nat) (c : Clock) : Prop where
  inTime : c.InTime timeout
  early : ∀ d ∈ deadline, ∀ n, c.reading n < d

theorem InTime.timely (h : c.InTime timeout) : c.Timely timeout none := ⟨h, nofun⟩

theorem Timely.later {deadline : Option Nat} (h : c.Timely timeout deadline) (looks : Nat) :
    (c.later looks).Timely timeout deadline :=
  ⟨h.inTime.later looks, h.early⟩

def SetAt (timeout start : Nat) (deadline : Option Nat) : Prop :=
  ∀ d ∈ deadline, 0 < timeout ∧ d = start + timeout * second

theorem SetAt.eq_none {start : Nat} {deadline : Option Nat} (set : SetAt 0 start deadline) :
    deadline = none :=
  Option.eq_none_iff_forall_not_mem.2 fun d mem => Nat.lt_irrefl 0 (set d mem).1

theorem deadlineAfter_run (timeout : Nat) (c : Clock) : ∃ deadline looks,
    (deadlineAfter timeout).run c = (deadline, c.later looks) ∧
      SetAt timeout (c.reading c.looks) deadline := by
  by_cases unlimited : timeout = 0
  · refine ⟨none, 0, ?_, nofun⟩
    rw [deadlineAfter, if_pos unlimited]
    rfl
  · refine ⟨_, 1, by rw [deadlineAfter, if_neg unlimited]; rfl, ?_⟩
    intro d set
    split_ifs at set
    · exact ⟨Nat.pos_of_ne_zero unlimited, (Option.mem_some.1 set).symm⟩
    · cases set

/-- The seconds to a deadline are at most those from the time at which it was set. -/
theorem secondsUntil_le {start now : Nat} (started : start ≤ now) (limited : 0 < timeout) :
    secondsUntil (start + timeout * second) now ≤ timeout := by
  dsimp only [secondsUntil]
  generalize remains : start + timeout * second - now = left
  have le : left ≤ second * timeout := by
    rw [Nat.mul_comm]
    omega
  split_ifs with passed broken
  · exact Nat.zero_le _
  · -- A second that has begun is not the last one of a whole number of them.
    have lt : left < second * timeout := by
      refine Nat.lt_of_le_of_ne le ?_
      rintro rfl
      exact absurd (Nat.mul_mod_right second timeout) (Nat.ne_of_gt broken)
    exact Nat.max_le.2 ⟨Nat.div_lt_of_lt_mul lt, limited⟩
  · exact Nat.max_le.2 ⟨Nat.div_le_of_le_mul le, limited⟩

end Clock

namespace Analysis
open Clock

variable {σ : Type} {options : Options} {p : Progress σ}

theorem setDeadline_eq (options : Options) (p : Progress σ) :
    (setDeadline options).run p = (.ok (), { p with
      deadline := ((deadlineAfter options.timeout).run p.clock).1
      clock := ((deadlineAfter options.timeout).run p.clock).2 }) := rfl

theorem setDeadline_run (options : Options) (p : Progress σ) : ∃ deadline looks,
    (setDeadline options).run p = (.ok (), { p with deadline, clock := p.clock.later looks }) ∧
      SetAt options.timeout (p.clock.reading p.clock.looks) deadline := by
  obtain ⟨deadline, looks, run, set⟩ := deadlineAfter_run options.timeout p.clock
  exact ⟨deadline, looks, by rw [setDeadline_eq, run], set⟩

theorem setDeadline_unlimited (unlimited : options.timeout = 0) (p : Progress σ) :
    (setDeadline options).run p = (.ok (), { p with deadline := none }) := by
  rw [setDeadline_eq, unlimited]
  rfl

theorem setDeadline_timely (h : p.clock.Timely options.timeout p.deadline) : ∃ deadline looks,
    (setDeadline options).run p = (.ok (), { p with deadline, clock := p.clock.later looks }) ∧
      (p.clock.later looks).Timely options.timeout deadline := by
  obtain ⟨deadline, looks, run, set⟩ := setDeadline_run options p
  refine ⟨deadline, looks, run, h.inTime.later looks, fun d mem n => ?_⟩
  obtain ⟨limited, rfl⟩ := set d mem
  exact h.inTime limited n

theorem checkDeadline_cases (options : Options) (p : Progress σ) :
    (∃ looks, (checkDeadline options).run p = (.ok (), { p with clock := p.clock.later looks })) ∨
    ∃ d, p.deadline = some d ∧ d ≤ p.clock.reading p.clock.looks ∧
      (checkDeadline options).run p =
        (.error (.deadline options.timeout), { p with clock := p.clock.later 1 }) := by
  rcases p with ⟨oracle, clock, _ | d, queries, script⟩
  · exact .inl ⟨0, rfl⟩
  · have looked : (consult exceeded).run (⟨oracle, clock, some d, queries, script⟩ : Progress σ) =
        (.ok (decide (d ≤ clock.reading clock.looks)), ⟨oracle, clock.later 1, some d, queries, script⟩) := rfl
    by_cases late : d ≤ clock.reading clock.looks
    · refine .inr ⟨d, rfl, late, ?_⟩
      rw [checkDeadline, run_bind_ok looked, decide_eq_true late]
      rfl
    · refine .inl ⟨1, ?_⟩
      rw [checkDeadline, run_bind_ok looked, decide_eq_false late]
      rfl

theorem checkDeadline_none (unset : p.deadline = none) : (checkDeadline options).run p = (.ok (), p) := by
  rcases p with ⟨oracle, clock, _ | d, queries, script⟩
  · rfl
  · cases unset

theorem checkDeadline_timely (h : p.clock.Timely options.timeout p.deadline) :
    ∃ looks, (checkDeadline options).run p = (.ok (), { p with clock := p.clock.later looks }) := by
  rcases checkDeadline_cases options p with passed | ⟨d, set, late, -⟩
  · exact passed
  · exact absurd late (Nat.not_le.2 (h.early d set _))

variable [Oracle σ] {backend : String}

theorem limitCheck_none (unset : p.deadline = none) : (limitCheck backend).run p = (.ok (), p) := by
  rcases p with ⟨oracle, clock, _ | d, queries, script⟩
  · rfl
  · cases unset

theorem limitCheck_some {d : Nat} (set : p.deadline = some d) :
    (limitCheck backend).run p =
      (ask backend (Oracle.setTimeout (max (secondsUntil d (p.clock.reading p.clock.looks)) 1))).run
        { p with clock := p.clock.later 1 } := by
  rcases p with ⟨oracle, clock, _ | d', queries, script⟩
  · cases set
  · cases set
    rfl

section Ensures
variable {I : Progress σ → Prop} {E : AnalysisError → Progress σ → Prop}

omit [Oracle σ] in
theorem ensures_setDeadline (set : ∀ ⦃p⦄ deadline looks, I p →
      SetAt options.timeout (p.clock.reading p.clock.looks) deadline →
      I { p with deadline, clock := p.clock.later looks }) :
    Ensures I (setDeadline options) (fun _ => I) E := by
  intro p start
  obtain ⟨deadline, looks, run, at_start⟩ := setDeadline_run options p
  rw [run]
  exact set deadline looks start at_start

omit [Oracle σ] in
theorem ensures_checkDeadline (later : ∀ ⦃p⦄ looks, I p → I { p with clock := p.clock.later looks })
    (late : ∀ ⦃p⦄ d, I p → p.deadline = some d → d ≤ p.clock.reading p.clock.looks →
      E (.deadline options.timeout) { p with clock := p.clock.later 1 }) :
    Ensures I (checkDeadline options) (fun _ => I) E := by
  intro p start
  rcases checkDeadline_cases options p with ⟨looks, run⟩ | ⟨d, set, passed, run⟩ <;> rw [run]
  · exact later looks start
  · exact late d start set passed

omit [Oracle σ] in
theorem ensures_checkDeadline_timely
    (later : ∀ ⦃p⦄ looks, I p → I { p with clock := p.clock.later looks })
    (timely : ∀ ⦃p⦄, I p → p.clock.Timely options.timeout p.deadline) :
    Ensures I (checkDeadline options) (fun _ => I) E :=
  ensures_checkDeadline later fun _ d start set late =>
    absurd late (Nat.not_le.2 ((timely start).early d set _))

theorem ensures_limitCheck (limited : ∀ ⦃p⦄ d, I p → p.deadline = some d → Ends (fun _ => I) E
      ((ask backend (Oracle.setTimeout (max (secondsUntil d (p.clock.reading p.clock.looks)) 1))).run
        { p with clock := p.clock.later 1 })) :
    Ensures I (limitCheck backend) (fun _ => I) E := by
  intro p start
  cases deadline : p.deadline with
  | none =>
    rw [limitCheck_none deadline]
    exact start
  | some d =>
    rw [limitCheck_some deadline]
    exact limited d start deadline

end Ensures

end Analysis
end MissionTime
