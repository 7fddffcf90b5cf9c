import MissionTime.Encoding
import MissionTime.Proofs.ParsedWindows
import MissionTime.Proofs.Unrolling

/-! How far formulas look ahead. A walk over pending formulas gathers what a recursion over the tree does, so
the horizon is the reach of the formula, cut off at the last time step; and an unrolling succeeds exactly if
all that it comes to is in order. -/
namespace MissionTime
open Runs

namespace Formula

variable {α β : Type}

/-- A walk computes a measure from each pending formula in turn if the measure of a formula comes from a visit
of its root and from its operands, in the order in which they are taken up. -/
theorem walk_eq_foldl {order : PushOrder} {pass : Formula → α → α} {visit : β → Formula → α → β}
    (measure : β → Formula → α → β) (valid : α → Prop) (passed : ∀ f a, valid a → valid (pass f a))
    (step : ∀ result f a, valid a → measure result f a =
      (order.stacked f.parts).foldl (fun result g => measure result g (pass f a)) (visit result f a))
    {work : List (Formula × α)} (valued : ∀ entry ∈ work, valid entry.2) (result : β) :
    walk order pass visit work result =
      work.foldl (fun result entry => measure result entry.1 entry.2) result := by
  fun_induction walk order pass visit work result with
  | case1 result => rfl
  | case2 f a work result ih =>
    obtain ⟨first, rest⟩ := List.forall_mem_cons.1 valued
    have below : ∀ entry ∈ (order.stacked f.parts).map (·, pass f a), valid entry.2 :=
      List.forall_mem_map.2 fun _ _ => passed f a first
    rw [ih (List.forall_mem_append.2 ⟨below, rest⟩), List.foldl_append, List.foldl_map, List.foldl_cons,
      step result f a first]

def reach : Formula → Nat
  | .atom _ => 0
  | .not f => f.reach
  | .and f g | .or f g => max f.reach g.reach
  | .eventually w f | .always w f => w.high + f.reach
  | .until w f g | .release w f g => w.high + max f.reach g.reach

theorem advance_le (f : Formula) (offset : Nat) (le : offset ≤ maxTime) : f.advance offset ≤ maxTime := by
  cases f <;> simp only [advance] <;> omega

theorem cut_advance (offset high reach : Nat) :
    min maxTime (min maxTime (offset + high) + reach) = min maxTime (offset + (high + reach)) := by
  omega

theorem max_cut (furthest offset left right : Nat) :
    max (max furthest (min maxTime (offset + right))) (min maxTime (offset + left)) =
      max furthest (min maxTime (offset + max left right)) := by
  rw [Nat.max_assoc, ← Nat.min_max_distrib_left, Nat.add_max_add_left, Nat.max_comm right]

theorem horizon_eq (f : Formula) : f.horizon = min maxTime f.reach := by
  rw [horizon, walk_eq_foldl (fun furthest f offset => max furthest (min maxTime (offset + f.reach)))
    (· ≤ maxTime) advance_le]
  · simp
  · intro furthest f offset le
    -- To cut off at each step on the way down is to cut off once at the end.
    symm
    cases f with
    | atom name => simp [PushOrder.stacked, parts, reach, keepOffset, le]
    | not f => rfl
    | and f g | or f g => exact max_cut ..
    | eventually w f | always w f => exact congrArg (max furthest) (cut_advance ..)
    | «until» w f g | release w f g =>
      exact (max_cut ..).trans (congrArg (max furthest) (cut_advance ..))
  · simp

def Fits (time : Nat) (f : Formula) : Prop :=
  f.AllWindows Interval.WellFormed ∧ time + f.reach ≤ maxTime

/-- Every window that an unrolling comes to has `P`. The left operand of an `until` up to step 0 has no
step to hold at, so that the unrolling passes it over. -/
def VisitedWindows (P : Interval → Prop) : Formula → Prop
  | .atom _ => True
  | .not f => f.VisitedWindows P
  | .and f g | .or f g => f.VisitedWindows P ∧ g.VisitedWindows P
  | .eventually w f | .always w f => P w ∧ f.VisitedWindows P
  | .until w f g => P w ∧ (0 < w.high → f.VisitedWindows P) ∧ g.VisitedWindows P
  | .release w f g => P w ∧ f.VisitedWindows P ∧ g.VisitedWindows P

def visitedReach : Formula → Nat
  | .atom _ => 0
  | .not f => f.visitedReach
  | .and f g | .or f g => max f.visitedReach g.visitedReach
  | .eventually w f | .always w f => w.high + f.visitedReach
  | .until w f g =>
    max (if 0 < w.high then w.high - 1 + f.visitedReach else 0) (w.high + g.visitedReach)
  | .release w f g => w.high + max f.visitedReach g.visitedReach

theorem AllWindows.visited {P : Interval → Prop} {f : Formula} (h : f.AllWindows P) :
    f.VisitedWindows P := by
  induction f with
  | atom name => trivial
  | not f ih => exact ih h
  | and f g ihf ihg | or f g ihf ihg => exact ⟨ihf h.1, ihg h.2⟩
  | eventually w f ih | always w f ih => exact ⟨h.1, ih h.2⟩
  | «until» w f g ihf ihg => exact ⟨h.1, fun _ => ihf h.2.1, ihg h.2.2⟩
  | release w f g ihf ihg => exact ⟨h.1, ihf h.2.1, ihg h.2.2⟩

theorem visitedReach_le_reach (f : Formula) : f.visitedReach ≤ f.reach := by
  induction f with
  | «until» w f g ihf ihg =>
    simp only [visitedReach, reach]
    split_ifs <;> omega
  | _ =>
    simp only [visitedReach, reach]
    omega

structure Unrolls (time : Nat) (f : Formula) : Prop where
  windows : f.VisitedWindows Interval.WellFormed
  early : time + f.visitedReach ≤ maxTime

theorem Fits.unrolls {time : Nat} {f : Formula} (h : f.Fits time) : f.Unrolls time :=
  ⟨h.1.visited, Nat.le_trans (Nat.add_le_add_left f.visitedReach_le_reach time) h.2⟩

theorem Unrolls.start_le {time : Nat} {f : Formula} (h : f.Unrolls time) : time ≤ maxTime :=
  Nat.le_trans (Nat.le_add_right ..) h.early

theorem firstFault_later_iff {f : Formula}
    (unrolls : ∀ ⦃time⦄, time ≤ maxTime → (Visit.firstFault (f.visits time) = none ↔ f.Unrolls time))
    {time offset : Nat} :
    Visit.firstFault (Visit.later time offset f.visits) = none ↔ f.Unrolls (time + offset) := by
  rw [Visit.firstFault_later]
  constructor
  · rintro ⟨early, clear⟩
    exact (unrolls early).1 clear
  · intro h
    exact ⟨h.start_le, (unrolls h.start_le).2 h⟩

theorem firstFault_visits_iff (f : Formula) {time : Nat} (start : time ≤ maxTime) :
    Visit.firstFault (f.visits time) = none ↔ f.Unrolls time := by
  induction f generalizing time with
  | atom name => exact ⟨fun _ => ⟨trivial, start⟩, fun _ => rfl⟩
  | not f ih => exact (ih start).trans ⟨fun h => ⟨h.windows, h.early⟩, fun h => ⟨h.windows, h.early⟩⟩
  | and f g ihf ihg | or f g ihf ihg =>
    rw [visits, Visit.firstFault_append, Option.or_eq_none_iff, ihf start, ihg start]
    constructor
    · rintro ⟨⟨left, earlyf⟩, right, earlyg⟩
      exact ⟨⟨left, right⟩, by rw [visitedReach]; omega⟩
    · rintro ⟨⟨left, right⟩, early⟩
      rw [visitedReach] at early
      exact ⟨⟨left, by omega⟩, right, by omega⟩
  | eventually w f ih | always w f ih =>
    simp only [visits, Visit.firstFault_within, firstFault_later_iff @ih]
    constructor
    · rintro ⟨ordered, each⟩
      -- The last step of a window is the one that tells, since it comes furthest.
      have last := each w.high ordered Nat.le.refl
      exact ⟨⟨ordered, last.windows⟩, by rw [visitedReach, ← Nat.add_assoc]; exact last.early⟩
    · rintro ⟨⟨ordered, inner⟩, early⟩
      rw [visitedReach] at early
      exact ⟨ordered, fun k _ le => ⟨inner, by omega⟩⟩
  | «until» w f g ihf ihg =>
    simp only [visits, Visit.firstFault_within, Visit.firstFault_append, Option.or_eq_none_iff,
      Visit.firstFault_before, firstFault_later_iff @ihf, firstFault_later_iff @ihg]
    constructor
    · rintro ⟨ordered, each⟩
      obtain ⟨left, right⟩ := each w.high ordered Nat.le.refl
      have late := right.early
      -- The left operand is last looked at one step before the window ends, if there is such a step.
      refine ⟨⟨ordered, fun some => (left (w.high - 1) (by omega)).windows, right.windows⟩, ?_⟩
      rw [visitedReach]
      split_ifs with some
      · have early := (left (w.high - 1) (by omega)).early
        omega
      · omega
    · rintro ⟨⟨ordered, innerf, innerg⟩, early⟩
      rw [visitedReach] at early
      refine ⟨ordered, fun k _ le => ⟨fun j lt => ?_, innerg, by omega⟩⟩
      have some : 0 < w.high := by omega
      rw [if_pos some] at early
      exact ⟨innerf some, by omega⟩
  | release w f g ihf ihg =>
    simp only [visits, Visit.firstFault_within, Visit.firstFault_append, Option.or_eq_none_iff,
      Visit.firstFault_before, firstFault_later_iff @ihf, firstFault_later_iff @ihg]
    constructor
    · rintro ⟨⟨ordered, each⟩, throughout⟩
      have left := (each w.high ordered Nat.le.refl).2
      have right := throughout w.high (Nat.lt_succ_self _)
      have := left.early
      have := right.early
      exact ⟨⟨ordered, left.windows, right.windows⟩, by rw [visitedReach]; omega⟩
    · rintro ⟨⟨ordered, innerf, innerg⟩, early⟩
      rw [visitedReach] at early
      exact ⟨⟨ordered, fun k _ le => ⟨fun j lt => ⟨innerg, by omega⟩, innerf, by omega⟩⟩,
        fun j lt => ⟨innerg, by omega⟩⟩

theorem Fits.exists_yields {time : Nat} {f : Formula} (fits : f.Fits time) :
    ∃ term, Yields (f.unroll time) term :=
  (f.exists_yields_iff time).2 ((f.firstFault_visits_iff fits.unrolls.start_le).2 fits.unrolls)

theorem fits_of_parse {limit : Nat} {source : String} {f : Formula} (run : parse limit source = .ok f)
    (early : f.horizon < maxTime) : f.Fits 0 := by
  refine ⟨allWindows_of_parse (fun _ _ _ => wellFormed_of_windowOf) run, ?_⟩
  rw [horizon_eq] at early
  omega

end Formula
end MissionTime
