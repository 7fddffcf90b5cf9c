import MissionTime.Proofs.Insertion
import MissionTime.Unrolling

/-! What an unrolling comes to. From left to right these are atoms at their steps, which it registers, and
faults, the first of which stops it. The tree alone tells them, without a look at the table or at the terms
that are built. -/
namespace MissionTime

inductive Visit
  | atom (atom : TimedAtom)
  | fault (e : EncodingError)

namespace Visit

def reached : List Visit → List TimedAtom
  | .atom met :: visits => met :: reached visits
  | [] | .fault _ :: _ => []

def firstFault : List Visit → Option EncodingError
  | [] => none
  | .atom _ :: visits => firstFault visits
  | .fault e :: _ => some e

variable {visits visits' : List Visit}

theorem firstFault_append (visits visits' : List Visit) :
    firstFault (visits ++ visits') = (firstFault visits).or (firstFault visits') := by
  induction visits with
  | nil => rfl
  | cons visit visits ih =>
    cases visit with
    | atom met => exact ih
    | fault e => rfl

theorem reached_append (clear : firstFault visits = none) (visits' : List Visit) :
    reached (visits ++ visits') = reached visits ++ reached visits' := by
  induction visits with
  | nil => rfl
  | cons visit visits ih =>
    cases visit with
    | atom met => exact congrArg (met :: ·) (ih clear)
    | fault e => cases clear

theorem reached_append_of_fault {e : EncodingError} (stopped : firstFault visits = some e)
    (visits' : List Visit) : reached (visits ++ visits') = reached visits := by
  induction visits with
  | nil => cases stopped
  | cons visit visits ih =>
    cases visit with
    | atom met => exact congrArg (met :: ·) (ih stopped)
    | fault e => rfl

theorem firstFault_flatMap {α : Type} {as : List α} {visitsOf : α → List Visit} :
    firstFault (as.flatMap visitsOf) = none ↔ ∀ a ∈ as, firstFault (visitsOf a) = none := by
  induction as with
  | nil => simp [firstFault]
  | cons a as ih => rw [List.flatMap_cons, firstFault_append, Option.or_eq_none_iff, ih, List.forall_mem_cons]

theorem mem_of_mem_reached {atom : TimedAtom} (mem : atom ∈ reached visits) : .atom atom ∈ visits := by
  induction visits with
  | nil => cases mem
  | cons visit visits ih =>
    cases visit with
    | atom met =>
      rcases List.mem_cons.1 mem with rfl | mem
      · exact List.mem_cons_self
      · exact List.mem_cons_of_mem _ (ih mem)
    | fault e => cases mem

def later (time offset : Nat) (visits : Nat → List Visit) : List Visit :=
  if time + offset ≤ maxTime then visits (time + offset) else [.fault (.timeOverflow time offset)]

def within (window : Interval) (visits : Nat → List Visit) : List Visit :=
  if window.WellFormed then (List.range' window.low (window.high + 1 - window.low)).flatMap visits
  else [.fault (.invertedWindow window)]

def before (time count : Nat) (visits : Nat → List Visit) : List Visit :=
  (List.range' 0 count).flatMap fun k => later time k visits

end Visit

theorem Interval.mem_steps {w : Interval} (ordered : w.WellFormed) {k : Nat} :
    k ∈ List.range' w.low (w.high + 1 - w.low) ↔ w.low ≤ k ∧ k ≤ w.high := by
  have : w.low ≤ w.high := ordered
  rw [List.mem_range'_1]
  omega

namespace Visit

section Parts
variable {visitsOf : Nat → List Visit} {time offset count : Nat} {w : Interval} {atom : TimedAtom}

theorem firstFault_later : firstFault (later time offset visitsOf) = none ↔
    time + offset ≤ maxTime ∧ firstFault (visitsOf (time + offset)) = none := by
  unfold later
  split_ifs with early <;> simp [early, firstFault]

theorem firstFault_within : firstFault (within w visitsOf) = none ↔
    w.WellFormed ∧ ∀ k, w.low ≤ k → k ≤ w.high → firstFault (visitsOf k) = none := by
  unfold within
  split_ifs with ordered
  · simp only [firstFault_flatMap, Interval.mem_steps ordered, ordered, true_and, and_imp]
  · simp [ordered, firstFault]

theorem firstFault_before : firstFault (before time count visitsOf) = none ↔
    ∀ k < count, firstFault (later time k visitsOf) = none := by
  simp [before, firstFault_flatMap, List.mem_range'_1]

theorem mem_later (mem : .atom atom ∈ later time offset visitsOf) : .atom atom ∈ visitsOf (time + offset) := by
  unfold later at mem
  split_ifs at mem
  · exact mem
  · simp at mem

theorem mem_within (mem : .atom atom ∈ within w visitsOf) : ∃ k ≤ w.high, .atom atom ∈ visitsOf k := by
  unfold within at mem
  split_ifs at mem with ordered
  · obtain ⟨k, step, mem⟩ := List.mem_flatMap.1 mem
    exact ⟨k, ((Interval.mem_steps ordered).1 step).2, mem⟩
  · simp at mem

theorem mem_before (mem : .atom atom ∈ before time count visitsOf) :
    ∃ k < count, .atom atom ∈ visitsOf (time + k) := by
  obtain ⟨k, step, mem⟩ := List.mem_flatMap.1 mem
  exact ⟨k, by simpa [List.mem_range'_1] using step, mem_later mem⟩

end Parts
end Visit

namespace Formula

/-- What the unrolling of a formula comes to, from left to right. -/
def visits : Formula → Nat → List Visit
  | .atom name, time => [.atom ⟨name, time⟩]
  | .not f, time => f.visits time
  | .and f g, time | .or f g, time => f.visits time ++ g.visits time
  | .eventually w f, time | .always w f, time => Visit.within w fun k => Visit.later time k f.visits
  | .until w f g, time =>
    Visit.within w fun k => Visit.before time k f.visits ++ Visit.later time k g.visits
  | .release w f g, time =>
    (Visit.within w fun k => Visit.before time (k + 1) g.visits ++ Visit.later time k f.visits) ++
      -- An inverted window stands as a fault in front of these, so that no walk comes to them.
      Visit.before time (w.high + 1) g.visits

theorem visits_join (c : Connective) (f g : Formula) (time : Nat) :
    (c.join f g).visits time = f.visits time ++ g.visits time := by
  cases c <;> rfl

theorem flatMap_visits_operands (c : Connective) (f : Formula) (time : Nat) :
    (f.operands c).flatMap (·.visits time) = f.visits time := by
  induction f using alongChain c with
  | join f g ih => rw [operands_join, List.flatMap_append, ih, List.flatMap_singleton, visits_join]
  | single f alone => rw [operands_single alone, List.flatMap_singleton]

end Formula
end MissionTime
