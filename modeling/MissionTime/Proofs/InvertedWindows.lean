import MissionTime.Proofs.EncodingRuns

/-! Inverted windows. An unrolling succeeds exactly if all that it comes to is in order. It comes to every
part of a formula except for the left operand of an `until` up to step 0, and an inverted window in such a
place is overlooked. -/
namespace MissionTime

namespace Encoding

theorem push_eq_ok_iff (limit : Nat) (f : Formula) (encoding : Encoding) :
    (encoding.push limit f).1 = .ok () ↔ f.horizon ≤ limit ∧ f.Unrolls 0 := by
  rw [← f.firstFault_visits_iff (Nat.zero_le _)]
  rcases push_cases limit f encoding with ⟨far, pushed⟩ | ⟨near, ⟨term, yields, pushed⟩ | ⟨e, stopped, pushed⟩⟩
  · simp [pushed, Nat.not_le.2 far]
  · simp [pushed, near, (f.exists_yields_iff 0).1 ⟨term, yields⟩]
  · simp [pushed, stopped]

/-- A formula is refused, and nothing is asserted, exactly if its unrolling comes to an inverted window or
to a step too late to count, or if its horizon is beyond the limit. So an inverted window is overlooked
only within the left operand of an `until` up to step 0. -/
theorem push_refuses_iff (limit : Nat) (f : Formula) (encoding : Encoding) :
    ((∃ e, (encoding.push limit f).1 = .error e) ∧
      (encoding.push limit f).2.assertions = encoding.assertions) ↔
    ¬ f.VisitedWindows Interval.WellFormed ∨ limit < f.horizon ∨ maxTime < f.visitedReach := by
  have accepted : (encoding.push limit f).1 = .ok () ↔
      f.horizon ≤ limit ∧ f.VisitedWindows Interval.WellFormed ∧ f.visitedReach ≤ maxTime := by
    rw [push_eq_ok_iff]
    refine and_congr_right fun _ => ⟨fun h => ⟨h.windows, ?_⟩, fun h => ⟨h.1, ?_⟩⟩
    · simpa using h.early
    · simpa using h.2
  constructor
  · rintro ⟨⟨e, failed⟩, -⟩
    by_contra orderly
    simp only [not_or, not_not, not_lt] at orderly
    rw [accepted.2 ⟨orderly.2.1, orderly.1, orderly.2.2⟩] at failed
    cases failed
  · intro disorder
    cases result : (encoding.push limit f).1 with
    | error e => exact ⟨⟨e, rfl⟩, assertions_push_error result⟩
    | ok =>
      obtain ⟨near, windows, early⟩ := accepted.1 result
      rcases disorder with inverted | far | late
      · exact absurd windows inverted
      · omega
      · omega

/-- The window of the left operand is inverted, and the formula is asserted all the same. -/
theorem push_overlooks_inverted_window :
    let f : Formula := .until ⟨0, 0⟩ (.eventually ⟨1, 0⟩ (.atom "a")) (.atom "b")
    ¬ f.AllWindows Interval.WellFormed ∧ (({} : Encoding).push defaultHorizon f).1 = .ok () ∧
      (({} : Encoding).push defaultHorizon f).2.assertions.size = 1 := by
  intro f
  refine ⟨?_, by decide +kernel⟩
  simp [f, Formula.AllWindows, Interval.WellFormed]

end Encoding
end MissionTime
