import MissionTime.ClauseSet.Learning
import MissionTime.ClauseSet.Search

/-! Deciding whether a clause set is satisfiable. The search that learns gives nearly every answer, and a
search of all assignments would give the others; both are right, so the decision is exact. -/
namespace MissionTime.ClauseSet

def satisfiable (clauses : ClauseSet) : Bool :=
  match clauses.answer? with
  | some answer => answer.toBool
  | none => clauses.exhaust

theorem Answer.toBool_iff {clauses : ClauseSet} (answer : Answer clauses) :
    answer.toBool = true ↔ clauses.Satisfiable := by
  cases answer with
  | satisfied value holds => exact ⟨fun _ => ⟨value, holds⟩, fun _ => rfl⟩
  | refuted fails =>
    refine ⟨fun h => by simp [toBool] at h, ?_⟩
    rintro ⟨value, holds⟩
    simp [fails] at holds

theorem satisfiable_iff (clauses : ClauseSet) :
    clauses.satisfiable = true ↔ clauses.Satisfiable := by
  unfold satisfiable
  split
  · exact Answer.toBool_iff _
  · exact exhaust_iff clauses

end MissionTime.ClauseSet
