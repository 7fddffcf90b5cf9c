import MissionTime.Analysis

/-! Minimal conflicts. The search divides the candidates into halves, finds what the second half
contributes to a conflict with the first, and then what the first half contributes to a conflict
with that. -/
namespace MissionTime

/-- The candidates that conflict minimally over a background. `grown` tells that the background has
been extended since the last query; if it is inconsistent by itself, no candidate is needed. -/
def minimalConflict {α : Type} {m : Type → Type} [Monad m] (consistent : List α → m Bool)
    (grown : Bool) (background candidates : List α) : m (List α) := do
  let settled ← if grown then not <$> consistent background else pure false
  if settled then return []
  else if 1 < candidates.length then
    let first := candidates.take (candidates.length / 2)
    let second := candidates.drop (candidates.length / 2)
    let fromSecond ← minimalConflict consistent (!first.isEmpty) (background ++ first) second
    let fromFirst ← minimalConflict consistent (!fromSecond.isEmpty) (background ++ fromSecond) first
    return fromFirst ++ fromSecond
  else return candidates
termination_by candidates.length
decreasing_by all_goals simp; omega

inductive Explanation
  | emptyInput
  | noConflict
  | core (members : List Requirement)

namespace Analysis

/-- Finds formulas of the batch that do not hold together, while any proper part of them does. -/
def explain {σ : Type} [Oracle σ] (options : Options) (sources : List String) :
    Analysis σ Explanation := do
  if sources.isEmpty then return .emptyInput
  let requirements ← prepare options sources
  setDeadline options
  if ← consistent options requirements then return .noConflict
  let members ← minimalConflict (consistent options) false [] requirements
  return .core members

end Analysis
end MissionTime
