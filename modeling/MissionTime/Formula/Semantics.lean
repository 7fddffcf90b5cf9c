import MissionTime.Formula

/-! The meaning of formulas on traces. The left operand of `until` has to hold from the present step
on, also before the window opens, and `release` looks at its right operand in the same way. -/
namespace MissionTime

abbrev Trace := String → Nat → Bool

namespace Formula

def Holds (trace : Trace) : Formula → Nat → Prop
  | .atom name, t => trace name t = true
  | .not f, t => ¬ f.Holds trace t
  | .and f g, t => f.Holds trace t ∧ g.Holds trace t
  | .or f g, t => f.Holds trace t ∨ g.Holds trace t
  | .eventually w f, t => ∃ k, w.low ≤ k ∧ k ≤ w.high ∧ f.Holds trace (t + k)
  | .always w f, t => ∀ k, w.low ≤ k → k ≤ w.high → f.Holds trace (t + k)
  | .until w f g, t =>
    ∃ k, w.low ≤ k ∧ k ≤ w.high ∧ g.Holds trace (t + k) ∧ ∀ j, j < k → f.Holds trace (t + j)
  | .release w f g, t =>
    (∃ k, w.low ≤ k ∧ k ≤ w.high ∧ f.Holds trace (t + k) ∧ ∀ j, j ≤ k → g.Holds trace (t + j)) ∨
      ∀ j, j ≤ w.high → g.Holds trace (t + j)

def JointlySatisfiable (formulas : List Formula) : Prop :=
  ∃ trace : Trace, ∀ f ∈ formulas, f.Holds trace 0

end Formula
end MissionTime
