import MissionTime.Interval

/-! Formulas of mission-time linear temporal logic: propositional connectives and temporal operators
over finite windows. Chains of one connective nest to the left. -/
namespace MissionTime

inductive Formula
  | atom (name : String)
  | not (operand : Formula)
  | and (left right : Formula)
  | or (left right : Formula)
  | eventually (window : Interval) (operand : Formula)
  | always (window : Interval) (operand : Formula)
  | until (window : Interval) (left right : Formula)
  | release (window : Interval) (left right : Formula)
deriving DecidableEq

namespace Formula

/-- The formulas that need parentheses in an operand's place. -/
def isBinary : Formula → Bool
  | .and .. | .or .. | .until .. | .release .. => true
  | .atom .. | .not .. | .eventually .. | .always .. => false

def size : Formula → Nat
  | .atom _ => 1
  | .not f | .eventually _ f | .always _ f => f.size + 1
  | .and f g | .or f g | .until _ f g | .release _ f g => f.size + g.size + 1

end Formula
end MissionTime
