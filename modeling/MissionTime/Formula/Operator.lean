import MissionTime.Formula

/-! The operators of formulas by themselves, apart from their operands. -/
namespace MissionTime.Formula

inductive Unary
  | not
  | eventually (window : Interval)
  | always (window : Interval)

def Unary.apply : Unary → Formula → Formula
  | .not => .not
  | .eventually w => .eventually w
  | .always w => .always w

inductive Binary
  | and
  | or
  | until (window : Interval)
  | release (window : Interval)

namespace Binary

def apply : Binary → Formula → Formula → Formula
  | .and => .and
  | .or => .or
  | .until w => .until w
  | .release w => .release w

/-- Whether the operator continues the chain that its left operand is. -/
def continues : Binary → Formula → Bool
  | .and, .and .. => true
  | .or, .or .. => true
  | _, _ => false

end Binary

inductive Connective
  | and
  | or

def Connective.join : Connective → Formula → Formula → Formula
  | .and => .and
  | .or => .or

inductive Modality
  | eventually
  | always

namespace Modality

def letter : Modality → Char
  | .eventually => 'F'
  | .always => 'G'

def withWindow : Modality → Interval → Unary
  | .eventually => .eventually
  | .always => .always

end Modality

inductive Linkage
  | until
  | release

namespace Linkage

def letter : Linkage → Char
  | .until => 'U'
  | .release => 'R'

def withWindow : Linkage → Interval → Binary
  | .until => .until
  | .release => .release

end Linkage

end MissionTime.Formula
