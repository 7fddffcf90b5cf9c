/-! Propositional terms over named variables, the language that the solvers understand. -/
namespace MissionTime

inductive Term
  | var (name : String)
  | const (value : Bool)
  | and (operands : List Term)
  | or (operands : List Term)
  | not (operand : Term)

namespace Term

/-- The conjunction of some terms; of one term, that term itself. -/
def conj : List Term → Term
  | [t] => t
  | ts => .and ts

def disj : List Term → Term
  | [t] => t
  | ts => .or ts

mutual

def size : Term → Nat
  | .var _ | .const _ => 1
  | .and ts | .or ts => sizeAll ts + 1
  | .not t => t.size + 1

def sizeAll : List Term → Nat
  | [] => 0
  | t :: ts => t.size + sizeAll ts

end

mutual

def eval (value : String → Bool) : Term → Bool
  | .var name => value name
  | .const b => b
  | .and ts => evalAll value ts
  | .or ts => evalAny value ts
  | .not t => !t.eval value

def evalAll (value : String → Bool) : List Term → Bool
  | [] => true
  | t :: ts => t.eval value && evalAll value ts

def evalAny (value : String → Bool) : List Term → Bool
  | [] => false
  | t :: ts => t.eval value || evalAny value ts

end

end Term
end MissionTime
