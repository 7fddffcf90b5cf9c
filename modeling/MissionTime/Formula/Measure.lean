import MissionTime.Formula
import MissionTime.OrderedMap

/-! The atoms, depth and horizon of a formula. All three go through the formula with a stack of pending work,
so that a chain of any length is measured without recursion as deep as the chain. -/
namespace MissionTime.Formula

def parts : Formula → List Formula
  | .atom _ => []
  | .not f | .eventually _ f | .always _ f => [f]
  | .and f g | .or f g | .until _ f g | .release _ f g => [f, g]

/-- Which of two operands is pushed first; the other one is taken up first. -/
inductive PushOrder
  | left
  | right

def PushOrder.stacked : PushOrder → List Formula → List Formula
  | .left, fs => fs.reverse
  | .right, fs => fs

def workSize {α : Type} : List (Formula × α) → Nat
  | [] => 0
  | (f, _) :: work => f.size + workSize work

/-- Takes up pending formulas, each with a value of its own. `visit` sees every node and its value; `pass f`
turns the value at `f` into the value at the operands of `f`. -/
def walk {α β : Type} (order : PushOrder) (pass : Formula → α → α) (visit : β → Formula → α → β) :
    List (Formula × α) → β → β
  | [], result => result
  | (f, a) :: work, result =>
    walk order pass visit ((order.stacked f.parts).map (·, pass f a) ++ work) (visit result f a)
termination_by work => workSize work
decreasing_by
  cases order <;> cases f <;>
    simp only [PushOrder.stacked, parts, List.reverse_cons, List.reverse_nil, List.nil_append, List.map_cons,
      List.map_nil, List.cons_append, workSize, size] <;> omega

def keepName (seen : OrderedSet String) : Formula → Unit → OrderedSet String
  | .atom name, _ => seen.insert name
  | _, _ => seen

def atoms (f : Formula) : List String :=
  (walk .right (fun _ a => a) keepName [(f, ())] {}).toList

def depth (f : Formula) : Nat :=
  walk .left (fun _ level => level + 1) (fun deepest _ level => max deepest level) [(f, 1)] 0

/-- Moves on to the end of the window of a temporal operator, but not beyond `maxTime`. -/
def advance : Formula → Nat → Nat
  | .eventually w _, offset | .always w _, offset | .until w _ _, offset | .release w _ _, offset =>
    min maxTime (offset + w.high)
  | .atom _, offset | .not _, offset | .and _ _, offset | .or _ _, offset => offset

def keepOffset (furthest : Nat) : Formula → Nat → Nat
  | .atom _, offset => max furthest offset
  | _, _ => furthest

/-- The last time step that a formula at time 0 can refer to, or `maxTime` if that is less. -/
def horizon (f : Formula) : Nat := walk .left advance keepOffset [(f, 0)] 0

end MissionTime.Formula
