import MissionTime.Formula.Chain
import MissionTime.Term
import MissionTime.TimedAtom

/-! Unrolling a formula at a time step into a term over timed atoms. Atoms are registered as they are
met, from left to right, and stay registered when the unrolling fails later on. -/
namespace MissionTime

inductive EncodingError
  | invertedWindow (window : Interval)
  | timeOverflow (time offset : Nat)
  | horizonExceeded (horizon limit : Nat)
deriving DecidableEq

def EncodingError.message : EncodingError → String
  | .invertedWindow w => s!"Interval {w.text} is inverted: lower bound exceeds upper bound"
  | .timeOverflow time offset => s!"Timestep overflow: {time} + {offset} does not fit in u32"
  | .horizonExceeded horizon limit =>
    s!"Formula horizon {horizon} exceeds the configured limit of {limit}"

/-- A computation on the table of atoms. The table outlives a failure. -/
abbrev Unroll := ExceptT EncodingError (StateM AtomTable)

namespace Unroll

def register (atom : TimedAtom) : Unroll Term := do
  let name ← modifyGet (·.var atom)
  return .var name

def later (time offset : Nat) (f : Nat → Unroll Term) : Unroll Term :=
  if time + offset ≤ maxTime then f (time + offset) else throw (.timeOverflow time offset)

def collect (f : Nat → Unroll Term) (first : Nat) : Nat → Unroll (List Term)
  | 0 => return []
  | count + 1 => do
    let term ← f first
    let terms ← collect f (first + 1) count
    return term :: terms

def within (window : Interval) (f : Nat → Unroll Term) : Unroll (List Term) :=
  if window.WellFormed then collect f window.low (window.high + 1 - window.low)
  else throw (.invertedWindow window)

end Unroll

def Formula.Connective.term : Connective → List Term → Term
  | .and => .and
  | .or => .or

namespace Formula
open Unroll

/-- The term that says that a formula holds at `time`. A chain of one connective becomes a single
connective of many operands. -/
def unroll (f : Formula) (time : Nat) : Unroll Term :=
  match f with
  | .atom name => register ⟨name, time⟩
  | .not f => return .not (← f.unroll time)
  | .and f g => return .and (← ((f.and g).operands .and).attach.mapM fun ⟨h, _⟩ => h.unroll time)
  | .or f g => return .or (← ((f.or g).operands .or).attach.mapM fun ⟨h, _⟩ => h.unroll time)
  | .eventually w f => return .disj (← within w fun k => later time k f.unroll)
  | .always w f => return .conj (← within w fun k => later time k f.unroll)
  | .until w f g => do
    let branches ← within w fun k => do
      let before ← collect (fun j => later time j f.unroll) 0 k
      let goal ← later time k g.unroll
      return .conj (before ++ [goal])
    return .disj branches
  | .release w f g => do
    let branches ← within w fun k => do
      let upto ← collect (fun j => later time j g.unroll) 0 (k + 1)
      let goal ← later time k f.unroll
      return .conj (upto ++ [goal])
    let throughout ← collect (fun j => later time j g.unroll) 0 (w.high + 1)
    return .disj (branches ++ [.conj throughout])
termination_by f.size
decreasing_by
  all_goals first
    | exact size_lt_of_mem_operands_join (c := .and) (by assumption)
    | exact size_lt_of_mem_operands_join (c := .or) (by assumption)
    | simp only [size]; omega

theorem unroll_join (c : Connective) (f g : Formula) (time : Nat) :
    (c.join f g).unroll time = do
      return c.term (← ((c.join f g).operands c).mapM (·.unroll time)) := by
  cases c <;>
    rw [Connective.join, unroll, List.mapM_subtype fun _ _ => rfl, List.unattach_attach, Connective.term]

end Formula
end MissionTime
