import MissionTime.ClauseSet.Consequence

/-! Drawing consequences from chosen literals. A clause can be passed over as long as two of its literals
are not false, so each clause watches two of its literals and is looked at only when one of them becomes
false. It then watches another one, or assigns its last variable, or is in conflict with the choices. -/
namespace MissionTime.ClauseSet

inductive Truth
  | unknown
  | holds
  | fails
deriving DecidableEq

structure Assigned (clauses : ClauseSet) where
  level : Nat
  reason : Option (Consequence clauses)

structure Rank where
  score : Nat
  index : Nat
deriving Ord

/-- A search for a satisfying assignment, with what it has learnt about the clause set. -/
structure Learner (clauses : ClauseSet) where
  known : Array (Consequence clauses) := #[]
  /-- The literals of each known consequence; the first two are watched. -/
  members : Array (Array Literal) := #[]
  /-- Where each known consequence found the last literal to watch. -/
  found : Array Nat := #[]
  watching : Array (Array Nat)
  truths : Array Truth
  assigned : Array (Option (Assigned clauses))
  trail : Array Literal := #[]
  drawn : Nat := 0
  level : Nat := 0
  conflict : Option (Consequence clauses) := none
  phases : Array Bool
  scores : Array Nat
  queue : Std.TreeSet Rank
  gain : Nat := 1000
  conflicts : Nat := 0
  restart : Nat := 100

namespace Learner

variable {clauses : ClauseSet}

def truthOf (s : Learner clauses) (l : Literal) : Truth := s.truths.getD l.code .unknown

def assigned? (s : Learner clauses) (l : Literal) : Option (Assigned clauses) :=
  s.assigned.getD l.index none

def levelOf (s : Learner clauses) (l : Literal) : Nat :=
  match s.assigned? l with
  | some a => a.level
  | none => 0

def strip (s : Learner clauses) (c : Consequence clauses) : Consequence clauses :=
  c.literals.foldl (fun c l =>
    match s.truthOf l, s.assigned? l with
    | .fails, some ⟨0, some reason⟩ => c.resolve l.negate reason
    | _, _ => c) c

/-- Makes a literal hold. A reason that depends on no choice is stripped of all other literals. -/
def assign (s : Learner clauses) (l : Literal) (reason : Option (Consequence clauses)) :
    Learner clauses :=
  let reason := if s.level = 0 then reason.map s.strip else reason
  { s with
    truths := (s.truths.setIfInBounds l.code .holds).setIfInBounds l.negate.code .fails
    assigned := s.assigned.setIfInBounds l.index (some ⟨s.level, reason⟩)
    trail := s.trail.push l }

def watch (s : Learner clauses) (l : Literal) (id : Nat) : Learner clauses :=
  { s with watching := s.watching.modify l.code (·.push id) }

def add (s : Learner clauses) (c : Consequence clauses) (members : List Literal) : Learner clauses :=
  match members with
  | l :: m :: _ =>
    let id := s.known.size
    let s := { s with
      known := s.known.push c, members := s.members.push members.toArray, found := s.found.push 2 }
    (s.watch l id).watch m id
  | _ => s

/-- The position of a member that does not fail and is not watched. The members are looked at from
`position` on and from the first again, `fuel` of them at most. -/
def candidate? (truths : Array Truth) (members : Array Literal) : (fuel position : Nat) → Option Nat
  | 0, _ => none
  | fuel + 1, position =>
    match members[position]? with
    | none => candidate? truths members fuel 2
    | some l =>
      if truths.getD l.code .unknown = .fails then candidate? truths members fuel (position + 1)
      else some position

/-- Looks at a consequence that watches `l`, which fails. Says also whether it still watches `l`. -/
def visit (s : Learner clauses) (l : Literal) (id : Nat) : Learner clauses × Bool :=
  let members := s.members.getD id #[]
  let place := if members.getD 0 l = l then 0 else 1
  let other := members.getD (1 - place) l
  let truth := s.truthOf other
  if truth = .holds then (s, true)
  else
    match candidate? s.truths members members.size (s.found.getD id 2) with
    | some position =>
      let next := members.getD position l
      let s := { s with
        members := s.members.modify id (·.swapIfInBounds place position)
        found := s.found.setIfInBounds id position }
      (s.watch next id, false)
    | none =>
      match truth, s.known[id]? with
      | .unknown, some c => (s.assign other (some c), true)
      | _, c => ({ s with conflict := c }, true)

def propagate (s : Learner clauses) (l : Literal) : Learner clauses :=
  let failing := l.negate
  let ids := s.watching.getD failing.code #[]
  let s := { s with drawn := s.drawn + 1, watching := s.watching.setIfInBounds failing.code #[] }
  let (s, kept) := ids.foldl (fun (s, kept) id =>
    if s.conflict.isSome then (s, kept.push id)
    else
      match s.visit failing id with
      | (s, true) => (s, kept.push id)
      | (s, false) => (s, kept)) (s, #[])
  { s with watching := s.watching.setIfInBounds failing.code kept }

def undo (s : Learner clauses) (l : Literal) : Learner clauses :=
  { s with
    trail := s.trail.pop
    drawn := min s.drawn (s.trail.size - 1)
    truths := (s.truths.setIfInBounds l.code .unknown).setIfInBounds l.negate.code .unknown
    assigned := s.assigned.setIfInBounds l.index none
    phases := s.phases.setIfInBounds l.index l.positive
    queue := s.queue.insert ⟨s.scores.getD l.index 0, l.index⟩ }

def retract (level : Nat) : (fuel : Nat) → Learner clauses → Learner clauses
  | 0, s => { s with level }
  | fuel + 1, s =>
    match s.trail.back? with
    | some l => if level < s.levelOf l then retract level fuel (s.undo l) else { s with level }
    | none => { s with level }

def choose (s : Learner clauses) (rank : Rank) : Learner clauses :=
  let s := { s with queue := s.queue.erase rank }
  let l := Literal.of rank.index (s.phases.getD rank.index false)
  if s.truthOf l = .unknown then { s with level := s.level + 1 }.assign l none else s

def load (s : Learner clauses) (c : Consequence clauses) : Learner clauses :=
  match c.literals.toList with
  | [] => { s with conflict := some c }
  | [l] =>
    match s.truthOf l with
    | .unknown => s.assign l (some c)
    | .holds => s
    | .fails => { s with conflict := some c }
  | members => s.add c members

def ofClauses (clauses : ClauseSet) (size : Nat) : Learner clauses :=
  let start : Learner clauses := {
    watching := .replicate (2 * size) #[]
    truths := .replicate (2 * size) .unknown
    assigned := .replicate size none
    phases := .replicate size false
    scores := .replicate size 0
    queue := .ofList ((List.range size).map fun index => ⟨0, index⟩) _ }
  clauses.attach.foldl (fun s c => s.load (.ofMem c.2)) start

end Learner
end MissionTime.ClauseSet
