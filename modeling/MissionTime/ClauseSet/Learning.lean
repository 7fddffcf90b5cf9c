import MissionTime.ClauseSet.Propagation

/-! A search that learns from its conflicts. Literals are chosen and their consequences drawn until
either every variable has a value or some clause fails. A clause that fails is resolved with the reasons
of its literals into a new consequence, which keeps the search from the same mistake. An answer comes
with its own proof, so that nothing else about the search has to be trusted. -/
namespace MissionTime.ClauseSet

inductive Answer (clauses : ClauseSet)
  | satisfied (value : Nat → Bool) (holds : clauses.eval value = true)
  | refuted (fails : ∀ value, clauses.eval value = false)

def Answer.toBool {clauses : ClauseSet} : Answer clauses → Bool
  | .satisfied .. => true
  | .refuted .. => false

namespace Learner

variable {clauses : ClauseSet}

/-- Resolves a conflict with the reasons of its literals, from the end of the trail on, until only one of
its literals depends on the last choice; `recent` is their number. Returns also the variables that were
resolved upon. At most `fuel` literals of the trail are looked at. -/
def analyse (s : Learner clauses) : (fuel recent : Nat) → Consequence clauses → List Nat →
    Consequence clauses × List Nat
  | 0, _, c, resolved => (c, resolved)
  | fuel + 1, recent, c, resolved =>
    let step := do
      let l ← s.trail[fuel]?
      if c.literals.contains l.negate then some (l, ← s.assigned? l) else none
    match step with
    | none => analyse s fuel recent c resolved
    | some (_, ⟨_, none⟩) => (c, resolved)
    | some (l, ⟨_, some reason⟩) =>
      if recent ≤ 1 then (c, resolved)
      else
        let recent := reason.literals.foldl (fun recent m =>
          if s.levelOf m = s.level && m != l && !c.literals.contains m then recent + 1 else recent)
          (recent - 1)
        analyse s fuel recent (c.resolve l reason) (l.index :: resolved)

def reward (s : Learner clauses) (index : Nat) : Learner clauses :=
  let score := s.scores.getD index 0
  let queue := s.queue.erase ⟨score, index⟩
  { s with
    scores := s.scores.setIfInBounds index (score + s.gain)
    queue := queue.insert ⟨score + s.gain, index⟩ }

def age (s : Learner clauses) : Learner clauses :=
  let gain := s.gain + s.gain / 20
  if gain < 1000000000000000 then { s with gain }
  else
    let scores := s.scores.map (· / 1000000000000)
    let ranks := (List.range scores.size).map fun index => Rank.mk (scores.getD index 0) index
    { s with gain := gain / 1000000000000, scores, queue := .ofList ranks _ }

/-- Takes back choices: all of them when a restart is due, or those behind the first `level` ones. -/
def backtrack (s : Learner clauses) (level : Nat) : Learner clauses :=
  let s := { s with conflict := none, conflicts := s.conflicts + 1 }
  if s.conflicts < s.restart then s.retract level s.trail.size
  else { s.retract 0 s.trail.size with restart := s.conflicts + s.conflicts / 10 + 100 }

def learn (s : Learner clauses) (conflict : Consequence clauses) : Learner clauses :=
  let recent := conflict.literals.foldl
    (fun recent l => if s.levelOf l = s.level then recent + 1 else recent) 0
  let (lesson, resolved) := s.analyse s.trail.size recent conflict []
  let lesson := s.strip lesson
  let members := lesson.literals.toList.mergeSort fun l m => s.levelOf m ≤ s.levelOf l
  let level := match members with
    | _ :: m :: _ => s.levelOf m
    | _ => 0
  let s := resolved.foldl reward s
  let s := members.foldl (fun s l => s.reward l.index) s
  let s := (s.age.backtrack level).add lesson members
  match members with
  | l :: _ => if s.level = level then s.assign l (some lesson) else s
  | [] => s

def value (s : Learner clauses) (index : Nat) : Bool := s.truthOf (.of index true) = .holds

def run : (fuel : Nat) → Learner clauses → Option (Answer clauses)
  | 0, _ => none
  | fuel + 1, s =>
    match s.conflict with
    | some conflict =>
      if s.level = 0 then
        let c := s.strip conflict
        if empty : c.literals.isEmpty then some (.refuted (c.eval_eq_false empty)) else none
      else run fuel (s.learn conflict)
    | none =>
      match s.trail[s.drawn]? with
      | some l => run fuel (s.propagate l)
      | none =>
        match s.queue.max? with
        | some rank => run fuel (s.choose rank)
        | none => if holds : clauses.eval s.value then some (.satisfied s.value holds) else none

end Learner

def width (clauses : ClauseSet) : Nat :=
  clauses.foldl (fun width c => c.foldl (fun width l => max width (l.index + 1)) width) 0

def stepLimit : Nat := 1000000000000000

def answer? (clauses : ClauseSet) : Option (Answer clauses) :=
  (Learner.ofClauses clauses clauses.width).run stepLimit

end MissionTime.ClauseSet
