import MissionTime.Proofs.Runs
import MissionTime.Proofs.Term
import MissionTime.Proofs.Visits

/-! How an unrolling treats the table of atoms. It walks along its visits, whatever the table holds: the atoms
in front of the first fault are registered, and that fault is the error. If there is none, then the term is
made of the registered atoms, from left to right. So neither the term nor a failure depends on the table. -/
namespace MissionTime
open Runs

namespace Formula

@[elab_as_elim]
theorem chainInduction {P : Formula → Prop} (atom : ∀ name, P (.atom name))
    (not : ∀ f, P f → P (.not f))
    (chain : ∀ (c : Connective) f g, (∀ h ∈ (c.join f g).operands c, P h) → P (c.join f g))
    (eventually : ∀ w f, P f → P (.eventually w f)) (always : ∀ w f, P f → P (.always w f))
    («until» : ∀ w f g, P f → P g → P (.until w f g))
    (release : ∀ w f g, P f → P g → P (.release w f g)) (f : Formula) : P f := by
  induction hn : f.size using Nat.strongRecOn generalizing f with
  | ind n ih =>
    subst hn
    have smaller (h : Formula) (lt : h.size < f.size) : P h := ih h.size lt h rfl
    cases f with
    | atom name => exact atom name
    | not f => exact not f (smaller f (by simp only [size]; omega))
    | and f g => exact chain .and f g fun h mem => smaller h (size_lt_of_mem_operands_join mem)
    | or f g => exact chain .or f g fun h mem => smaller h (size_lt_of_mem_operands_join mem)
    | eventually w f => exact eventually w f (smaller f (by simp only [size]; omega))
    | always w f => exact always w f (smaller f (by simp only [size]; omega))
    | «until» w f g =>
      exact «until» w f g (smaller f (by simp only [size]; omega))
        (smaller g (by simp only [size]; omega))
    | release w f g =>
      exact release w f g (smaller f (by simp only [size]; omega))
        (smaller g (by simp only [size]; omega))

end Formula

@[simp] theorem Term.names_connective (c : Formula.Connective) (ts : List Term) :
    (c.term ts).names = ts.flatMap names := by
  cases c
  · exact names_and ts
  · exact names_or ts

namespace Unroll

theorem register_run (atom : TimedAtom) (table : AtomTable) :
    (register atom).run table = (.ok (.var atom.symbol), table.insert atom) := by
  have registered : (register atom).run table = (.ok (.var (table.var atom).1), (table.var atom).2) := rfl
  rw [registered, table.var_eq]

def branch (f g : Nat → Unroll Term) (time count offset : Nat) : Unroll Term := do
  let before ← collect (fun j => later time j f) 0 count
  let goal ← later time offset g
  return .conj (before ++ [goal])

variable {α β : Type} {before : List String} {visits visits' : List Visit}

/-- A computation that walks along `visits`, on every table and with the same result. If `before` are the
symbols met before it, then `after` tells those met after it by its result. -/
def Walks (before : List String) (x : Unroll α) (visits : List Visit) (after : α → List String) : Prop :=
  ∃ result : Except EncodingError α,
    (∀ table, x.run table = (result, (Visit.reached visits).foldl AtomTable.insert table)) ∧
    (∀ a, result = .ok a → Visit.firstFault visits = none ∧
      after a = before ++ (Visit.reached visits).map TimedAtom.symbol) ∧
    ∀ e, result = .error e → Visit.firstFault visits = some e

theorem walks_pure {a : α} {after : α → List String} (h : after a = before) :
    Walks before (pure a) [] after := by
  refine ⟨.ok a, fun _ => rfl, ?_, nofun⟩
  rintro _ ⟨⟩
  exact ⟨rfl, by simpa [Visit.reached] using h⟩

theorem walks_throw (e : EncodingError) (after : α → List String) :
    Walks before (throw e) [.fault e] after :=
  ⟨.error e, fun _ => rfl, nofun, fun _ same => congrArg some (Except.error.inj same)⟩

theorem Walks.bind {x : Unroll α} {f : α → Unroll β} {between : α → List String}
    {after : β → List String} (hx : Walks before x visits between)
    (hf : ∀ a, Walks (between a) (f a) visits' after) :
    Walks before (x >>= f) (visits ++ visits') after := by
  obtain ⟨result, run, succeeds, fails⟩ := hx
  cases result with
  | error e =>
    have stopped := fails e rfl
    refine ⟨.error e, fun table => ?_, nofun, ?_⟩
    · rw [run_bind_error (run table), Visit.reached_append_of_fault stopped]
    · rintro _ ⟨⟩
      rw [Visit.firstFault_append, stopped, Option.some_or]
  | ok a =>
    obtain ⟨clear, met⟩ := succeeds a rfl
    obtain ⟨result', run', succeeds', fails'⟩ := hf a
    refine ⟨result', fun table => ?_, fun b hb => ?_, fun e he => ?_⟩
    · rw [run_bind_ok (run table), run', Visit.reached_append clear, List.foldl_append]
    · obtain ⟨clear', met'⟩ := succeeds' b hb
      rw [Visit.firstFault_append, clear, clear', Visit.reached_append clear, List.map_append,
        ← List.append_assoc, ← met, met']
      exact ⟨rfl, rfl⟩
    · rw [Visit.firstFault_append, clear, fails' e he, Option.none_or]

theorem Walks.bind_pure {x : Unroll α} {between : α → List String} (h : Walks before x visits between)
    {f : α → β} {after : β → List String} (same : ∀ a, after (f a) = between a) :
    Walks before (x >>= fun a => pure (f a)) visits after := by
  simpa using h.bind fun a => walks_pure (same a)

def Writes (x : Unroll Term) (visits : List Visit) : Prop :=
  ∀ before, Walks before x visits fun term => before ++ term.names

def WritesAll (x : Unroll (List Term)) (visits : List Visit) : Prop :=
  ∀ before, Walks before x visits fun terms => before ++ terms.flatMap Term.names

theorem writes_register (atom : TimedAtom) : Writes (register atom) [.atom atom] := by
  intro before
  refine ⟨.ok (.var atom.symbol), register_run atom, ?_, nofun⟩
  rintro _ ⟨⟩
  exact ⟨rfl, by simp [Visit.reached]⟩

theorem writesAll_nil : WritesAll (pure []) [] := fun before => walks_pure (by simp)

theorem writesAll_cons {x : Unroll Term} {xs : Unroll (List Term)} (hx : Writes x visits)
    (hxs : WritesAll xs visits') : WritesAll (do return (← x) :: (← xs)) (visits ++ visits') := by
  intro before
  refine (hx before).bind fun term => (hxs _).bind_pure fun terms => ?_
  rw [List.flatMap_cons, List.append_assoc]

theorem writesAll_mapM {f : α → Unroll Term} {visitsOf : α → List Visit} {as : List α}
    (h : ∀ a ∈ as, Writes (f a) (visitsOf a)) : WritesAll (as.mapM f) (as.flatMap visitsOf) := by
  induction as with
  | nil => exact writesAll_nil
  | cons a as ih =>
    obtain ⟨first, rest⟩ := List.forall_mem_cons.1 h
    rw [List.mapM_cons, List.flatMap_cons]
    exact writesAll_cons first (ih rest)

theorem writesAll_collect {f : Nat → Unroll Term} {visitsOf : Nat → List Visit}
    (h : ∀ k, Writes (f k) (visitsOf k)) (first count : Nat) :
    WritesAll (collect f first count) ((List.range' first count).flatMap visitsOf) := by
  induction count generalizing first with
  | zero => exact writesAll_nil
  | succ count ih =>
    rw [List.range'_succ, List.flatMap_cons]
    exact writesAll_cons (h first) (ih (first + 1))

theorem writes_later {f : Nat → Unroll Term} {visitsOf : Nat → List Visit}
    (h : ∀ time, Writes (f time) (visitsOf time)) (time offset : Nat) :
    Writes (later time offset f) (Visit.later time offset visitsOf) := by
  unfold later Visit.later
  split_ifs
  · exact h _
  · exact fun before => walks_throw _ _

theorem writesAll_within {f : Nat → Unroll Term} {visitsOf : Nat → List Visit}
    (h : ∀ k, Writes (f k) (visitsOf k)) (w : Interval) :
    WritesAll (within w f) (Visit.within w visitsOf) := by
  unfold within Visit.within
  split_ifs
  · exact writesAll_collect h _ _
  · exact fun before => walks_throw _ _

theorem writes_branch {f g : Nat → Unroll Term} {visitsOf visitsOf' : Nat → List Visit}
    (hf : ∀ time, Writes (f time) (visitsOf time)) (hg : ∀ time, Writes (g time) (visitsOf' time))
    (time count offset : Nat) :
    Writes (branch f g time count offset)
      (Visit.before time count visitsOf ++ Visit.later time offset visitsOf') := by
  intro before
  refine (writesAll_collect (writes_later hf time) 0 count before).bind fun terms => ?_
  exact (writes_later hg time offset _).bind_pure (by simp)

end Unroll

namespace Formula
open Unroll

theorem unroll_until (w : Interval) (f g : Formula) (time : Nat) :
    (Formula.until w f g).unroll time = do
      let branches ← within w fun k => branch f.unroll g.unroll time k k
      return .disj branches := by
  rw [unroll]
  rfl

theorem unroll_release (w : Interval) (f g : Formula) (time : Nat) :
    (Formula.release w f g).unroll time = do
      let branches ← within w fun k => branch g.unroll f.unroll time (k + 1) k
      let throughout ← collect (fun j => later time j g.unroll) 0 (w.high + 1)
      return .disj (branches ++ [.conj throughout]) := by
  rw [unroll]
  rfl

theorem writes_unroll (f : Formula) (time : Nat) : Writes (f.unroll time) (f.visits time) := by
  induction f using chainInduction generalizing time with
  | atom name =>
    rw [unroll]
    exact writes_register _
  | not f ih =>
    rw [unroll]
    exact fun before => (ih time before).bind_pure (by simp)
  | chain c f g ih =>
    rw [unroll_join, ← flatMap_visits_operands c]
    exact fun before => (writesAll_mapM (fun h mem => ih h mem time) before).bind_pure (by simp)
  | eventually w f ih | always w f ih =>
    rw [unroll]
    exact fun before => (writesAll_within (writes_later ih time) w before).bind_pure (by simp)
  | «until» w f g ihf ihg =>
    rw [unroll_until]
    exact fun before =>
      (writesAll_within (fun k => writes_branch ihf ihg time k k) w before).bind_pure (by simp)
  | release w f g ihf ihg =>
    rw [unroll_release]
    intro before
    refine (writesAll_within (fun k => writes_branch ihg ihf time (k + 1) k) w before).bind
      fun terms => ?_
    exact (writesAll_collect (writes_later ihg time) 0 (w.high + 1) _).bind_pure (by simp)

theorem unroll_cases (f : Formula) (time : Nat) :
    (∃ term, Visit.firstFault (f.visits time) = none ∧
      term.names = (Visit.reached (f.visits time)).map TimedAtom.symbol ∧
      ∀ table, (f.unroll time).run table =
        (.ok term, (Visit.reached (f.visits time)).foldl AtomTable.insert table)) ∨
    ∃ e, Visit.firstFault (f.visits time) = some e ∧
      ∀ table, (f.unroll time).run table =
        (.error e, (Visit.reached (f.visits time)).foldl AtomTable.insert table) := by
  obtain ⟨result, run, succeeds, fails⟩ := f.writes_unroll time []
  cases result with
  | ok term =>
    obtain ⟨clear, met⟩ := succeeds term rfl
    exact .inl ⟨term, clear, by simpa using met, run⟩
  | error e => exact .inr ⟨e, fails e rfl, run⟩

/-- An unrolling registers the atoms in front of its first fault and no others. -/
theorem unroll_snd (f : Formula) (time : Nat) (table : AtomTable) :
    ((f.unroll time).run table).2 = (Visit.reached (f.visits time)).foldl AtomTable.insert table := by
  rcases f.unroll_cases time with ⟨term, -, -, run⟩ | ⟨e, -, run⟩ <;> rw [run]

theorem unroll_fst_eq (f : Formula) (time : Nat) (table table' : AtomTable) :
    ((f.unroll time).run table).1 = ((f.unroll time).run table').1 := by
  rcases f.unroll_cases time with ⟨term, -, -, run⟩ | ⟨e, -, run⟩ <;> rw [run table, run table']

theorem exists_yields_iff (f : Formula) (time : Nat) :
    (∃ term, Yields (f.unroll time) term) ↔ Visit.firstFault (f.visits time) = none := by
  rcases f.unroll_cases time with ⟨term, clear, -, run⟩ | ⟨e, stopped, run⟩
  · exact ⟨fun _ => clear, fun _ => ⟨term, {}, _, run {}⟩⟩
  · constructor
    · rintro ⟨term, table, table', success⟩
      rw [run] at success
      cases success
    · intro clear
      rw [stopped] at clear
      cases clear

theorem names_of_yields {f : Formula} {time : Nat} {term : Term} (yields : Yields (f.unroll time) term) :
    term.names = (Visit.reached (f.visits time)).map TimedAtom.symbol := by
  obtain ⟨table, table', success⟩ := yields
  rcases f.unroll_cases time with ⟨term', -, names, run⟩ | ⟨e, -, run⟩ <;> rw [run] at success <;>
    cases success
  exact names

end Formula
end MissionTime
