import MissionTime.Proofs.Encoding

/-! Unrollings at a later time. An unrolling counts its steps from the time at which it starts: if it
succeeds there, it succeeds at the start of time as well, and what it leaves there differs in the times of
the atoms only, each of which is put off by the same delay. Two runs, one at each time, are compared from
step to step. -/
namespace MissionTime
open Runs

namespace TimedAtom

def postpone (delay : Nat) (atom : TimedAtom) : TimedAtom := ⟨atom.name, delay + atom.time⟩

theorem postpone_injective (delay : Nat) : Function.Injective (postpone delay) := by
  rintro ⟨name, time⟩ ⟨name', time'⟩ same
  simpa [postpone] using same

def postponeSymbol (delay : Nat) (symbol : String) : String := ((ofSymbol symbol).postpone delay).symbol

@[simp] theorem postponeSymbol_symbol (delay : Nat) (atom : TimedAtom) :
    postponeSymbol delay atom.symbol = (atom.postpone delay).symbol := by
  rw [postponeSymbol, ofSymbol_symbol]

end TimedAtom

namespace Term

mutual

def rename (r : String → String) : Term → Term
  | .var name => .var (r name)
  | .const b => .const b
  | .and ts => .and (renameAll r ts)
  | .or ts => .or (renameAll r ts)
  | .not t => .not (t.rename r)

def renameAll (r : String → String) : List Term → List Term
  | [] => []
  | t :: ts => t.rename r :: renameAll r ts

end

variable (r : String → String)

theorem renameAll_eq (ts : List Term) : renameAll r ts = ts.map (rename r) := by
  induction ts with
  | nil => rfl
  | cons t ts ih => rw [renameAll, ih, List.map_cons]

@[simp] theorem rename_var (name : String) : (var name).rename r = var (r name) := by rw [rename]

@[simp] theorem rename_not (t : Term) : (not t).rename r = not (t.rename r) := by rw [rename]

@[simp] theorem rename_and (ts : List Term) : (and ts).rename r = and (ts.map (rename r)) := by
  rw [rename, renameAll_eq]

@[simp] theorem rename_or (ts : List Term) : (or ts).rename r = or (ts.map (rename r)) := by
  rw [rename, renameAll_eq]

theorem rename_connective (c : Formula.Connective) (ts : List Term) :
    (c.term ts).rename r = c.term (ts.map (rename r)) := by
  cases c
  · exact rename_and r ts
  · exact rename_or r ts

@[simp] theorem rename_conj (ts : List Term) : (conj ts).rename r = conj (ts.map (rename r)) := by
  match ts with
  | [] | _ :: _ :: _ => simp [conj]
  | [t] => rfl

@[simp] theorem rename_disj (ts : List Term) : (disj ts).rename r = disj (ts.map (rename r)) := by
  match ts with
  | [] | _ :: _ :: _ => simp [disj]
  | [t] => rfl

def postpone (delay : Nat) : Term → Term := rename (TimedAtom.postponeSymbol delay)

end Term

/-- A table with the atoms of another, put off and in the same order. -/
def AtomTable.Postponed (delay : Nat) (table table₀ : AtomTable) : Prop :=
  table.toList = table₀.toList.map (TimedAtom.postpone delay)

theorem AtomTable.Postponed.insert {delay : Nat} {table table₀ : AtomTable} (h : Postponed delay table table₀)
    (atom : TimedAtom) :
    Postponed delay (table.insert (atom.postpone delay)) (table₀.insert atom) := by
  unfold Postponed at h ⊢
  simp only [toList_insert, h, List.mem_map_of_injective (TimedAtom.postpone_injective delay)]
  split_ifs
  · rfl
  · rw [List.map_append, List.map_singleton]

namespace Unroll

variable {α β : Type} {delay : Nat}

/-- Where `x` succeeds on a table, `y` succeeds on the table before the delay. Then `x` leaves what `y`
leaves, put off. -/
def Trails (delay : Nat) (move : α → α) (x y : Unroll α) : Prop :=
  ∀ ⦃table table₀ a table'⦄, AtomTable.Postponed delay table table₀ → x.run table = (.ok a, table') →
    ∃ a₀ table₀', y.run table₀ = (.ok a₀, table₀') ∧ a = move a₀ ∧ AtomTable.Postponed delay table' table₀'

theorem trails_pure (move : α → α) {a a₀ : α} (moved : a = move a₀) :
    Trails delay move (pure a) (pure a₀) := by
  intro table table₀ b table' postponed run
  cases run
  exact ⟨a₀, table₀, rfl, moved, postponed⟩

theorem trails_throw (move : α → α) (e : EncodingError) (y : Unroll α) : Trails delay move (throw e) y := by
  intro table table₀ a table' _ run
  cases run

theorem Trails.bind {move : α → α} {move' : β → β} {x y : Unroll α} {f g : α → Unroll β}
    (first : Trails delay move x y) (next : ∀ a₀, Trails delay move' (f (move a₀)) (g a₀)) :
    Trails delay move' (x >>= f) (y >>= g) := by
  intro table table₀ b table'' postponed run
  obtain ⟨a, table', run_x, run_f⟩ := run_bind_eq_ok run
  obtain ⟨a₀, table₀', run_y, rfl, postponed⟩ := first postponed run_x
  obtain ⟨b₀, table₀'', run_g, moved, postponed⟩ := next a₀ postponed run_f
  exact ⟨b₀, table₀'', by rw [run_bind_ok run_y, run_g], moved, postponed⟩

theorem trails_register (atom : TimedAtom) :
    Trails delay (Term.postpone delay) (register (atom.postpone delay)) (register atom) := by
  intro table table₀ term table' postponed run
  rw [register_run] at run
  cases run
  refine ⟨_, _, register_run atom table₀, ?_, postponed.insert atom⟩
  rw [Term.postpone, Term.rename_var, TimedAtom.postponeSymbol_symbol]

theorem trails_cons {x y : Unroll Term} {xs ys : Unroll (List Term)}
    (first : Trails delay (Term.postpone delay) x y)
    (others : Trails delay (List.map (Term.postpone delay)) xs ys) :
    Trails delay (List.map (Term.postpone delay)) (do return (← x) :: (← xs)) (do return (← y) :: (← ys)) :=
  first.bind fun _ => others.bind fun _ => trails_pure _ rfl

theorem trails_mapM {f g : α → Unroll Term} {as : List α}
    (h : ∀ a ∈ as, Trails delay (Term.postpone delay) (f a) (g a)) :
    Trails delay (List.map (Term.postpone delay)) (as.mapM f) (as.mapM g) := by
  induction as with
  | nil => exact trails_pure _ rfl
  | cons a as ih =>
    obtain ⟨first, h⟩ := List.forall_mem_cons.1 h
    rw [List.mapM_cons, List.mapM_cons]
    exact trails_cons first (ih h)

theorem trails_collect {f g : Nat → Unroll Term} (h : ∀ k, Trails delay (Term.postpone delay) (f k) (g k))
    (first count : Nat) :
    Trails delay (List.map (Term.postpone delay)) (collect f first count) (collect g first count) := by
  induction count generalizing first with
  | zero => exact trails_pure _ rfl
  | succ count ih => exact trails_cons (h first) (ih (first + 1))

theorem trails_within {f g : Nat → Unroll Term} (h : ∀ k, Trails delay (Term.postpone delay) (f k) (g k))
    (w : Interval) : Trails delay (List.map (Term.postpone delay)) (within w f) (within w g) := by
  unfold within
  split_ifs
  · exact trails_collect h _ _
  · exact trails_throw _ _ _

theorem trails_later {f : Nat → Unroll Term}
    (h : ∀ time, Trails delay (Term.postpone delay) (f (delay + time)) (f time)) (time offset : Nat) :
    Trails delay (Term.postpone delay) (later (delay + time) offset f) (later time offset f) := by
  unfold later
  split_ifs with late early
  · rw [Nat.add_assoc]
    exact h (time + offset)
  · omega
  · exact trails_throw _ _ _
  · exact trails_throw _ _ _

theorem trails_branch {f g : Nat → Unroll Term}
    (hf : ∀ time, Trails delay (Term.postpone delay) (f (delay + time)) (f time))
    (hg : ∀ time, Trails delay (Term.postpone delay) (g (delay + time)) (g time)) (time count offset : Nat) :
    Trails delay (Term.postpone delay) (branch f g (delay + time) count offset)
      (branch f g time count offset) := by
  refine (trails_collect (trails_later hf time) 0 count).bind fun before => ?_
  refine (trails_later hg time offset).bind fun goal => trails_pure _ ?_
  rw [Term.postpone, Term.rename_conj, List.map_append, List.map_singleton]

end Unroll

namespace Formula
open Unroll

theorem trails_unroll (f : Formula) (delay time : Nat) :
    Trails delay (Term.postpone delay) (f.unroll (delay + time)) (f.unroll time) := by
  induction f using chainInduction generalizing time with
  | atom name =>
    rw [unroll, unroll]
    exact trails_register ⟨name, time⟩
  | not f ih =>
    rw [unroll, unroll]
    exact (ih time).bind fun term => trails_pure _ (by rw [Term.postpone, Term.rename_not])
  | chain c f g ih =>
    rw [unroll_join, unroll_join]
    refine (trails_mapM fun h mem => ih h mem time).bind fun terms => trails_pure _ ?_
    rw [Term.postpone, Term.rename_connective]
  | eventually w f ih =>
    rw [unroll, unroll]
    refine (trails_within (trails_later ih time) w).bind fun terms => trails_pure _ ?_
    rw [Term.postpone, Term.rename_disj]
  | always w f ih =>
    rw [unroll, unroll]
    refine (trails_within (trails_later ih time) w).bind fun terms => trails_pure _ ?_
    rw [Term.postpone, Term.rename_conj]
  | «until» w f g ihf ihg =>
    rw [unroll_until, unroll_until]
    refine (trails_within (fun k => trails_branch ihf ihg time k k) w).bind fun terms => trails_pure _ ?_
    rw [Term.postpone, Term.rename_disj]
  | release w f g ihf ihg =>
    rw [unroll_release, unroll_release]
    refine (trails_within (fun k => trails_branch ihg ihf time (k + 1) k) w).bind fun terms => ?_
    refine (trails_collect (trails_later ihg time) 0 (w.high + 1)).bind fun throughout => trails_pure _ ?_
    rw [Term.postpone, Term.rename_disj, List.map_append, List.map_singleton, Term.rename_conj]

/-- An unrolling that succeeds at a time succeeds at the start of time. Its term and the table that it
leaves are those of the unrolling there, with every atom put off by that time. -/
theorem unroll_postponed (f : Formula) (time : Nat) {term : Term} {table : AtomTable}
    (run : (f.unroll time).run {} = (.ok term, table)) :
    ∃ (r : String → String) (term₀ : Term) (table₀ : AtomTable),
      (∀ name i, r (TimedAtom.symbol ⟨name, i⟩) = TimedAtom.symbol ⟨name, time + i⟩) ∧
      (f.unroll 0).run {} = (.ok term₀, table₀) ∧ term = term₀.rename r ∧
      (∀ name ∈ term₀.names, ∃ atom ∈ table₀.toList, name = atom.symbol) ∧
      table.toList = table₀.toList.map fun atom => ⟨atom.name, time + atom.time⟩ := by
  have empty : AtomTable.Postponed time {} {} := rfl
  obtain ⟨term₀, table₀, run₀, moved, postponed⟩ := trails_unroll f time 0 empty run
  refine ⟨TimedAtom.postponeSymbol time, term₀, table₀, fun name i => ?_, run₀, moved, ?_, postponed⟩
  · exact TimedAtom.postponeSymbol_symbol time ⟨name, i⟩
  · intro name occurs
    have left : table₀ = _ := run₀ ▸ f.unroll_snd 0 {}
    rw [names_of_yields ⟨_, _, run₀⟩] at occurs
    obtain ⟨atom, reached, rfl⟩ := List.mem_map.1 occurs
    rw [left]
    exact ⟨atom, (AtomTable.mem_toList_foldl_insert ..).2 (.inr reached), rfl⟩

theorem unroll_postponed_nested :
    let f := Formula.eventually ⟨0, 1⟩ (.until ⟨1, 1⟩ (.atom "p@1") (.atom "q"))
    let term := Term.or [.and [.var "p@1@5", .var "q@6"], .and [.var "p@1@6", .var "q@7"]]
    ∃ (table table₀ : AtomTable) (term₀ : Term) (r : String → String),
      (f.unroll 5).run {} = (.ok term, table) ∧ (f.unroll 0).run {} = (.ok term₀, table₀) ∧
      (∀ name i, r (TimedAtom.symbol ⟨name, i⟩) = TimedAtom.symbol ⟨name, 5 + i⟩) ∧
      term = term₀.rename r ∧
      table.toList = table₀.toList.map fun atom => ⟨atom.name, 5 + atom.time⟩ := by
  intro f term
  obtain ⟨table, run⟩ : ∃ table, (f.unroll 5).run {} = (.ok term, table) := by
    simp only [f, unroll_until, unroll, within, Interval.WellFormed, branch, collect, later, maxTime]
    exact ⟨_, rfl⟩
  obtain ⟨r, term₀, table₀, shifts, run₀, moved, -, postponed⟩ := unroll_postponed f 5 run
  exact ⟨table, table₀, term₀, r, run, run₀, shifts, moved, postponed⟩

end Formula
end MissionTime
