import MissionTime.Term
import Mathlib.Data.List.Basic

/-! Values and variables of terms. The operands of a connective form a list, so facts about terms are
proved by an induction that gives them for all operands at once. -/
namespace MissionTime.Term

@[elab_as_elim]
theorem operandInduction {P : Term → Prop} (var : ∀ name, P (.var name))
    (const : ∀ value, P (.const value)) (and : ∀ ts, (∀ t ∈ ts, P t) → P (.and ts))
    (or : ∀ ts, (∀ t ∈ ts, P t) → P (.or ts)) (not : ∀ t, P t → P (.not t)) : ∀ t, P t
  | .var name => var name
  | .const value => const value
  | .and ts => and ts fun t _ => operandInduction var const and or not t
  | .or ts => or ts fun t _ => operandInduction var const and or not t
  | .not t => not t (operandInduction var const and or not t)

theorem evalAll_eq (value : String → Bool) (ts : List Term) :
    evalAll value ts = ts.all (·.eval value) := by
  induction ts with
  | nil => rfl
  | cons t ts ih => rw [evalAll, ih, List.all_cons]

theorem evalAny_eq (value : String → Bool) (ts : List Term) :
    evalAny value ts = ts.any (·.eval value) := by
  induction ts with
  | nil => rfl
  | cons t ts ih => rw [evalAny, ih, List.any_cons]

@[simp] theorem eval_var (value : String → Bool) (name : String) :
    (var name).eval value = value name := by rw [eval]

@[simp] theorem eval_const (value : String → Bool) (b : Bool) : (const b).eval value = b := by
  rw [eval]

@[simp] theorem eval_not (value : String → Bool) (t : Term) :
    (not t).eval value = !t.eval value := by rw [eval]

@[simp] theorem eval_and (value : String → Bool) (ts : List Term) :
    (and ts).eval value = ts.all (·.eval value) := by rw [eval, evalAll_eq]

@[simp] theorem eval_or (value : String → Bool) (ts : List Term) :
    (or ts).eval value = ts.any (·.eval value) := by rw [eval, evalAny_eq]

@[simp] theorem eval_conj (value : String → Bool) (ts : List Term) :
    (conj ts).eval value = ts.all (·.eval value) := by
  unfold conj
  split <;> simp

@[simp] theorem eval_disj (value : String → Bool) (ts : List Term) :
    (disj ts).eval value = ts.any (·.eval value) := by
  unfold disj
  split <;> simp

mutual

def names : Term → List String
  | .var name => [name]
  | .const _ => []
  | .and ts | .or ts => namesAll ts
  | .not t => t.names

def namesAll : List Term → List String
  | [] => []
  | t :: ts => t.names ++ namesAll ts

end

theorem namesAll_eq (ts : List Term) : namesAll ts = ts.flatMap names := by
  induction ts with
  | nil => rfl
  | cons t ts ih => rw [namesAll, ih, List.flatMap_cons]

@[simp] theorem names_var (name : String) : (var name).names = [name] := by rw [names]

@[simp] theorem names_const (b : Bool) : (const b).names = [] := by rw [names]

@[simp] theorem names_not (t : Term) : (not t).names = t.names := by rw [names]

@[simp] theorem names_and (ts : List Term) : (and ts).names = ts.flatMap names := by
  rw [names, namesAll_eq]

@[simp] theorem names_or (ts : List Term) : (or ts).names = ts.flatMap names := by
  rw [names, namesAll_eq]

@[simp] theorem names_conj (ts : List Term) : (conj ts).names = ts.flatMap names := by
  unfold conj
  split <;> simp

@[simp] theorem names_disj (ts : List Term) : (disj ts).names = ts.flatMap names := by
  unfold disj
  split <;> simp

inductive Head
  | var (name : String)
  | const (value : Bool)
  | and
  | or
  | not

def head : Term → Head
  | .var name => .var name
  | .const value => .const value
  | .and _ => .and
  | .or _ => .or
  | .not _ => .not

def operands : Term → List Term
  | .var _ | .const _ => []
  | .and ts | .or ts => ts
  | .not t => [t]

mutual

/-- The operands of the conjunctions at the top of a term, from left to right. None of them is a
conjunction itself. -/
def conjuncts : Term → List Term
  | .and ts => conjunctsAll ts
  | .var name => [.var name]
  | .const b => [.const b]
  | .or ts => [.or ts]
  | .not t => [.not t]

def conjunctsAll : List Term → List Term
  | [] => []
  | t :: ts => t.conjuncts ++ conjunctsAll ts

end

theorem conjunctsAll_eq (ts : List Term) : conjunctsAll ts = ts.flatMap conjuncts := by
  induction ts with
  | nil => rfl
  | cons t ts ih => rw [conjunctsAll, ih, List.flatMap_cons]

@[simp] theorem conjuncts_and (ts : List Term) : (and ts).conjuncts = ts.flatMap conjuncts := by
  rw [conjuncts, conjunctsAll_eq]

theorem all_conjuncts (value : String → Bool) (t : Term) :
    t.conjuncts.all (·.eval value) = t.eval value := by
  induction t using operandInduction with
  | and ts ih =>
    rw [conjuncts_and, eval_and, Bool.eq_iff_iff]
    simp only [List.all_eq_true, List.mem_flatMap] at ih ⊢
    constructor
    · intro h t mem
      rw [← ih t mem, List.all_eq_true]
      exact fun u hu => h u ⟨t, mem, hu⟩
    · rintro h u ⟨t, mem, hu⟩
      have := h t mem
      rw [← ih t mem, List.all_eq_true] at this
      exact this u hu
  | _ => simp [conjuncts]

theorem names_conjuncts (t : Term) : t.conjuncts.flatMap names = t.names := by
  induction t using operandInduction with
  | and ts ih =>
    rw [conjuncts_and, names_and, List.flatMap_assoc]
    exact List.flatMap_congr ih
  | _ => simp [conjuncts]

theorem eval_congr {value value' : String → Bool} {t : Term}
    (agree : ∀ name ∈ t.names, value name = value' name) : t.eval value = t.eval value' := by
  induction t using operandInduction with
  | var name => simpa using agree
  | const b => simp
  | not t ih =>
    rw [eval_not, eval_not, ih (by simpa using agree)]
  | and ts ih =>
    have same (t : Term) (mem : t ∈ ts) : t.eval value = t.eval value' :=
      ih t mem fun name hn => agree name (by rw [names_and]; exact List.mem_flatMap.2 ⟨t, mem, hn⟩)
    rw [eval_and, eval_and, Bool.eq_iff_iff, List.all_eq_true, List.all_eq_true]
    exact forall₂_congr fun t mem => by rw [same t mem]
  | or ts ih =>
    have same (t : Term) (mem : t ∈ ts) : t.eval value = t.eval value' :=
      ih t mem fun name hn => agree name (by rw [names_or]; exact List.mem_flatMap.2 ⟨t, mem, hn⟩)
    rw [eval_or, eval_or, Bool.eq_iff_iff, List.any_eq_true, List.any_eq_true]
    exact exists_congr fun t => and_congr_right fun mem => by rw [same t mem]

end MissionTime.Term
