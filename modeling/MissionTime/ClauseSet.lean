/-! Literals, clauses and sets of clauses. -/
namespace MissionTime

/-- A variable or its negation as one number: twice the variable, and one more if it is not negated. -/
structure Literal where
  code : Nat
deriving DecidableEq

namespace Literal

def of (index : Nat) (positive : Bool) : Literal := ⟨2 * index + positive.toNat⟩

def index (l : Literal) : Nat := l.code / 2

def positive (l : Literal) : Bool := l.code % 2 == 1

def negate (l : Literal) : Literal := ⟨if l.code % 2 = 0 then l.code + 1 else l.code - 1⟩

def eval (value : Nat → Bool) (l : Literal) : Bool := value l.index == l.positive

@[simp]
theorem index_of (index : Nat) (positive : Bool) : (of index positive).index = index := by
  cases positive <;> simp only [of, Literal.index, Bool.toNat_true, Bool.toNat_false] <;> omega

@[simp]
theorem positive_of (index : Nat) (positive : Bool) : (of index positive).positive = positive := by
  cases positive <;> simp [of, Literal.positive]

@[simp]
theorem index_negate (l : Literal) : l.negate.index = l.index := by
  simp only [negate, index]
  split <;> omega

@[simp]
theorem positive_negate (l : Literal) : l.negate.positive = !l.positive := by
  rw [Bool.eq_iff_iff]
  simp only [negate, positive]
  split <;> simp <;> omega

@[simp]
theorem negate_negate (l : Literal) : l.negate.negate = l := by
  obtain ⟨code⟩ := l
  simp only [negate, mk.injEq]
  split <;> split <;> omega

@[simp]
theorem eval_negate (value : Nat → Bool) (l : Literal) :
    l.negate.eval value = !l.eval value := by
  simp only [eval, index_negate, positive_negate]
  cases value l.index <;> cases l.positive <;> rfl

theorem eq_or_eq_negate {l m : Literal} (h : l.index = m.index) : l = m ∨ l = m.negate := by
  obtain ⟨code⟩ := l
  obtain ⟨code'⟩ := m
  simp only [index, negate, mk.injEq] at *
  split <;> omega

end Literal

abbrev Clause := List Literal

def Clause.eval (value : Nat → Bool) (c : Clause) : Bool := c.any (·.eval value)

abbrev ClauseSet := List Clause

namespace ClauseSet

def eval (value : Nat → Bool) (clauses : ClauseSet) : Bool := clauses.all (·.eval value)

def Satisfiable (clauses : ClauseSet) : Prop := ∃ value, clauses.eval value = true

end ClauseSet
end MissionTime
