import MissionTime.ClauseSet
import Std.Data.TreeSet

/-! Clauses that follow from a clause set. The clauses of the set follow from it, and so does the
resolvent of any two clauses that do; an empty clause that follows refutes the set. -/
namespace MissionTime
namespace Literal

instance : Ord Literal := ⟨compareOn code⟩

instance : Std.TransOrd Literal := inferInstanceAs (Std.TransCmp (compareOn code))

instance : Std.LawfulEqOrd Literal where
  eq_of_compare {l m} h := by
    obtain ⟨code⟩ := l
    obtain ⟨code'⟩ := m
    simpa using Nat.compare_eq_eq.1 h

end Literal

/-- A disjunction that every satisfying assignment of `clauses` makes true. -/
structure Consequence (clauses : ClauseSet) where
  literals : Std.TreeSet Literal
  holds : ∀ value, clauses.eval value = true → ∃ l ∈ literals, l.eval value = true

namespace Consequence

variable {clauses : ClauseSet}

def ofMem {c : Clause} (mem : c ∈ clauses) : Consequence clauses where
  literals := .ofList c
  holds value h := by
    obtain ⟨l, hl, value_l⟩ := List.any_eq_true.1 (List.all_eq_true.1 h c mem)
    exact ⟨l, Std.TreeSet.mem_ofList.2 (by simpa using hl), value_l⟩

def resolve (l : Literal) (c d : Consequence clauses) : Consequence clauses where
  literals := c.literals.erase l.negate ∪ d.literals.erase l
  holds value h := by
    obtain ⟨m, hm, value_m⟩ := c.holds value h
    by_cases eq : l.negate = m
    · obtain ⟨k, hk, value_k⟩ := d.holds value h
      refine ⟨k, Std.TreeSet.mem_union_iff.2 (.inr (Std.TreeSet.mem_erase.2 ⟨?_, hk⟩)), value_k⟩
      intro same
      have := Std.LawfulEqOrd.eq_of_compare same
      subst this eq
      simp [value_k] at value_m
    · exact ⟨m, Std.TreeSet.mem_union_iff.2 (.inl (Std.TreeSet.mem_erase.2
        ⟨fun same => eq (Std.LawfulEqOrd.eq_of_compare same), hm⟩)), value_m⟩

theorem eval_eq_false (c : Consequence clauses) (empty : c.literals.isEmpty = true)
    (value : Nat → Bool) : clauses.eval value = false := by
  rw [Bool.eq_false_iff]
  intro h
  obtain ⟨l, hl, _⟩ := c.holds value h
  exact Std.TreeSet.isEmpty_iff_forall_not_mem.1 empty l hl

end Consequence
end MissionTime
