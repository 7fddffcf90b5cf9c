import MissionTime.Proofs.ClausalRuns

/-! How many clauses an assertion adds. A connective with `n` operands costs `n + 1` clauses and a constant
one, the first time; an operand counts one less than twice its nodes, so that the clause which holds it
to its connective, or to the assertion, is paid for by the operand itself. -/
namespace MissionTime

namespace Term

theorem size_pos (t : Term) : 0 < t.size := by
  cases t <;> simp [size]

theorem length_le_sizeAll (ts : List Term) : ts.length ≤ sizeAll ts := by
  induction ts with
  | nil => exact Nat.le_refl _
  | cons t ts ih =>
    have := t.size_pos
    rw [List.length_cons, sizeAll]
    omega

theorem sizeAll_append (ts us : List Term) : sizeAll (ts ++ us) = sizeAll ts + sizeAll us := by
  induction ts with
  | nil => simp [sizeAll]
  | cons t ts ih => rw [List.cons_append, sizeAll, sizeAll, ih, Nat.add_assoc]

theorem sizeAll_conjuncts_le (t : Term) : sizeAll t.conjuncts ≤ t.size := by
  induction t using operandInduction with
  | and ts ih =>
    have operands : sizeAll (ts.flatMap conjuncts) ≤ sizeAll ts := by
      induction ts with
      | nil => exact Nat.le_refl _
      | cons t ts ihs =>
        obtain ⟨first, rest⟩ := List.forall_mem_cons.1 ih
        rw [List.flatMap_cons, sizeAll_append, sizeAll]
        exact Nat.add_le_add first (ihs rest)
    rw [conjuncts_and, size]
    omega
  | _ => simp [conjuncts, sizeAll]

end Term

namespace Clausal
open Runs

variable {α β : Type} {least least' most most' : Nat}

/-- A computation that keeps the clauses and adds at most `most`, whatever comes of it, and at least `least`
if it succeeds. -/
def Adds (least most : Nat) (x : Call Clausal α) : Prop :=
  ∀ s, ∃ added : ClauseSet, (x.run s).2.clauses = added ++ s.clauses ∧ added.length ≤ most ∧
    ∀ a, (x.run s).1 = .ok a → least ≤ added.length

section Adds

variable {x : Call Clausal α} {f : α → Call Clausal β}

theorem adds_pure (a : α) : Adds 0 0 (pure a) :=
  fun _ => ⟨[], rfl, Nat.le_refl 0, fun _ _ => Nat.le_refl 0⟩

theorem Adds.bind (first : Adds least most x) (second : ∀ a, Yields x a → Adds least' most' (f a)) :
    Adds (least + least') (most + most') (x >>= f) := by
  intro s
  obtain ⟨added, clauses, few, enough⟩ := first s
  rw [run_bind]
  rcases run : x.run s with ⟨e | a, t⟩ <;> rw [run] at clauses enough
  · exact ⟨added, clauses, by omega, by simp⟩
  · have reached := enough a rfl
    obtain ⟨added', clauses', few', enough'⟩ := second a ⟨s, t, run⟩ t
    refine ⟨added' ++ added, ?_, ?_, fun b same => ?_⟩
    · rw [List.append_assoc, ← clauses]
      exact clauses'
    · rw [List.length_append]
      omega
    · have reached' := enough' b same
      rw [List.length_append]
      omega

theorem Adds.map (g : α → β) (h : Adds least most x) : Adds least most (g <$> x) := by
  rw [map_eq_pure_bind]
  exact h.bind fun a _ => adds_pure (g a)

theorem Adds.weaken (h : Adds least most x) (fewer : least' ≤ least) (more : most ≤ most') :
    Adds least' most' x := by
  intro s
  obtain ⟨added, clauses, few, enough⟩ := h s
  exact ⟨added, clauses, Nat.le_trans few more, fun a same => Nat.le_trans fewer (enough a same)⟩

end Adds

theorem adds_addClause (c : Clause) : Adds 1 1 (addClause c) :=
  fun _ => ⟨[c], rfl, Nat.le_refl 1, fun _ _ => Nat.le_refl 1⟩

theorem adds_literalOf (name : String) : Adds 0 0 (literalOf name) := by
  intro s
  rw [literalOf_run]
  exact ⟨[], rfl, Nat.le_refl 0, fun _ _ => Nat.le_refl 0⟩

theorem adds_trueLiteral : Adds 0 1 trueLiteral := by
  intro s
  rw [trueLiteral_run]
  cases s.truth with
  | some l => exact ⟨[], rfl, Nat.zero_le 1, fun _ _ => Nat.zero_le _⟩
  | none => exact ⟨[[.of s.next true]], rfl, Nat.le_refl 1, fun _ _ => Nat.zero_le _⟩

theorem adds_conjunction (ls : List Literal) : Adds 0 (ls.length + 1) (conjunction ls) := by
  intro s
  rw [conjunction_run]
  refine ⟨ClauseSet.conjunctionOf (.of s.next true) ls, rfl, ?_, fun _ _ => Nat.zero_le _⟩
  simp [ClauseSet.conjunctionOf]

theorem adds_disjunction (ls : List Literal) : Adds 0 (ls.length + 1) (disjunction ls) := by
  intro s
  rw [disjunction_run]
  refine ⟨ClauseSet.disjunctionOf (.of s.next true) ls, rfl, ?_, fun _ _ => Nat.zero_le _⟩
  simp [ClauseSet.disjunctionOf]

theorem length_of_yields_gates {ts : List Term} {ls : List Literal} (h : Yields (gates ts) ls) :
    ls.length = ts.length := by
  induction ts generalizing ls with
  | nil =>
    rw [gates] at h
    rw [h.eq_of_pure]
    rfl
  | cons t ts ih =>
    rw [gates] at h
    obtain ⟨l, -, h⟩ := h.of_bind
    obtain ⟨ls', rest, h⟩ := h.of_bind
    rw [h.eq_of_pure, List.length_cons, List.length_cons, ih rest]

theorem adds_gates {ts : List Term} (gated : ∀ t ∈ ts, Adds 0 (2 * t.size - 1) (gate t)) :
    Adds 0 (2 * Term.sizeAll ts - ts.length) (gates ts) := by
  induction ts with
  | nil => exact adds_pure []
  | cons t ts ih =>
    obtain ⟨first, rest⟩ := List.forall_mem_cons.1 gated
    -- Each operand leaves one clause of its share for the connective above it.
    have paid : 2 * t.size - 1 + (2 * Term.sizeAll ts - ts.length) =
        2 * Term.sizeAll (t :: ts) - (t :: ts).length := by
      have := t.size_pos
      have := Term.length_le_sizeAll ts
      rw [Term.sizeAll, List.length_cons]
      omega
    rw [gates, ← paid]
    exact first.bind fun l _ => (ih rest).bind fun ls _ => adds_pure (l :: ls)

theorem adds_connective {ts : List Term} {join : List Literal → Call Clausal Literal}
    (gated : ∀ t ∈ ts, Adds 0 (2 * t.size - 1) (gate t))
    (joined : ∀ ls, Adds 0 (ls.length + 1) (join ls)) :
    Adds 0 (2 * (Term.sizeAll ts + 1) - 1) (gates ts >>= join) := by
  have paid : 2 * Term.sizeAll ts - ts.length + (ts.length + 1) = 2 * (Term.sizeAll ts + 1) - 1 := by
    have := Term.length_le_sizeAll ts
    omega
  rw [← paid]
  exact (adds_gates gated).bind fun ls yields => length_of_yields_gates yields ▸ joined ls

theorem adds_single {t : Term} (h : Adds 0 (2 * t.size - 1) (gate t)) :
    Adds 0 (2 * (Term.sizeAll [t] + 1) - 1) (gate t) := by
  refine h.weaken (Nat.le_refl 0) ?_
  rw [Term.sizeAll, Term.sizeAll]
  omega

theorem adds_gate (t : Term) : Adds 0 (2 * t.size - 1) (gate t) := by
  induction t using Term.operandInduction with
  | var name =>
    rw [gate]
    exact (adds_literalOf name).weaken (Nat.le_refl 0) (Nat.zero_le _)
  | const b =>
    rw [Term.size]
    cases b with
    | true =>
      rw [gate]
      exact adds_trueLiteral
    | false =>
      rw [gate]
      exact adds_trueLiteral.map Literal.negate
  | not t ih =>
    rw [gate, Term.size]
    exact (ih.map Literal.negate).weaken (Nat.le_refl 0) (by omega)
  | and ts ih =>
    rw [Term.size]
    rcases ts with _ | ⟨t, _ | ⟨u, ts⟩⟩
    · rw [gate]
      exact adds_trueLiteral
    · rw [gate]
      exact adds_single (ih t List.mem_cons_self)
    · rw [gate]
      · exact adds_connective ih adds_conjunction
      all_goals simp
  | or ts ih =>
    rw [Term.size]
    rcases ts with _ | ⟨t, _ | ⟨u, ts⟩⟩
    · rw [gate]
      exact adds_trueLiteral.map Literal.negate
    · rw [gate]
      exact adds_single (ih t List.mem_cons_self)
    · rw [gate]
      · exact adds_connective ih adds_disjunction
      all_goals simp

theorem adds_assertConjunct (t : Term) : Adds 1 (2 * t.size) (assertConjunct t) := by
  have root := (adds_gate t).bind fun l _ => adds_addClause [l]
  have := t.size_pos
  exact root.weaken (Nat.le_refl 1) (by omega)

theorem adds_assertConjuncts (ts : List Term) :
    Adds ts.length (2 * Term.sizeAll ts) (ts.forM assertConjunct) := by
  induction ts with
  | nil => exact adds_pure PUnit.unit
  | cons t ts ih =>
    rw [List.forM, Term.sizeAll, List.length_cons, Nat.mul_add, Nat.add_comm ts.length]
    exact (adds_assertConjunct t).bind fun _ _ => ih

/-- An assertion adds at most two clauses for each node of its term, whether it is accepted or refused, in
every state of the oracle. It keeps the clauses that are there, and an accepted term adds at least one
clause for each of its conjuncts. -/
theorem clauseCount_assertTerm_le (t : Term) (s : Clausal) :
    ((assertTerm t).run s).2.clauseCount ≤ s.clauseCount + 2 * t.size ∧
    s.clauses <:+ ((assertTerm t).run s).2.clauses ∧
    (((assertTerm t).run s).1 = .ok () →
      s.clauseCount + t.conjuncts.length ≤ ((assertTerm t).run s).2.clauseCount) := by
  obtain ⟨added, clauses, few, enough⟩ := adds_assertConjuncts t.conjuncts s
  rw [← assertTerm_eq] at clauses enough
  have parts := t.sizeAll_conjuncts_le
  simp only [clauseCount, clauses, List.length_append]
  refine ⟨by omega, List.suffix_append added s.clauses, fun accepted => ?_⟩
  have := enough () accepted
  omega

example : ((assertTerm (.const true)).run {}).2.clauseCount = 2 * (Term.const true).size := rfl

end Clausal
end MissionTime
