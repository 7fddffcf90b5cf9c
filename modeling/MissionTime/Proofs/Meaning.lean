import MissionTime.Formula.Semantics
import MissionTime.Proofs.Symbol
import MissionTime.Proofs.Unrolling

/-! What the term of an unrolling means. Under any assignment of the symbols it has the truth value that
the formula has on the trace of the assignment. -/
namespace MissionTime
open Runs

namespace Formula

theorem forall_operands_iff (c : Connective) {P : Formula → Prop}
    (join : ∀ f g, P (c.join f g) ↔ P f ∧ P g) (f : Formula) : (∀ h ∈ f.operands c, P h) ↔ P f := by
  induction f using alongChain c with
  | join f g ih => rw [operands_join, List.forall_mem_append, List.forall_mem_singleton, ih, join]
  | single f alone => rw [operands_single alone, List.forall_mem_singleton]

theorem holds_iff_all (trace : Trace) (f : Formula) (t : Nat) :
    f.Holds trace t ↔ ∀ h ∈ f.operands .and, h.Holds trace t :=
  (forall_operands_iff .and (P := (·.Holds trace t)) (fun _ _ => Iff.rfl) f).symm

theorem holds_iff_any (trace : Trace) (f : Formula) (t : Nat) :
    f.Holds trace t ↔ ∃ h ∈ f.operands .or, h.Holds trace t := by
  have fails := forall_operands_iff .or (P := (¬ ·.Holds trace t)) (fun _ _ => not_or) f
  rw [← not_iff_not, ← fails]
  simp

end Formula

namespace Unroll

theorem yields_register {atom : TimedAtom} {term : Term} (h : Yields (register atom) term) :
    term = .var atom.symbol := by
  obtain ⟨table, table', run⟩ := h
  rw [register_run] at run
  cases run
  rfl

theorem yields_later {time offset : Nat} {f : Nat → Unroll Term} {term : Term}
    (h : Yields (later time offset f) term) :
    time + offset ≤ maxTime ∧ Yields (f (time + offset)) term := by
  unfold later at h
  split_ifs at h with le
  · exact ⟨le, h⟩
  · exact absurd h (not_yields_throw _ _)

theorem yields_collect {f : Nat → Unroll Term} {first count : Nat} {terms : List Term}
    (h : Yields (collect f first count) terms) :
    List.Forall₂ (fun k term => Yields (f k) term) (List.range' first count) terms := by
  induction count generalizing first terms with
  | zero =>
    rw [h.eq_of_pure]
    exact .nil
  | succ count ih =>
    obtain ⟨term, hterm, h⟩ := h.of_bind
    obtain ⟨rest, hrest, h⟩ := h.of_bind
    rw [h.eq_of_pure, List.range'_succ]
    exact .cons hterm (ih hrest)

theorem yields_within {w : Interval} {f : Nat → Unroll Term} {terms : List Term}
    (h : Yields (within w f) terms) :
    w.WellFormed ∧ List.Forall₂ (fun k term => Yields (f k) term)
      (List.range' w.low (w.high + 1 - w.low)) terms := by
  unfold within at h
  split_ifs at h with ordered
  · exact ⟨ordered, yields_collect h⟩
  · exact absurd h (not_yields_throw _ _)

end Unroll

theorem all_iff_of_forall₂ {α β : Type} {R : α → β → Prop} {P : α → Prop} {p : β → Bool}
    {as : List α} {bs : List β} (related : List.Forall₂ R as bs)
    (matching : ∀ a ∈ as, ∀ b, R a b → (p b = true ↔ P a)) :
    bs.all p = true ↔ ∀ a ∈ as, P a := by
  induction related with
  | nil => simp
  | cons hr _ ih =>
    rw [List.all_cons, Bool.and_eq_true, List.forall_mem_cons, matching _ (by simp) _ hr,
      ih fun a mem => matching a (List.mem_cons_of_mem _ mem)]

theorem any_iff_of_forall₂ {α β : Type} {R : α → β → Prop} {P : α → Prop} {p : β → Bool}
    {as : List α} {bs : List β} (related : List.Forall₂ R as bs)
    (matching : ∀ a ∈ as, ∀ b, R a b → (p b = true ↔ P a)) :
    bs.any p = true ↔ ∃ a ∈ as, P a := by
  induction related with
  | nil => simp
  | cons hr _ ih =>
    rw [List.any_cons, Bool.or_eq_true, List.exists_mem_cons_iff, matching _ (by simp) _ hr,
      ih fun a mem => matching a (List.mem_cons_of_mem _ mem)]

namespace Formula
open Unroll

variable {value : String → Bool} {f g : Formula}

/-- The terms of a formula have, at every time, its truth values on the trace of `value`. -/
def Meant (value : String → Bool) (f : Formula) : Prop :=
  ∀ ⦃t term⦄, Yields (f.unroll t) term →
    (term.eval value = true ↔ f.Holds (Trace.ofAssignment value) t)

theorem Meant.at_offset (meant : f.Meant value) {t k : Nat} {term : Term}
    (h : Yields (later t k f.unroll) term) :
    term.eval value = true ↔ f.Holds (Trace.ofAssignment value) (t + k) :=
  meant (yields_later h).2

theorem Meant.before (meant : f.Meant value) {t count : Nat} {terms : List Term}
    (h : Yields (collect (fun k => later t k f.unroll) 0 count) terms) :
    terms.all (·.eval value) = true ↔
      ∀ j, j < count → f.Holds (Trace.ofAssignment value) (t + j) := by
  rw [all_iff_of_forall₂ (yields_collect h) fun k _ term hk => meant.at_offset hk]
  simp [List.mem_range'_1]

theorem meant_atom (name : String) : (atom name).Meant value := by
  intro t term h
  rw [unroll] at h
  rw [yields_register h, Term.eval_var]
  rfl

theorem Meant.not (meant : f.Meant value) : (not f).Meant value := by
  intro t term h
  rw [unroll] at h
  obtain ⟨inner, hinner, h⟩ := h.of_bind
  rw [h.eq_of_pure, Term.eval_not, Holds, ← meant hinner]
  simp

theorem meant_join (c : Connective) (meant : ∀ h ∈ (c.join f g).operands c, h.Meant value) :
    (c.join f g).Meant value := by
  intro t term h
  rw [unroll_join] at h
  obtain ⟨terms, hterms, h⟩ := h.of_bind
  have each : ∀ h ∈ (c.join f g).operands c, ∀ term, Yields (h.unroll t) term →
      (term.eval value = true ↔ h.Holds (Trace.ofAssignment value) t) := fun h mem _ hterm => meant h mem hterm
  rw [h.eq_of_pure]
  cases c with
  | and => rw [Connective.term, Term.eval_and, all_iff_of_forall₂ hterms.of_mapM each, ← holds_iff_all]
  | or => rw [Connective.term, Term.eval_or, any_iff_of_forall₂ hterms.of_mapM each, ← holds_iff_any]

theorem Meant.eventually (meant : f.Meant value) (w : Interval) : (eventually w f).Meant value := by
  intro t term h
  rw [unroll] at h
  obtain ⟨terms, hterms, h⟩ := h.of_bind
  obtain ⟨ordered, hterms⟩ := yields_within hterms
  rw [h.eq_of_pure, Term.eval_disj, any_iff_of_forall₂ hterms fun k _ term hk => meant.at_offset hk, Holds]
  simp only [Interval.mem_steps ordered, and_assoc]

theorem Meant.always (meant : f.Meant value) (w : Interval) : (always w f).Meant value := by
  intro t term h
  rw [unroll] at h
  obtain ⟨terms, hterms, h⟩ := h.of_bind
  obtain ⟨ordered, hterms⟩ := yields_within hterms
  rw [h.eq_of_pure, Term.eval_conj, all_iff_of_forall₂ hterms fun k _ term hk => meant.at_offset hk, Holds]
  simp only [Interval.mem_steps ordered, and_imp]

theorem Meant.branch (hf : f.Meant value) (hg : g.Meant value) {t count k : Nat} {term : Term}
    (h : Yields (branch f.unroll g.unroll t count k) term) :
    term.eval value = true ↔ g.Holds (Trace.ofAssignment value) (t + k) ∧
      ∀ j, j < count → f.Holds (Trace.ofAssignment value) (t + j) := by
  obtain ⟨before, hbefore, h⟩ := h.of_bind
  obtain ⟨goal, hgoal, h⟩ := h.of_bind
  rw [h.eq_of_pure, Term.eval_conj, List.all_append, Bool.and_eq_true, hf.before hbefore,
    List.all_cons, List.all_nil, Bool.and_true, hg.at_offset hgoal, and_comm]

theorem Meant.until (hf : f.Meant value) (hg : g.Meant value) (w : Interval) :
    (Formula.until w f g).Meant value := by
  intro t term h
  rw [unroll_until] at h
  obtain ⟨branches, hbranches, h⟩ := h.of_bind
  obtain ⟨ordered, hbranches⟩ := yields_within hbranches
  rw [h.eq_of_pure, Term.eval_disj, any_iff_of_forall₂ hbranches fun k _ term hk => hf.branch hg hk, Holds]
  simp only [Interval.mem_steps ordered, and_assoc]

theorem Meant.release (hf : f.Meant value) (hg : g.Meant value) (w : Interval) :
    (Formula.release w f g).Meant value := by
  intro t term h
  rw [unroll_release] at h
  obtain ⟨branches, hbranches, h⟩ := h.of_bind
  obtain ⟨throughout, hthroughout, h⟩ := h.of_bind
  obtain ⟨ordered, hbranches⟩ := yields_within hbranches
  rw [h.eq_of_pure, Term.eval_disj, List.any_append, Bool.or_eq_true,
    any_iff_of_forall₂ hbranches fun k _ term hk => hg.branch hf hk, List.any_cons, List.any_nil,
    Bool.or_false, Term.eval_conj, hg.before hthroughout, Holds]
  simp only [Interval.mem_steps ordered, and_assoc, Nat.lt_succ_iff]

theorem meant (value : String → Bool) (f : Formula) : f.Meant value := by
  induction f using chainInduction with
  | atom name => exact meant_atom name
  | not f ih => exact ih.not
  | chain c f g ih => exact meant_join c ih
  | eventually w f ih => exact ih.eventually w
  | always w f ih => exact ih.always w
  | «until» w f g ihf ihg => exact ihf.until ihg w
  | release w f g ihf ihg => exact ihf.release ihg w

/-- The unrolling preserves meaning, and the table has no part in it. -/
theorem unroll_preserves_meaning (f : Formula) (time : Nat) (table : AtomTable) :
    (∀ term table', (f.unroll time).run table = (.ok term, table') → ∀ trace : Trace,
      (∃ value : String → Bool, ∀ name i, value (TimedAtom.symbol ⟨name, i⟩) = trace name i) ∧
      ∀ value : String → Bool, (∀ name i, value (TimedAtom.symbol ⟨name, i⟩) = trace name i) →
        (term.eval value = true ↔ f.Holds trace time)) ∧
    ∀ table', ((f.unroll time).run table').1 = ((f.unroll time).run table).1 := by
  refine ⟨fun term table' run trace => ⟨?_, fun value same => ?_⟩, fun table' => ?_⟩
  · exact ⟨trace.assignment, trace.assignment_symbol⟩
  · have traced : Trace.ofAssignment value = trace := by
      funext name i
      exact same name i
    rw [← traced]
    exact meant value f ⟨table, table', run⟩
  · exact f.unroll_fst_eq time table' table

theorem unroll_preserves_meaning_until :
    ∃ table', ((Formula.until ⟨1, 2⟩ (.atom "p") (.atom "q")).unroll 3).run ({} : AtomTable) =
        (.ok (.or [.and [.var "p@3", .var "q@4"], .and [.var "p@3", .var "p@4", .var "q@5"]]), table') ∧
      ∀ (trace : Trace) (value : String → Bool),
        (∀ name i, value (TimedAtom.symbol ⟨name, i⟩) = trace name i) →
        ((Term.or [.and [.var "p@3", .var "q@4"],
          .and [.var "p@3", .var "p@4", .var "q@5"]]).eval value = true ↔
        (Formula.until ⟨1, 2⟩ (.atom "p") (.atom "q")).Holds trace 3) := by
  obtain ⟨table', run⟩ : ∃ table',
      ((Formula.until ⟨1, 2⟩ (.atom "p") (.atom "q")).unroll 3).run ({} : AtomTable) =
        (.ok (.or [.and [.var "p@3", .var "q@4"], .and [.var "p@3", .var "p@4", .var "q@5"]]), table') := by
    simp only [unroll_until, unroll, within, Interval.WellFormed, branch, collect, later, maxTime]
    exact ⟨_, rfl⟩
  exact ⟨table', run, fun trace => ((unroll_preserves_meaning _ 3 {}).1 _ _ run trace).2⟩

end Formula

end MissionTime
