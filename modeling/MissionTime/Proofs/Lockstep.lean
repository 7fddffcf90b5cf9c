import MissionTime.Proofs.SearchCourse

/-! Computations in lockstep. Two computations, each with a state of its own, are in lockstep if related
states make them end in the same result and leave them in related states again. A search for a minimal
conflict keeps lockstep if its queries do. -/
namespace MissionTime
open Runs LinearDeletion

variable {ε σ τ α β : Type} {R : σ → τ → Prop}

def Lockstep (R : σ → τ → Prop) (x : ExceptT ε (StateM σ) α) (y : ExceptT ε (StateM τ) α) : Prop :=
  ∀ ⦃s t⦄, R s t → (x.run s).1 = (y.run t).1 ∧ R (x.run s).2 (y.run t).2

namespace Lockstep

theorem pure (a : α) : Lockstep R (Pure.pure a : ExceptT ε (StateM σ) α) (Pure.pure a) :=
  fun _ _ related => ⟨rfl, related⟩

theorem ofExcept (result : Except ε α) :
    Lockstep R (MonadExcept.ofExcept result : ExceptT ε (StateM σ) α) (MonadExcept.ofExcept result) := by
  intro s t related
  rw [run_ofExcept, run_ofExcept]
  exact ⟨rfl, related⟩

/-- Only the results that the first computation can have matter to what follows. -/
theorem bind {x : ExceptT ε (StateM σ) α} {y : ExceptT ε (StateM τ) α}
    {f : α → ExceptT ε (StateM σ) β} {g : α → ExceptT ε (StateM τ) β} (h : Lockstep R x y)
    (next : ∀ a, Yields x a → Lockstep R (f a) (g a)) : Lockstep R (x >>= f) (y >>= g) := by
  intro s t related
  obtain ⟨same, related'⟩ := h related
  rw [run_bind, run_bind]
  rcases runX : x.run s with ⟨result, s'⟩
  rcases runY : y.run t with ⟨result', t'⟩
  rw [runX, runY] at same related'
  cases same
  cases result with
  | error e => exact ⟨rfl, related'⟩
  | ok a => exact next a ⟨s, s', runX⟩ related'

theorem map {x : ExceptT ε (StateM σ) α} {y : ExceptT ε (StateM τ) α} (h : Lockstep R x y)
    (f : α → β) : Lockstep R (f <$> x) (f <$> y) := by
  intro s t related
  obtain ⟨same, related'⟩ := h related
  rw [run_map, run_map, same]
  exact ⟨rfl, related'⟩

theorem get_bind {f : σ → ExceptT ε (StateM σ) β} {g : τ → ExceptT ε (StateM τ) β}
    (next : ∀ s t, R s t → Lockstep R (f s) (g t)) : Lockstep R (get >>= f) (get >>= g) :=
  fun s t related => next s t related related

theorem modify {f : σ → σ} {g : τ → τ} (kept : ∀ ⦃s t⦄, R s t → R (f s) (g t)) :
    Lockstep R (MonadState.modifyGet fun s => (⟨⟩, f s) : ExceptT ε (StateM σ) PUnit)
      (MonadState.modifyGet fun t => (⟨⟩, g t)) :=
  fun _ _ related => ⟨rfl, kept related⟩

theorem forM {f : α → ExceptT ε (StateM σ) PUnit} {g : α → ExceptT ε (StateM τ) PUnit}
    (round : ∀ a, Lockstep R (f a) (g a)) (items : List α) :
    Lockstep R (items.forM f) (items.forM g) := by
  induction items with
  | nil => exact .pure _
  | cons a items ih => exact (round a).bind fun _ _ => ih

end Lockstep

variable {query : List α → ExceptT ε (StateM σ) Bool} {query' : List α → ExceptT ε (StateM τ) Bool}

theorem subset_of_yields_minimalConflict {grown : Bool} {background candidates members : List α}
    (h : Yields (minimalConflict query grown background candidates) members) : members ⊆ candidates := by
  obtain ⟨s, t, run⟩ := h
  obtain ⟨asked, result, t', run', course⟩ := Course.of_run query grown background candidates s
  rw [run] at run'
  cases run'
  exact course.sublist.subset

theorem Lockstep.minimalConflict {all : List α}
    (queries : ∀ xs, xs ⊆ all → Lockstep R (query xs) (query' xs)) (grown : Bool)
    {background candidates : List α} (hb : background ⊆ all) (hc : candidates ⊆ all) :
    Lockstep R (minimalConflict query grown background candidates)
      (minimalConflict query' grown background candidates) := by
  induction hn : candidates.length using Nat.strong_induction_on
    generalizing grown background candidates with
  | h n ih =>
    have divided : Lockstep R (divide query background candidates)
        (divide query' background candidates) := by
      unfold divide
      split_ifs with long
      · have hf : candidates.take (candidates.length / 2) ⊆ all :=
          List.Subset.trans (List.take_subset _ _) hc
        have hs : candidates.drop (candidates.length / 2) ⊆ all :=
          List.Subset.trans (List.drop_subset _ _) hc
        have searchSecond := ih (candidates.drop (candidates.length / 2)).length
          (by rw [List.length_drop]; omega)
          (!(candidates.take (candidates.length / 2)).isEmpty) (List.append_subset.2 ⟨hb, hf⟩) hs rfl
        refine searchSecond.bind fun fromSecond yields => ?_
        have hk := List.Subset.trans (subset_of_yields_minimalConflict yields) hs
        have searchFirst := ih (candidates.take (candidates.length / 2)).length
          (by rw [List.length_take]; omega)
          (!fromSecond.isEmpty) (List.append_subset.2 ⟨hb, hk⟩) hf rfl
        exact searchFirst.bind fun fromFirst _ => .pure _
      · exact .pure candidates
    cases grown with
    | false =>
      rw [minimalConflict_not_grown, minimalConflict_not_grown]
      exact divided
    | true =>
      rw [minimalConflict_grown_eq, minimalConflict_grown_eq]
      refine ((queries background hb).map not).bind fun settled _ => ?_
      cases settled with
      | false => exact divided
      | true => exact .pure []

/-! Analyses on two oracles are in lockstep if their queries are. -/

section Analysis
variable [Oracle σ] [Oracle τ] {R : Progress σ → Progress τ → Prop} {options : Options}
  {sources : List String}

omit [Oracle σ] [Oracle τ] in
theorem Lockstep.prepare (options : Options) (sources : List String)
    (kept : ∀ ⦃p q⦄, R p q → ∀ script, R { p with script := script } { q with script := script }) :
    Lockstep R (Analysis.prepare options sources) (Analysis.prepare options sources) := by
  unfold Analysis.prepare
  refine .bind (.ofExcept _) fun requirements _ => ?_
  cases options.keepScript with
  | false => exact .pure requirements
  | true =>
    refine .bind (.ofExcept _) fun encoding _ => ?_
    exact .bind (.modify fun p q related => kept related _) fun _ _ => .pure requirements

theorem Lockstep.check
    (prepared : Lockstep R (Analysis.prepare options sources) (Analysis.prepare options sources))
    (limited : Lockstep R (Analysis.setDeadline options) (Analysis.setDeadline options))
    (queries : ∀ requirements, Yields (Analysis.prepare options sources : Analysis σ _) requirements →
      Lockstep R (Analysis.consistent options requirements) (Analysis.consistent options requirements)) :
    Lockstep R (Analysis.check options sources) (Analysis.check options sources) :=
  prepared.bind fun requirements yields => limited.bind fun _ _ => queries requirements yields

theorem Lockstep.explain
    (prepared : Lockstep R (Analysis.prepare options sources) (Analysis.prepare options sources))
    (limited : Lockstep R (Analysis.setDeadline options) (Analysis.setDeadline options))
    (queries : ∀ requirements, Yields (Analysis.prepare options sources : Analysis σ _) requirements →
      ∀ part, part ⊆ requirements →
        Lockstep R (Analysis.consistent options part) (Analysis.consistent options part)) :
    Lockstep R (Analysis.explain options sources) (Analysis.explain options sources) := by
  unfold Analysis.explain
  split_ifs
  · exact .pure _
  refine prepared.bind fun requirements yields => ?_
  have queries := queries requirements yields
  refine limited.bind fun _ _ => (queries requirements (List.Subset.refl _)).bind fun compatible _ => ?_
  cases compatible with
  | true => exact .pure _
  | false =>
    refine (Lockstep.minimalConflict queries false (List.nil_subset _) (List.Subset.refl _)).bind ?_
    exact fun members _ => .pure _

end Analysis

end MissionTime
