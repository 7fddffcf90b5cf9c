import MissionTime.Proofs.Meaning
import Mathlib.Data.Nat.Find

/-! Dual operators. A formula does not hold eventually in a window exactly if its negation always holds there.
A `release` denies the `until` of the negated operands. If the window opens at once, the denial is as strong
as the `release`, since the left operand then holds before the right one first fails; if the window opens
later, the denial is weaker. -/
namespace MissionTime
open Runs

namespace Formula
open Unroll

variable {trace : Trace} {w : Interval} {f g : Formula} {t : Nat}

theorem holds_not_eventually_iff :
    (not (eventually w f)).Holds trace t ↔ (always w (not f)).Holds trace t := by
  simp only [Holds, not_exists, not_and]

theorem not_until_of_release (released : (release w f g).Holds trace t) :
    (not (Formula.until w (not f) (not g))).Holds trace t := by
  rintro ⟨k, low, high, fails, awaited⟩
  rcases released with ⟨i, -, -, goal, upto⟩ | throughout
  · rcases Nat.lt_or_ge i k with before | behind
    · exact awaited i before goal
    · exact fails (upto k behind)
  · exact fails (throughout k high)

theorem exists_first_failure {P : Nat → Prop} {last : Nat} (h : ¬ ∀ j, j ≤ last → P j) :
    ∃ k, k ≤ last ∧ ¬ P k ∧ ∀ j, j < k → P j := by
  classical
  have fails : ∃ k, k ≤ last ∧ ¬ P k := by simpa using h
  obtain ⟨inside, failed⟩ := Nat.find_spec fails
  refine ⟨Nat.find fails, inside, failed, fun j before => ?_⟩
  by_contra earlier
  exact Nat.find_min fails before ⟨by omega, earlier⟩

theorem release_of_not_until (atOnce : w.low = 0)
    (h : (not (Formula.until w (not f) (not g))).Holds trace t) : (release w f g).Holds trace t := by
  by_cases throughout : ∀ j, j ≤ w.high → g.Holds trace (t + j)
  · exact .inr throughout
  obtain ⟨k, inside, fails, before⟩ := exists_first_failure throughout
  -- As there is no `until`, the left operand holds at some step before the first failure of the right one.
  have met : ∃ i, i < k ∧ f.Holds trace (t + i) := by
    by_contra missing
    refine h ⟨k, by omega, inside, fails, fun i lt holds => missing ⟨i, lt, holds⟩⟩
  obtain ⟨i, lt, goal⟩ := met
  exact .inl ⟨i, by omega, by omega, goal, fun j le => before j (by omega)⟩

theorem holds_release_iff (atOnce : w.low = 0) :
    (release w f g).Holds trace t ↔ (not (Formula.until w (not f) (not g))).Holds trace t :=
  ⟨not_until_of_release, release_of_not_until atOnce⟩

/-- The terms of dual formulas under every assignment, at every time at which there are such terms. -/
theorem unroll_dualities (f g : Formula) (w : Interval) (time : Nat) (value : String → Bool) :
    (∀ term term', Yields ((not (eventually w f)).unroll time) term →
      Yields ((always w (not f)).unroll time) term' → term.eval value = term'.eval value) ∧
    ∀ term term', Yields ((release w f g).unroll time) term →
      Yields ((not (Formula.until w (not f) (not g))).unroll time) term' →
      (term.eval value = true → term'.eval value = true) ∧
      (w.low = 0 → term.eval value = term'.eval value) := by
  refine ⟨fun term term' yields yields' => ?_, fun term term' yields yields' => ⟨?_, fun atOnce => ?_⟩⟩
  · rw [Bool.eq_iff_iff, meant value _ yields, meant value _ yields', holds_not_eventually_iff]
  · rw [meant value _ yields, meant value _ yields']
    exact not_until_of_release
  · rw [Bool.eq_iff_iff, meant value _ yields, meant value _ yields', holds_release_iff atOnce]

/-- Where the window opens later, the denial can be true of a right operand that has failed before. -/
theorem unroll_dualities_later_window :
    let a := Term.var "a@2"
    let b := Term.var "b@2"
    let a' := Term.var "a@3"
    let b' := Term.var "b@3"
    let released := Term.or [.and [b, b', a'], .and [b, b']]
    let denied := Term.not (.and [.not a, .not b'])
    Yields ((release ⟨1, 1⟩ (.atom "a") (.atom "b")).unroll 2) released ∧
      Yields ((not (Formula.until ⟨1, 1⟩ (not (.atom "a")) (not (.atom "b")))).unroll 2) denied ∧
      (∀ value, released.eval value = true → denied.eval value = true) ∧
      ∃ value, denied.eval value = true ∧ released.eval value = false := by
  intro a b a' b' released denied
  have yields : Yields ((release ⟨1, 1⟩ (.atom "a") (.atom "b")).unroll 2) released := by
    simp only [unroll_release, unroll, within, Interval.WellFormed, branch, collect, later, maxTime]
    exact ⟨{}, _, rfl⟩
  have yields' : Yields ((not (Formula.until ⟨1, 1⟩ (not (.atom "a")) (not (.atom "b")))).unroll 2)
      denied := by
    simp only [unroll_until, unroll, within, Interval.WellFormed, branch, collect, later, maxTime]
    exact ⟨{}, _, rfl⟩
  refine ⟨yields, yields', fun value => ?_, (· == "a@2"), by decide, by decide⟩
  exact ((unroll_dualities (.atom "a") (.atom "b") ⟨1, 1⟩ 2 value).2 _ _ yields yields').1

end Formula
end MissionTime
