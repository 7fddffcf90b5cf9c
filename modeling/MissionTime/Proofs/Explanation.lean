import MissionTime.Analysis.Outcome
import MissionTime.Proofs.Consistency
import MissionTime.Proofs.LinearDeletion
import Mathlib.Data.List.FinRange

/-! Analyses from texts to answers. If all texts of a batch can be read and encoded, a check tells
whether some trace makes them all hold, and an explanation finds the positions of a conflict from
which no text can be taken away. -/
namespace MissionTime
open Runs LinearDeletion

namespace Requirement

variable {sources : List String} {formula : Fin sources.length → Formula}

def ofPosition (sources : List String) (formula : Fin sources.length → Formula)
    (i : Fin sources.length) : Requirement :=
  ⟨i, sources.get i, formula i⟩

theorem ofPosition_injective : Function.Injective (ofPosition sources formula) :=
  fun _ _ same => Fin.ext (congrArg Requirement.index same)

def batch (sources : List String) (formula : Fin sources.length → Formula) : List Requirement :=
  (List.finRange sources.length).map (ofPosition sources formula)

theorem map_formula_ofPosition (positions : List (Fin sources.length)) :
    (positions.map (ofPosition sources formula)).map Requirement.formula = positions.map formula := by
  rw [List.map_map]
  rfl

theorem zipIdx_eq (sources : List String) :
    sources.zipIdx = (List.finRange sources.length).map fun i => (sources.get i, i.val) := by
  apply List.ext_getElem <;> simp

theorem readAll_eq {maxNesting : Nat}
    (parses : ∀ i, Formula.parse maxNesting (sources.get i) = .ok (formula i)) :
    readAll maxNesting sources = .ok (batch sources formula) := by
  rw [readAll, zipIdx_eq, List.mapM_map, batch]
  induction List.finRange sources.length with
  | nil => rfl
  | cons i is ih =>
    rw [List.mapM_cons, ih]
    simp only [Function.comp, parses]
    rfl

theorem hereditary_agree (all : List Requirement) : Hereditary agree all := by
  intro xs ys sub _ h
  rw [agree_eq_true] at h ⊢
  obtain ⟨trace, holds⟩ := h
  exact ⟨trace, fun f mem => holds f (List.map_subset _ sub mem)⟩

theorem agree_nil : agree [] = true := agree_eq_true.2 ⟨fun _ _ => false, nofun⟩

theorem linearDeletion_batch (conflict : agree (batch sources formula) = false) :
    ∃ positions : List (Fin sources.length),
      linearDeletion agree (batch sources formula) = positions.map (ofPosition sources formula) ∧
      positions.Pairwise (· < ·) ∧ ¬ Formula.JointlySatisfiable (positions.map formula) ∧
      ∀ i ∈ positions, Formula.JointlySatisfiable ((positions.erase i).map formula) := by
  have kept := scan_sublist agree [] (batch sources formula).reverse []
  rw [List.reverse_reverse, List.append_nil] at kept
  obtain ⟨positions, sublist, core⟩ := List.sublist_map_iff.1 kept
  have increasing := (List.pairwise_lt_finRange sources.length).sublist sublist
  refine ⟨positions, core, increasing, ?_, fun i mem => ?_⟩
  · have remains : agree ([] ++ scan agree [] (batch sources formula).reverse []) = false :=
      scan_reverse_conflict conflict
    rwa [List.nil_append, core, agree_eq_false, map_formula_ofPosition] at remains
  · have nodup : positions.Nodup := increasing.imp Fin.ne_of_lt
    rw [← map_formula_ofPosition, ← agree_eq_true]
    have all := List.reverse_subset.2 (List.Subset.refl (batch sources formula))
    apply scan_minimal (hereditary_agree _) (List.nil_subset _) all (List.nil_subset _)
      (a := ofPosition sources formula i)
    · rw [core]
      exact List.mem_map_of_mem mem
    · exact List.not_mem_nil
    · intro x hx
      obtain ⟨j, hj, rfl⟩ := List.mem_map.1 hx
      obtain ⟨ne, hj⟩ := (nodup.mem_erase_iff).1 hj
      refine ⟨ofPosition_injective.ne ne, .inr ?_⟩
      rw [core]
      exact List.mem_map_of_mem hj

end Requirement

namespace Analysis

variable {σ : Type} [Oracle σ] {Ready : σ → Prop} {Holds : List String → List Term → σ → Prop}
  {options : Options} {sources : List String} {formula : Fin sources.length → Formula}

/-- All texts of a batch are formulas that can be encoded. -/
structure Admits (options : Options) (sources : List String) (formula : Fin sources.length → Formula) :
    Prop where
  parses : ∀ i, Formula.parse options.maxNesting (sources.get i) = .ok (formula i)
  within : ∀ i, (formula i).horizon ≤ options.maxHorizon
  limit : options.maxHorizon < maxTime

theorem Admits.encodable (admits : Admits options sources formula) :
    ∀ r ∈ Requirement.batch sources formula, r.Encodable options.maxHorizon := by
  intro r mem
  obtain ⟨i, _, rfl⟩ := List.mem_map.1 mem
  have early := Nat.lt_of_le_of_lt (admits.within i) admits.limit
  exact ⟨Formula.fits_of_parse (admits.parses i) early, admits.within i⟩

omit [Oracle σ] in
theorem prepare_run (admits : Admits options sources formula) (p : Progress σ) :
    ∃ script, (prepare options sources).run p =
      (.ok (Requirement.batch sources formula), { p with script := script }) := by
  obtain ⟨encoding, encoded, _⟩ := Requirement.encodeAll_encodes admits.encodable
  rw [prepare, Requirement.readAll_eq admits.parses, run_bind_ok (run_ofExcept _ p)]
  cases options.keepScript with
  | false => exact ⟨p.script, rfl⟩
  | true =>
    refine ⟨some encoding.script, ?_⟩
    simp only [if_true, encoded]
    rfl

omit [Oracle σ] in
theorem begin_run (admits : Admits options sources formula) {p : Progress σ}
    (timely : p.clock.Timely options.timeout p.deadline) :
    ∃ p₁ p₂, (prepare options sources).run p = (.ok (Requirement.batch sources formula), p₁) ∧
      (setDeadline options).run p₁ = (.ok (), p₂) ∧ p₂.oracle = p.oracle ∧
      p₂.clock.Timely options.timeout p₂.deadline := by
  obtain ⟨script, prepared⟩ := prepare_run admits p
  obtain ⟨deadline, looks, limited, timely⟩ :=
    setDeadline_timely (p := { p with script := script }) timely
  exact ⟨_, _, prepared, limited, rfl, timely⟩

theorem check_run (decides : Oracle.Decides Ready Holds) (admits : Admits options sources formula)
    {p : Progress σ} (ready : Ready p.oracle) (timely : p.clock.Timely options.timeout p.deadline) :
    ∃ p', (check options sources).run p =
      (.ok (Requirement.agree (Requirement.batch sources formula)), p') := by
  obtain ⟨p₁, p₂, prepared, limited, same, timely⟩ := begin_run admits timely
  obtain ⟨s, looks, _, answered⟩ := consistent_run decides admits.encodable (same ▸ ready) timely
  exact ⟨_, by rw [check, run_bind_ok prepared, run_bind_ok limited, answered]⟩

/-- The search by halves, on requirements that can be encoded, keeps what linear deletion keeps. -/
theorem minimalConflict_run (decides : Oracle.Decides Ready Holds) {requirements : List Requirement}
    (encodable : ∀ r ∈ requirements, r.Encodable options.maxHorizon)
    (conflict : Requirement.agree requirements = false) {p : Progress σ} (ready : Ready p.oracle)
    (timely : p.clock.Timely options.timeout p.deadline) :
    ∃ p', (minimalConflict (consistent options) false [] requirements).run p =
      (.ok (linearDeletion Requirement.agree requirements), p') := by
  have answers : Answers (consistent options)
      (fun p : Progress σ => Ready p.oracle ∧ p.clock.Timely options.timeout p.deadline)
      Requirement.agree requirements := by
    rintro p ⟨ready, timely⟩ part sub
    obtain ⟨s, looks, ready', run⟩ :=
      consistent_run decides (fun r mem => encodable r (sub mem)) ready timely
    exact ⟨_, ⟨ready', timely.later looks⟩, run⟩
  obtain ⟨p', _, run⟩ := minimalConflict_eq_scan answers (Requirement.hereditary_agree _)
    (List.nil_subset _) (List.Subset.refl _) conflict false (fun _ => Requirement.agree_nil) ⟨ready, timely⟩
  exact ⟨p', run⟩

theorem explain_run (decides : Oracle.Decides Ready Holds) (admits : Admits options sources formula)
    (nonempty : sources ≠ []) {p : Progress σ} (ready : Ready p.oracle)
    (timely : p.clock.Timely options.timeout p.deadline) :
    ∃ p', (explain options sources).run p =
      (.ok (if Requirement.agree (Requirement.batch sources formula) then .noConflict
        else .core (linearDeletion Requirement.agree (Requirement.batch sources formula))), p') := by
  obtain ⟨p₁, p₂, prepared, limited, same, timely⟩ := begin_run admits timely
  obtain ⟨s, looks, ready', answered⟩ := consistent_run decides admits.encodable (same ▸ ready) timely
  rw [explain, if_neg (by simpa using nonempty), run_bind_ok prepared, run_bind_ok limited,
    run_bind_ok answered]
  cases conflict : Requirement.agree (Requirement.batch sources formula) with
  | true => exact ⟨_, rfl⟩
  | false =>
    obtain ⟨p', found⟩ := minimalConflict_run decides admits.encodable conflict
      (p := { p₂ with oracle := s, clock := p₂.clock.later looks, queries := p₂.queries + 1 }) ready'
      (timely.later looks)
    exact ⟨p', run_bind_ok found⟩

end Analysis

namespace Outcome

variable {options : Options} {sources : List String} {formula : Fin sources.length → Formula}

theorem check_result (host : Host) {clock : Clock} (inTime : clock.InTime options.timeout)
    (admits : Analysis.Admits options sources formula) :
    (check host clock .internal options sources).result =
      .ok (Requirement.agree (Requirement.batch sources formula)) := by
  obtain ⟨p, run⟩ := Analysis.check_run Backend.decides admits (p := { oracle := .clausal {}, clock })
    ⟨{}, rfl, trivial⟩ inTime.timely
  exact congrArg Prod.fst run

theorem explain_result (host : Host) {clock : Clock} (inTime : clock.InTime options.timeout)
    (admits : Analysis.Admits options sources formula) (nonempty : sources ≠ []) :
    (explain host clock .internal options sources).result =
      .ok (if Requirement.agree (Requirement.batch sources formula) then .noConflict
        else .core (linearDeletion Requirement.agree (Requirement.batch sources formula))) := by
  obtain ⟨p, run⟩ := Analysis.explain_run Backend.decides admits nonempty
    (p := { oracle := .clausal {}, clock }) ⟨{}, rfl, trivial⟩ inTime.timely
  rw [explain, if_neg (by simpa using nonempty)]
  exact congrArg Prod.fst run

/-- With the internal oracle and in time, a batch of texts that can be read and encoded is found satisfiable
exactly if some trace makes all of them hold at time 0. Otherwise the explanation lists the texts at an
increasing sequence of positions, which no trace makes hold together, while for each of them some
trace makes all others hold. -/
theorem internal_decides_jointlySatisfiable (host : Host) (clock : Clock) (options : Options)
    (inTime : clock.InTime options.timeout) (sources : List String) (nonempty : sources ≠ [])
    (formula : Fin sources.length → Formula)
    (parses : ∀ i, Formula.parse options.maxNesting (sources.get i) = .ok (formula i))
    (within : ∀ i, (formula i).horizon ≤ options.maxHorizon) (limit : options.maxHorizon < maxTime) :
    ((check host clock .internal options sources).result = .ok true ↔
      Formula.JointlySatisfiable (List.ofFn formula)) ∧
    ((explain host clock .internal options sources).result = .ok .noConflict ↔
      Formula.JointlySatisfiable (List.ofFn formula)) ∧
    (¬ Formula.JointlySatisfiable (List.ofFn formula) →
      (check host clock .internal options sources).result = .ok false ∧
      ∃ positions : List (Fin sources.length),
        (explain host clock .internal options sources).result =
          .ok (.core (positions.map fun i : Fin _ => ⟨i, sources.get i, formula i⟩)) ∧
        positions.Pairwise (· < ·) ∧ ¬ Formula.JointlySatisfiable (positions.map formula) ∧
        ∀ i ∈ positions, Formula.JointlySatisfiable ((positions.erase i).map formula)) := by
  have admits : Analysis.Admits options sources formula := ⟨parses, within, limit⟩
  have formulas : (Requirement.batch sources formula).map Requirement.formula = List.ofFn formula := by
    rw [Requirement.batch, Requirement.map_formula_ofPosition, List.ofFn_eq_map]
  rw [check_result host inTime admits, explain_result host inTime admits nonempty, ← formulas,
    ← Requirement.agree_eq_true]
  refine ⟨?_, ?_, fun conflict => ?_⟩
  · simp
  · cases Requirement.agree (Requirement.batch sources formula) <;> simp
  · rw [Bool.not_eq_true] at conflict
    obtain ⟨positions, core, minimal⟩ := Requirement.linearDeletion_batch conflict
    refine ⟨by rw [conflict], positions, ?_, minimal⟩
    rw [conflict, core]
    rfl

theorem internal_decides_jointlySatisfiable_until :
    let sources := ["p", "G[0,2] q", "p U[1,2] !q"]
    let formula : Fin 3 → Formula :=
      [.atom "p", .always ⟨0, 2⟩ (.atom "q"), .until ⟨1, 2⟩ (.atom "p") (.not (.atom "q"))].get
    (∀ i : Fin 3, Formula.parse ({} : Options).maxNesting (sources.get i) = .ok (formula i)) ∧
    (∀ i, (formula i).horizon ≤ ({} : Options).maxHorizon) ∧ ({} : Options).maxHorizon < maxTime ∧
    (check (fun _ => none) (.still 0) .internal {} sources).result = .ok false ∧
    ∃ positions : List (Fin 3),
      (explain (fun _ => none) (.still 0) .internal {} sources).result =
        .ok (.core (positions.map fun i : Fin 3 => ⟨i, sources.get i, formula i⟩)) ∧
      positions.Pairwise (· < ·) ∧ ¬ Formula.JointlySatisfiable (positions.map formula) ∧
      ∀ i ∈ positions, Formula.JointlySatisfiable ((positions.erase i).map formula) := by
  intro sources formula
  have parses : ∀ i : Fin 3,
      Formula.parse ({} : Options).maxNesting (sources.get i) = .ok (formula i) := by
    have read : ∀ i : Fin 3,
        (Formula.parse ({} : Options).maxNesting (sources.get i)).toOption = some (formula i) := by
      decide +kernel
    intro i
    have found := read i
    cases parsed : Formula.parse ({} : Options).maxNesting (sources.get i) with
    | error diagnostic =>
      rw [parsed] at found
      cases found
    | ok f =>
      rw [parsed] at found
      rw [Option.some.inj found]
  have within : ∀ i, (formula i).horizon ≤ ({} : Options).maxHorizon := by
    simp only [Formula.horizon_eq]
    decide
  have limit : ({} : Options).maxHorizon < maxTime := by decide
  have correct := internal_decides_jointlySatisfiable (fun _ => none) (.still 0) {} (Clock.inTime_zero _)
    sources (by simp [sources]) formula parses within limit
  refine ⟨parses, within, limit, correct.2.2 ?_⟩
  -- The second text asks for `q` at every step at which the third may ask for its opposite.
  rintro ⟨trace, holds⟩
  have throughout := holds (formula 1) (List.mem_ofFn.2 ⟨1, rfl⟩)
  obtain ⟨k, low, high, missing, _⟩ := holds (formula 2) (List.mem_ofFn.2 ⟨2, rfl⟩)
  exact missing (throughout k (Nat.zero_le k) high)

end Outcome
end MissionTime
