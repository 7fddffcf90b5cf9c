import MissionTime.Oracle.Recorder
import MissionTime.Proofs.Explanation
import MissionTime.Proofs.Lockstep

/-! What an explanation costs, whatever the oracle answers. A recorded explanation keeps the positions
that each of its queries is about and is otherwise the explanation itself. After the query about the
whole batch, every query is about a proper part of it, and there are few of them. -/
namespace MissionTime
open Runs

namespace Requirement

theorem forall₂_of_readAll {maxNesting : Nat} {sources : List String} {requirements : List Requirement}
    (read : readAll maxNesting sources = .ok requirements) :
    List.Forall₂ (fun position r => position = (r.source, r.index) ∧
      Formula.parse maxNesting r.source = .ok r.formula) sources.zipIdx requirements := by
  refine (forall₂_of_mapM read).imp ?_
  rintro ⟨source, index⟩ r first
  dsimp only at first
  split at first
  · rename_i formula parsed
    cases first
    exact ⟨rfl, parsed⟩
  · cases first

theorem map_source_index_of_readAll {maxNesting : Nat} {sources : List String}
    {requirements : List Requirement} (read : readAll maxNesting sources = .ok requirements) :
    (requirements.map fun r => (r.source, r.index)) = sources.zipIdx := by
  have same : List.Forall₂ (· = ·) sources.zipIdx (requirements.map fun r => (r.source, r.index)) :=
    List.forall₂_map_right_iff.2 ((forall₂_of_readAll read).imp fun _ _ h => h.1)
  rw [List.forall₂_eq_eq_eq] at same
  exact same.symm

theorem map_index_of_readAll {maxNesting : Nat} {sources : List String}
    {requirements : List Requirement} (read : readAll maxNesting sources = .ok requirements) :
    requirements.map index = List.range sources.length := by
  have pairs := congrArg (List.map Prod.snd) (map_source_index_of_readAll read)
  rw [List.map_map, List.zipIdx_map_snd] at pairs
  rw [List.range_eq_range', ← pairs]
  rfl

theorem length_of_readAll {maxNesting : Nat} {sources : List String} {requirements : List Requirement}
    (read : readAll maxNesting sources = .ok requirements) : requirements.length = sources.length := by
  simpa using congrArg List.length (map_index_of_readAll read)

theorem zipIdx_map_formula {maxNesting : Nat} {sources : List String} {requirements : List Requirement}
    (read : readAll maxNesting sources = .ok requirements) :
    (requirements.map formula).zipIdx = requirements.map fun r => (r.formula, r.index) := by
  have indices := map_index_of_readAll read
  rw [← length_of_readAll read, List.range_eq_range'] at indices
  rw [List.zipIdx_eq_zip_range', List.length_map, ← indices, List.zip_map']

theorem nodup_of_readAll {maxNesting : Nat} {sources : List String} {requirements : List Requirement}
    (read : readAll maxNesting sources = .ok requirements) : requirements.Nodup := by
  apply List.Nodup.of_map index
  rw [map_index_of_readAll read]
  exact List.nodup_range

theorem exists_positions {maxNesting : Nat} {sources : List String} {requirements members : List Requirement}
    (read : readAll maxNesting sources = .ok requirements) (sublist : members.Sublist requirements) :
    ∃ positions : List (Fin sources.length), positions.Pairwise (· < ·) ∧
      members.map source = positions.map sources.get := by
  have kept := sublist.map fun r => (r.source, r.index)
  rw [map_source_index_of_readAll read, zipIdx_eq] at kept
  obtain ⟨positions, part, same⟩ := List.sublist_map_iff.1 kept
  have texts := congrArg (List.map Prod.fst) same
  rw [List.map_map, List.map_map] at texts
  exact ⟨positions, (List.pairwise_lt_finRange _).sublist part, texts⟩

theorem positions_of_properPart {maxNesting : Nat} {sources : List String}
    {requirements part : List Requirement} (read : readAll maxNesting sources = .ok requirements)
    (h : Course.ProperPart requirements part) :
    part.map index ≠ [] ∧ (part.map index).Nodup ∧
      (part.map index).toFinset ⊂ Finset.range sources.length := by
  have indices := map_index_of_readAll read
  have distinct : (requirements.map index).Nodup := indices ▸ List.nodup_range
  have injective := List.inj_on_of_nodup_map distinct
  have mem_range (i : Nat) : i ∈ Finset.range sources.length ↔ ∃ r ∈ requirements, r.index = i := by
    rw [Finset.mem_range, ← List.mem_range, ← indices, List.mem_map]
  refine ⟨by simpa using h.nonempty, ?_, ?_⟩
  · apply h.nodup.map_on
    exact fun x hx y hy same => injective (h.subset hx) (h.subset hy) same
  · rw [Finset.ssubset_iff_of_subset]
    · obtain ⟨r, mem, missing⟩ := h.proper
      refine ⟨r.index, (mem_range _).2 ⟨r, mem, rfl⟩, fun known => ?_⟩
      obtain ⟨r', mem', same⟩ := List.mem_map.1 (List.mem_toFinset.1 known)
      exact missing (injective (h.subset mem') mem same ▸ mem')
    · intro i mem
      obtain ⟨r, mem, same⟩ := List.mem_map.1 (List.mem_toFinset.1 mem)
      exact (mem_range i).2 ⟨r, h.subset mem, same⟩

end Requirement

namespace Analysis

variable {σ : Type} [Oracle σ]

/-- An analysis that keeps the positions that each of its queries is about. -/
abbrev Recorded (σ : Type) := ExceptT AnalysisError (StateM (Progress σ × List (List Nat)))

def Recorded.ofAnalysis {α : Type} (x : Analysis σ α) : Recorded σ α := fun (p, asked) =>
  ((x.run p).1, (x.run p).2, asked)

def consistentRecorded (options : Options) (requirements : List Requirement) : Recorded σ Bool := do
  modify fun (p, asked) => (p, asked ++ [requirements.map Requirement.index])
  Recorded.ofAnalysis (consistent options requirements)

/-- `explain` with a record of its queries. -/
def explainRecorded (options : Options) (sources : List String) : Recorded σ Explanation := do
  if sources.isEmpty then return .emptyInput
  let requirements ← Recorded.ofAnalysis (prepare options sources)
  Recorded.ofAnalysis (setDeadline options)
  if ← consistentRecorded options requirements then return .noConflict
  let members ← minimalConflict (consistentRecorded options) false [] requirements
  return .core members

theorem consistentRecorded_run (options : Options) (requirements : List Requirement) (p : Progress σ)
    (asked : List (List Nat)) :
    (consistentRecorded options requirements).run (p, asked) =
      (((consistent options requirements).run p).1, ((consistent options requirements).run p).2,
        asked ++ [requirements.map Requirement.index]) := rfl

omit [Oracle σ] in
theorem ofAnalysis_run {α : Type} {x : Analysis σ α} {p p' : Progress σ}
    {result : Except AnalysisError α} (run : x.run p = (result, p')) (asked : List (List Nat)) :
    (Recorded.ofAnalysis x).run (p, asked) = (result, p', asked) := by
  have unfolded : (Recorded.ofAnalysis x).run (p, asked) = ((x.run p).1, (x.run p).2, asked) := rfl
  rw [unfolded, run]

def Records (state : Progress σ × List (List Nat)) (p : Progress σ) : Prop := state.1 = p

omit [Oracle σ] in
theorem lockstep_ofAnalysis {α : Type} (x : Analysis σ α) :
    Lockstep Records (Recorded.ofAnalysis x) x := by
  rintro ⟨p, asked⟩ _ rfl
  exact ⟨rfl, rfl⟩

theorem lockstep_consistentRecorded (options : Options) (requirements : List Requirement) :
    Lockstep Records (consistentRecorded options requirements)
      (consistent options requirements : Analysis σ Bool) := by
  rintro ⟨p, asked⟩ _ rfl
  rw [consistentRecorded_run]
  exact ⟨rfl, rfl⟩

theorem lockstep_explainRecorded (options : Options) (sources : List String) :
    Lockstep Records (explainRecorded options sources) (explain options sources : Analysis σ _) := by
  unfold explainRecorded explain
  split_ifs with empty
  · exact .pure _
  · refine (lockstep_ofAnalysis _).bind fun requirements _ => (lockstep_ofAnalysis _).bind fun _ _ => ?_
    refine (lockstep_consistentRecorded options requirements).bind fun verdict _ => ?_
    cases verdict with
    | true => exact .pure _
    | false =>
      have queries : ∀ xs, xs ⊆ requirements → Lockstep Records (consistentRecorded options xs)
          (consistent options xs : Analysis σ Bool) := fun xs _ => lockstep_consistentRecorded options xs
      have search := Lockstep.minimalConflict queries false (List.nil_subset _) (List.Subset.refl _)
      exact search.bind fun members _ => .pure _

omit [Oracle σ] in
theorem queries_ask {α : Type} {call : Call σ α} {backend : String} {p p' : Progress σ}
    {result : Except AnalysisError α} (run : (ask backend call).run p = (result, p')) :
    p'.queries = p.queries := by
  rw [ask_run_eq] at run
  cases run
  rfl

theorem queries_query {options : Options} {backend : String} {encoding : Encoding} {p p' : Progress σ}
    {verdict : Bool} (run : (query options backend encoding).run p = (.ok verdict, p')) :
    p'.queries = p.queries + 1 := by
  obtain ⟨_, p₁, load, run⟩ := run_bind_eq_ok run
  obtain ⟨answer, p₂, check, run⟩ := run_bind_eq_ok run
  rw [run_modify_bind] at run
  have counted : p'.queries = p₂.queries + 1 := by
    cases answer with
    | sat | unsat =>
      cases run
      rfl
    | unknown reason =>
      obtain ⟨_, p₃, _, fails⟩ := run_bind_eq_ok run
      cases fails
  rw [counted, queries_ask check, queries_ask load]

omit [Oracle σ] in
theorem queries_checkDeadline {options : Options} {p p' : Progress σ}
    (run : (checkDeadline options).run p = (.ok (), p')) : p'.queries = p.queries := by
  rcases checkDeadline_cases options p with ⟨looks, passed⟩ | ⟨d, -, -, stopped⟩
  · cases passed.symm.trans run
    rfl
  · cases stopped.symm.trans run

theorem queries_limitCheck {backend : String} {p p' : Progress σ} {result : Except AnalysisError Unit}
    (run : (limitCheck backend).run p = (result, p')) : p'.queries = p.queries := by
  rcases Option.eq_none_or_eq_some p.deadline with unset | ⟨d, set⟩
  · cases (limitCheck_none unset).symm.trans run
    rfl
  · rw [limitCheck_some set] at run
    exact (queries_ask run).trans rfl

theorem queries_consistent {options : Options} {requirements : List Requirement} {p p' : Progress σ}
    {verdict : Bool} (run : (consistent options requirements).run p = (.ok verdict, p')) :
    p'.queries = p.queries + 1 := by
  rw [consistent_eq] at run
  obtain ⟨_, p₁, passed, run⟩ := run_bind_eq_ok run
  obtain ⟨encoding, p₂, encode, run⟩ := run_bind_eq_ok run
  rw [run_get_bind] at run
  obtain ⟨_, p₃, reset, run⟩ := run_bind_eq_ok run
  obtain ⟨_, p₄, limited, run⟩ := run_bind_eq_ok run
  rw [run_ofExcept, Prod.mk.injEq] at encode
  rw [queries_query run, queries_limitCheck limited, queries_ask reset, ← encode.2,
    queries_checkDeadline passed]

section Course

variable {options : Options} {grown : Bool} {background candidates members : List Requirement}
  {state state' : Progress σ × List (List Nat)} {asked : List (List Requirement)}
  {result : Except AnalysisError (List Requirement)}

theorem record_of_answer {verdict : Except AnalysisError Bool}
    (answer : (consistentRecorded options background).run state = (verdict, state')) :
    state'.2 = state.2 ++ [background.map Requirement.index] := by
  obtain ⟨p, record⟩ := state
  rw [consistentRecorded_run] at answer
  cases answer
  rfl

theorem queries_of_answer {verdict : Bool}
    (answer : (consistentRecorded options background).run state = (.ok verdict, state')) :
    state'.1.queries = state.1.queries + 1 := by
  obtain ⟨p, record⟩ := state
  obtain ⟨p', record'⟩ := state'
  rw [consistentRecorded_run, Prod.mk.injEq, Prod.mk.injEq] at answer
  exact queries_consistent (Prod.ext answer.1 answer.2.1)

theorem record_of_course
    (course : Course (consistentRecorded options) grown background candidates state asked result state') :
    state'.2 = state.2 ++ asked.map (List.map Requirement.index) := by
  induction course with
  | failed answer | settled answer => exact record_of_answer answer
  | unsettled answer _ ih =>
    rw [ih, record_of_answer answer, List.append_assoc]
    rfl
  | short => exact (List.append_nil _).symm
  | secondFails _ _ _ ih => exact ih
  | firstFails _ _ _ _ ihSecond ihFirst | found _ _ _ _ ihSecond ihFirst =>
    rw [ihFirst, ihSecond, List.map_append, List.append_assoc]

theorem queries_of_course (course : Course (consistentRecorded options) grown background candidates state
    asked (.ok members) state') : state'.1.queries = state.1.queries + asked.length := by
  generalize outcome : Except.ok members = result at course
  induction course generalizing members with
  | failed | secondFails | firstFails => cases outcome
  | settled answer => exact queries_of_answer answer
  | unsettled answer _ ih =>
    rw [ih outcome, queries_of_answer answer, List.length_cons]
    omega
  | short => rfl
  | found _ _ _ _ ihSecond ihFirst =>
    rw [ihFirst rfl, ihSecond rfl, List.length_append]
    omega

end Course

omit [Oracle σ] in
theorem prepare_ok {options : Options} {sources : List String} {requirements : List Requirement}
    {p p' : Progress σ} (run : (prepare options sources).run p = (.ok requirements, p')) :
    Requirement.readAll options.maxNesting sources = .ok requirements ∧ p'.queries = p.queries := by
  obtain ⟨read, p₁, reading, run⟩ := run_bind_eq_ok run
  rw [run_ofExcept, Prod.mk.injEq] at reading
  obtain ⟨reading, rfl⟩ := reading
  cases keep : options.keepScript with
  | false =>
    rw [keep] at run
    cases run
    exact ⟨reading, rfl⟩
  | true =>
    rw [keep] at run
    obtain ⟨encoding, p₂, encode, run⟩ := run_bind_eq_ok run
    rw [run_ofExcept, Prod.mk.injEq] at encode
    obtain ⟨_, rfl⟩ := encode
    rw [run_modify_bind] at run
    cases run
    exact ⟨reading, rfl⟩

theorem explainRecorded_cases {options : Options} {sources : List String} {s : σ} {clock : Clock}
    {result : Except AnalysisError Explanation} {p : Progress σ} {asked : List (List Nat)}
    (run : (explainRecorded options sources).run ({ oracle := s, clock }, []) = (result, p, asked)) :
    (asked = [] ∧ ∀ members, result ≠ .ok (.core members)) ∨
    (asked = [List.range sources.length] ∧ ∀ members, result ≠ .ok (.core members)) ∨
    ∃ requirements p₁ parts outcome,
      Requirement.readAll options.maxNesting sources = .ok requirements ∧ requirements ≠ [] ∧
      p₁.queries = 1 ∧ result = outcome.map .core ∧
      Course (consistentRecorded options) false [] requirements (p₁, [List.range sources.length]) parts
        outcome (p, asked) := by
  unfold explainRecorded at run
  split_ifs at run with empty
  · cases run
    exact .inl ⟨rfl, nofun⟩
  rcases prepared : (prepare options sources).run { oracle := s, clock } with ⟨e | requirements, p₀⟩
  · rw [run_bind_error (ofAnalysis_run prepared [])] at run
    cases run
    exact .inl ⟨rfl, nofun⟩
  rw [run_bind_ok (ofAnalysis_run prepared [])] at run
  obtain ⟨read, queries₀⟩ := prepare_ok prepared
  obtain ⟨p₁, limited, queries₁⟩ : ∃ p₁, (setDeadline options).run p₀ = (.ok (), p₁) ∧
      p₁.queries = p₀.queries := ⟨_, setDeadline_eq options p₀, rfl⟩
  rw [run_bind_ok (ofAnalysis_run limited [])] at run
  have indices := Requirement.map_index_of_readAll read
  rcases answer : (consistentRecorded options requirements).run (p₁, []) with ⟨verdict, p₂, record⟩
  have recorded : record = [List.range sources.length] := indices ▸ record_of_answer answer
  rw [recorded] at answer
  cases verdict with
  | error e =>
    rw [run_bind_error answer] at run
    cases run
    exact .inr (.inl ⟨rfl, nofun⟩)
  | ok verdict =>
    rw [run_bind_ok answer] at run
    cases verdict with
    | true =>
      cases run
      exact .inr (.inl ⟨rfl, nofun⟩)
    | false =>
      obtain ⟨parts, outcome, ⟨p', asked'⟩, search, course⟩ := Course.of_run (consistentRecorded options)
        false [] requirements (p₂, [List.range sources.length])
      have nonempty : requirements ≠ [] := by
        rintro rfl
        exact empty (List.isEmpty_iff_length_eq_zero.2 (Requirement.length_of_readAll read).symm)
      have first : p₂.queries = 1 := by
        rw [queries_of_answer answer, queries₁, queries₀]
      refine .inr (.inr ⟨requirements, p₂, parts, outcome, read, nonempty, first, ?_⟩)
      cases outcome with
      | error e =>
        rw [if_neg (by decide), run_bind_error search] at run
        cases run
        exact ⟨rfl, course⟩
      | ok members =>
        rw [if_neg (by decide), run_bind_ok search] at run
        cases run
        exact ⟨rfl, course⟩

theorem core_of_course {options : Options} {sources : List String}
    {requirements members : List Requirement} {parts : List (List Requirement)} {p₁ p : Progress σ}
    {record asked : List (List Nat)} (read : Requirement.readAll options.maxNesting sources = .ok requirements)
    (nonempty : requirements ≠ []) (first : p₁.queries = 1)
    (course : Course (consistentRecorded options) false [] requirements (p₁, record) parts
      (.ok members) (p, asked)) :
    (∃ positions : List (Fin sources.length), positions ≠ [] ∧ positions.Pairwise (· < ·) ∧
      members.map Requirement.source = positions.map sources.get) ∧
    p.queries = parts.length + 1 ∧ p.queries ≤ 2 * sources.length - 1 ∧
    p.queries ≤ 1 + 2 * members.length * Nat.clog 2 sources.length := by
  obtain ⟨positions, increasing, texts⟩ := Requirement.exists_positions read course.sublist
  have chosen : positions ≠ [] := by
    rintro rfl
    exact course.members_ne_nil nonempty (List.map_eq_nil_iff.1 texts)
  have queries := queries_of_course course
  have few := course.length_asked_le nonempty
  have fewByDepth := course.length_asked_le_clog nonempty
  simp only [first, Requirement.length_of_readAll read, Bool.toNat_false] at queries few fewByDepth
  refine ⟨⟨positions, chosen, increasing, texts⟩, ?_, ?_, ?_⟩ <;> omega

/-- Whatever an oracle answers, an explanation asks first about the whole batch and from then on about
proper parts of it. A core that it finds is made of the texts at an increasing sequence of positions,
and the number of queries is bounded by the sizes of the batch and of the core. -/
theorem explain_shape_and_cost (options : Options) (sources : List String) (s : σ) (clock : Clock)
    {result : Except AnalysisError Explanation} {p : Progress σ} {asked : List (List Nat)}
    (run : (explainRecorded options sources).run ({ oracle := s, clock }, []) = (result, p, asked)) :
    (explain options sources).run { oracle := s, clock } = (result, p) ∧
    (∀ positions ∈ asked.head?, positions = List.range sources.length) ∧
    (∀ positions ∈ asked.tail, positions ≠ [] ∧ positions.Nodup ∧
      positions.toFinset ⊂ Finset.range sources.length) ∧
    ∀ members, result = .ok (.core members) →
      (∃ positions : List (Fin sources.length), positions ≠ [] ∧ positions.Pairwise (· < ·) ∧
        members.map Requirement.source = positions.map sources.get) ∧
      p.queries = asked.length ∧ p.queries ≤ 2 * sources.length - 1 ∧
      p.queries ≤ 1 + 2 * members.length * Nat.clog 2 sources.length := by
  have same : (explain options sources).run { oracle := s, clock } = (result, p) := by
    have lockstep := lockstep_explainRecorded options sources (s := ({ oracle := s, clock }, [])) rfl
    rw [run] at lockstep
    exact Prod.ext lockstep.1.symm lockstep.2.symm
  refine ⟨same, ?_⟩
  rcases explainRecorded_cases run with ⟨rfl, no_core⟩ | ⟨rfl, no_core⟩ |
    ⟨requirements, p₁, parts, outcome, read, nonempty, first, rfl, course⟩
  · exact ⟨nofun, nofun, fun members core => absurd core (no_core members)⟩
  · refine ⟨?_, nofun, fun members core => absurd core (no_core members)⟩
    rintro positions ⟨⟩
    rfl
  · have record : asked = List.range sources.length :: parts.map (List.map Requirement.index) :=
      record_of_course course
    subst record
    refine ⟨?_, ?_, fun members core => ?_⟩
    · rintro positions ⟨⟩
      rfl
    · intro positions mem
      obtain ⟨part, chosen, rfl⟩ := List.mem_map.1 mem
      have proper :=
        course.properPart_of_mem_asked (Requirement.nodup_of_readAll read) nonempty nofun part chosen
      exact Requirement.positions_of_properPart read proper
    · cases outcome with
      | error e => cases core
      | ok found =>
        cases core
        simpa using core_of_course read nonempty first course

def coreTexts? : Explanation → Option (List String)
  | .core members => some (members.map Requirement.source)
  | _ => none

theorem exists_core_of_coreTexts? {result : Except AnalysisError Explanation} {texts : List String}
    (h : result.toOption.bind coreTexts? = some texts) :
    ∃ members, result = .ok (.core members) ∧ members.map Requirement.source = texts := by
  match result, h with
  | .ok (.core members), h => exact ⟨members, rfl, Option.some.inj h⟩

def untruthful : Recorder := { verdicts := some [.unsat, .sat, .unsat] }

theorem explain_shape_and_cost_untruthful :
    let sources := ["a", "b", "c"]
    let start : Progress Recorder := { oracle := untruthful, clock := .still 0 }
    ∃ members p, (explainRecorded {} sources).run (start, []) =
        (.ok (.core members), p, [[0, 1, 2], [0], [0, 1], [1]]) ∧
      (explain {} sources).run start = (.ok (.core members), p) ∧
      members.map Requirement.source = ["a", "b"] ∧ p.queries = 4 ∧ p.queries ≤ 2 * 3 - 1 ∧
      p.queries ≤ 1 + 2 * 2 * Nat.clog 2 3 := by
  intro sources start
  have record : ((explainRecorded {} sources).run (start, [])).2.2 =
      [[0, 1, 2], [0], [0, 1], [1]] := by decide +kernel
  have found : ((explainRecorded {} sources).run (start, [])).1.toOption.bind
      coreTexts? = some ["a", "b"] := by decide +kernel
  rcases run : (explainRecorded {} sources).run (start, []) with ⟨result, p, asked⟩
  rw [run] at record found
  obtain ⟨members, rfl, texts⟩ := exists_core_of_coreTexts? found
  obtain ⟨same, _, _, bounds⟩ := explain_shape_and_cost {} sources untruthful (.still 0) run
  obtain ⟨_, queries, linear, logarithmic⟩ := bounds members rfl
  have two : members.length = 2 := by simpa using congrArg List.length texts
  have four : p.queries = 4 := queries.trans (congrArg List.length record)
  rw [two] at logarithmic
  exact ⟨members, p, by rw [← record], same, texts, four, linear, logarithmic⟩

end Analysis
end MissionTime
