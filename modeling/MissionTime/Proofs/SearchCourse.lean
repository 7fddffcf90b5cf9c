import MissionTime.Proofs.LinearDeletion
import Mathlib.Data.Nat.Log
import Mathlib.Tactic.GCongr
import Mathlib.Tactic.Ring

/-! The course of a search for a minimal conflict: the queries that it makes, in their order, and what
comes of it. Nothing is assumed of the answers. The number of queries is bounded by the number of
candidates, and by the number of members found times the depth of the halving. -/
namespace MissionTime
open Runs LinearDeletion

variable {α ε σ : Type} {query : List α → ExceptT ε (StateM σ) Bool}

theorem minimalConflict_grown_eq (background candidates : List α) :
    minimalConflict query true background candidates = (do
      let settled ← not <$> query background
      if settled then return [] else divide query background candidates) := by
  rw [minimalConflict, if_pos rfl]
  rfl

/-- From state `s` the search makes the queries `asked`, ends in `result` and leaves state `t`. The first
index tells whether the background has grown and is queried at the beginning. -/
inductive Course (query : List α → ExceptT ε (StateM σ) Bool) :
    Bool → List α → List α → σ → List (List α) → Except ε (List α) → σ → Prop
  | failed {background candidates s t e} (answer : (query background).run s = (.error e, t)) :
    Course query true background candidates s [background] (.error e) t
  | settled {background candidates s t} (answer : (query background).run s = (.ok false, t)) :
    Course query true background candidates s [background] (.ok []) t
  | unsettled {background candidates s t u asked result}
    (answer : (query background).run s = (.ok true, t))
    (search : Course query false background candidates t asked result u) :
    Course query true background candidates s (background :: asked) result u
  | short {background candidates s} (short : ¬ 1 < candidates.length) :
    Course query false background candidates s [] (.ok candidates) s
  | secondFails {background first second s t asked e} (long : 1 < (first ++ second).length)
    (half : first.length = (first ++ second).length / 2)
    (search : Course query true (background ++ first) second s asked (.error e) t) :
    Course query false background (first ++ second) s asked (.error e) t
  | firstFails {background first second fromSecond s t u asked asked' e}
    (long : 1 < (first ++ second).length) (half : first.length = (first ++ second).length / 2)
    (searchSecond : Course query true (background ++ first) second s asked (.ok fromSecond) t)
    (searchFirst : Course query (!fromSecond.isEmpty) (background ++ fromSecond) first t asked'
      (.error e) u) :
    Course query false background (first ++ second) s (asked ++ asked') (.error e) u
  | found {background first second fromSecond fromFirst s t u asked asked'}
    (long : 1 < (first ++ second).length) (half : first.length = (first ++ second).length / 2)
    (searchSecond : Course query true (background ++ first) second s asked (.ok fromSecond) t)
    (searchFirst : Course query (!fromSecond.isEmpty) (background ++ fromSecond) first t asked'
      (.ok fromFirst) u) :
    Course query false background (first ++ second) s (asked ++ asked') (.ok (fromFirst ++ fromSecond)) u

namespace Course

theorem halves_ne_nil {first second : List α} (long : 1 < (first ++ second).length)
    (half : first.length = (first ++ second).length / 2) : first ≠ [] ∧ second ≠ [] := by
  rw [List.length_append] at long half
  constructor
  · rintro rfl
    rw [List.length_nil] at long half
    omega
  · rintro rfl
    rw [List.length_nil] at long half
    omega

theorem of_halves {background first second : List α} (long : 1 < (first ++ second).length)
    (half : first.length = (first ++ second).length / 2)
    (searchSecond : ∀ s, ∃ asked result t,
      (minimalConflict query true (background ++ first) second).run s = (result, t) ∧
        Course query true (background ++ first) second s asked result t)
    (searchFirst : ∀ fromSecond s, ∃ asked result t,
      (minimalConflict query (!fromSecond.isEmpty) (background ++ fromSecond) first).run s = (result, t) ∧
        Course query (!fromSecond.isEmpty) (background ++ fromSecond) first s asked result t) (s : σ) :
    ∃ asked result t, (divide query background (first ++ second)).run s = (result, t) ∧
      Course query false background (first ++ second) s asked result t := by
  have grows : (!first.isEmpty) = true := by
    simpa using (halves_ne_nil long half).1
  have divided : divide query background (first ++ second) = do
      let fromSecond ← minimalConflict query true (background ++ first) second
      let fromFirst ← minimalConflict query (!fromSecond.isEmpty) (background ++ fromSecond) first
      return fromFirst ++ fromSecond := by
    rw [divide, if_pos long, ← half, List.take_left, List.drop_left]
    simp only [grows]
  rw [divided]
  obtain ⟨asked, result, t, run, course⟩ := searchSecond s
  cases result with
  | error e => exact ⟨asked, .error e, t, run_bind_error run, .secondFails long half course⟩
  | ok fromSecond =>
    rw [run_bind_ok run]
    obtain ⟨asked', result, u, run', course'⟩ := searchFirst fromSecond t
    cases result with
    | error e =>
      exact ⟨asked ++ asked', .error e, u, run_bind_error run', .firstFails long half course course'⟩
    | ok fromFirst =>
      refine ⟨asked ++ asked', .ok (fromFirst ++ fromSecond), u, ?_, .found long half course course'⟩
      rw [run_bind_ok run']
      rfl

theorem of_run (query : List α → ExceptT ε (StateM σ) Bool) (grown : Bool)
    (background candidates : List α) (s : σ) :
    ∃ asked result t, (minimalConflict query grown background candidates).run s = (result, t) ∧
      Course query grown background candidates s asked result t := by
  induction hn : candidates.length using Nat.strong_induction_on
    generalizing grown background candidates s with
  | h n ih =>
    have divided (s : σ) : ∃ asked result t, (divide query background candidates).run s = (result, t) ∧
        Course query false background candidates s asked result t := by
      by_cases long : 1 < candidates.length
      · obtain ⟨first, second, rfl, half⟩ : ∃ first second, candidates = first ++ second ∧
            first.length = candidates.length / 2 :=
          ⟨candidates.take (candidates.length / 2), candidates.drop (candidates.length / 2),
            (List.take_append_drop _ _).symm, by rw [List.length_take]; omega⟩
        have lengths : (first ++ second).length = first.length + second.length := List.length_append
        have searchSecond := ih second.length (by omega) true (background ++ first) second
        have searchFirst (fromSecond : List α) := ih first.length (by omega) (!fromSecond.isEmpty)
          (background ++ fromSecond) first
        exact of_halves long half (fun s => searchSecond s rfl) (fun xs s => searchFirst xs s rfl) s
      · refine ⟨[], .ok candidates, s, ?_, .short long⟩
        rw [divide, if_neg long]
        rfl
    cases grown with
    | false =>
      rw [minimalConflict_not_grown]
      exact divided s
    | true =>
      rcases answer : (query background).run s with ⟨e | verdict, t⟩
      · refine ⟨[background], .error e, t, ?_, .failed answer⟩
        rw [minimalConflict_grown_eq, run_bind_error]
        rw [run_map, answer]
        rfl
      · cases verdict with
        | false => exact ⟨_, _, _, minimalConflict_settled answer candidates, .settled answer⟩
        | true =>
          obtain ⟨asked, result, u, run, course⟩ := divided t
          rw [minimalConflict_grown answer]
          exact ⟨background :: asked, result, u, run, .unsettled answer course⟩

variable {grown : Bool} {background candidates members : List α} {s t : σ} {asked : List (List α)}
  {result : Except ε (List α)}

theorem sublist (course : Course query grown background candidates s asked (.ok members) t) :
    members.Sublist candidates := by
  generalize outcome : Except.ok members = result at course
  induction course generalizing members with
  | failed => cases outcome
  | settled =>
    cases outcome
    exact List.nil_sublist _
  | unsettled _ _ ih => exact ih outcome
  | short =>
    cases outcome
    exact List.Sublist.refl _
  | secondFails => cases outcome
  | firstFails => cases outcome
  | found _ _ _ _ ihSecond ihFirst =>
    cases outcome
    exact (ihFirst rfl).append (ihSecond rfl)

theorem members_ne_nil (course : Course query false background candidates s asked (.ok members) t)
    (nonempty : candidates ≠ []) : members ≠ [] := by
  generalize outcome : Except.ok members = result at course
  generalize open_background : false = grown at course
  induction course generalizing members with
  | failed | settled | unsettled => cases open_background
  | short =>
    cases outcome
    exact nonempty
  | secondFails | firstFails => cases outcome
  | @found _ first second fromSecond _ _ _ _ _ _ long half _ _ _ ihFirst =>
    cases outcome
    cases fromSecond with
    | nil =>
      rw [List.append_nil]
      exact ihFirst (halves_ne_nil long half).1 rfl rfl
    | cons a fromSecond => simp

/-- A query on some but not all of `all`, each of them once. -/
structure ProperPart (all part : List α) : Prop where
  nonempty : part ≠ []
  nodup : part.Nodup
  subset : part ⊆ all
  proper : ∃ a ∈ all, a ∉ part

theorem ProperPart.mono {all all' part : List α} (h : ProperPart all part) (sub : all ⊆ all') :
    ProperPart all' part where
  nonempty := h.nonempty
  nodup := h.nodup
  subset := List.Subset.trans h.subset sub
  proper := by
    obtain ⟨a, mem, missing⟩ := h.proper
    exact ⟨a, sub mem, missing⟩

theorem properPart_background (distinct : (background ++ candidates).Nodup) (nonempty : candidates ≠ [])
    (grew : background ≠ []) : ProperPart (background ++ candidates) background where
  nonempty := grew
  nodup := distinct.of_append_left
  subset := List.subset_append_left _ _
  proper := by
    obtain ⟨a, mem⟩ := List.exists_mem_of_ne_nil candidates nonempty
    have disjoint := List.disjoint_of_nodup_append distinct
    exact ⟨a, List.mem_append_right _ mem, fun known => disjoint known mem⟩

theorem onFirst_subset (background first : List α) {second fromSecond : List α}
    (kept : fromSecond.Sublist second) :
    background ++ fromSecond ++ first ⊆ background ++ (first ++ second) := by
  intro a mem
  simp only [List.mem_append] at mem ⊢
  rcases mem with (mem | mem) | mem
  · exact .inl mem
  · exact .inr (.inr (kept.subset mem))
  · exact .inr (.inl mem)

theorem nodup_onFirst {first second fromSecond : List α} (kept : fromSecond.Sublist second)
    (distinct : (background ++ (first ++ second)).Nodup) : (background ++ fromSecond ++ first).Nodup := by
  have part : (background ++ (fromSecond ++ first)).Sublist (background ++ (second ++ first)) :=
    (kept.append_right first).append_left background
  have swapped : (background ++ (first ++ second)).Perm (background ++ (second ++ first)) :=
    List.perm_append_comm.append_left background
  rw [List.append_assoc]
  exact (swapped.nodup_iff.1 distinct).sublist part

theorem properPart_of_mem_asked (course : Course query grown background candidates s asked result t)
    (distinct : (background ++ candidates).Nodup) (nonempty : candidates ≠ [])
    (grew : grown = true → background ≠ []) :
    ∀ part ∈ asked, ProperPart (background ++ candidates) part := by
  induction course with
  | failed | settled =>
    exact List.forall_mem_singleton.2 (properPart_background distinct nonempty (grew rfl))
  | unsettled _ _ ih =>
    refine List.forall_mem_cons.2 ⟨properPart_background distinct nonempty (grew rfl), ?_⟩
    exact ih distinct nonempty nofun
  | short => nofun
  | secondFails long half _ ih =>
    obtain ⟨firstNonempty, secondNonempty⟩ := halves_ne_nil long half
    rw [← List.append_assoc] at distinct ⊢
    exact ih distinct secondNonempty fun _ => List.append_ne_nil_of_right_ne_nil _ firstNonempty
  | @firstFails background first second fromSecond _ _ _ _ _ _ long half searchSecond _ ihSecond ihFirst
  | @found background first second fromSecond _ _ _ _ _ _ long half searchSecond _ ihSecond ihFirst =>
    obtain ⟨firstNonempty, secondNonempty⟩ := halves_ne_nil long half
    have distinctFirst := nodup_onFirst searchSecond.sublist distinct
    have sub := onFirst_subset background first searchSecond.sublist
    refine List.forall_mem_append.2 ⟨?_, fun part mem => ?_⟩
    · rw [← List.append_assoc] at distinct ⊢
      exact ihSecond distinct secondNonempty fun _ => List.append_ne_nil_of_right_ne_nil _ firstNonempty
    · refine (ihFirst distinctFirst firstNonempty (fun grew => ?_) part mem).mono sub
      cases fromSecond with
      | nil => cases grew
      | cons a fromSecond => simp

theorem length_asked_le (course : Course query grown background candidates s asked result t)
    (nonempty : candidates ≠ []) : asked.length + 2 ≤ 2 * candidates.length + grown.toNat := by
  -- A binary tree whose leaves are the candidates has one node less than twice their number, and all nodes
  -- but the root may ask.
  have positive := List.length_pos_iff.2 nonempty
  induction course with
  | failed | settled =>
    simp only [List.length_singleton, Bool.toNat_true]
    omega
  | unsettled _ _ ih =>
    have := ih nonempty positive
    simp only [List.length_cons, Bool.toNat_true, Bool.toNat_false] at this ⊢
    omega
  | short =>
    simp only [List.length_nil, Bool.toNat_false]
    omega
  | secondFails long half _ ih =>
    obtain ⟨_, secondNonempty⟩ := halves_ne_nil long half
    have := ih secondNonempty (List.length_pos_iff.2 secondNonempty)
    simp only [List.length_append, Bool.toNat_true, Bool.toNat_false] at this positive ⊢
    omega
  | @firstFails _ _ _ fromSecond _ _ _ _ _ _ long half _ _ ihSecond ihFirst
  | @found _ _ _ fromSecond _ _ _ _ _ _ long half _ _ ihSecond ihFirst =>
    obtain ⟨firstNonempty, secondNonempty⟩ := halves_ne_nil long half
    have fewSecond := ihSecond secondNonempty (List.length_pos_iff.2 secondNonempty)
    have fewFirst := ihFirst firstNonempty (List.length_pos_iff.2 firstNonempty)
    have once := Bool.toNat_le (!fromSecond.isEmpty)
    simp only [List.length_append, Bool.toNat_true, Bool.toNat_false] at fewSecond fewFirst ⊢
    omega

theorem clog_halves {first second : List α} (long : 1 < (first ++ second).length)
    (half : first.length = (first ++ second).length / 2) :
    Nat.clog 2 first.length + 1 ≤ Nat.clog 2 (first ++ second).length ∧
      Nat.clog 2 second.length + 1 ≤ Nat.clog 2 (first ++ second).length := by
  have lengths : (first ++ second).length = first.length + second.length := List.length_append
  rw [Nat.clog_of_two_le (by decide) long]
  constructor
  · exact Nat.succ_le_succ (Nat.clog_mono_right 2 (by omega))
  · exact Nat.succ_le_succ (Nat.clog_mono_right 2 (by omega))

/-- At each depth of the halving, no more than one search for each member found goes on to its halves,
and these ask at most once each. -/
theorem length_asked_le_clog
    (course : Course query grown background candidates s asked (.ok members) t)
    (nonempty : candidates ≠ []) :
    asked.length ≤ grown.toNat + 2 * members.length * Nat.clog 2 candidates.length := by
  generalize outcome : Except.ok members = result at course
  induction course generalizing members with
  | failed | secondFails | firstFails => cases outcome
  | settled =>
    simp only [List.length_singleton, Bool.toNat_true]
    omega
  | unsettled _ _ ih =>
    have few := ih nonempty outcome
    simp only [List.length_cons, Bool.toNat_true, Bool.toNat_false] at few ⊢
    omega
  | short =>
    simp only [List.length_nil]
    omega
  | @found _ first second fromSecond fromFirst _ _ _ asked asked' long half searchSecond searchFirst
      ihSecond ihFirst =>
    cases outcome
    obtain ⟨firstNonempty, secondNonempty⟩ := halves_ne_nil long half
    have fewSecond := ihSecond secondNonempty rfl
    have fewFirst := ihFirst firstNonempty rfl
    have once := Bool.toNat_le (!fromSecond.isEmpty)
    obtain ⟨depthFirst, depthSecond⟩ := clog_halves long half
    have found : 0 < fromFirst.length + fromSecond.length := by
      have members := (Course.found long half searchSecond searchFirst).members_ne_nil nonempty
      simpa only [List.length_append] using List.length_pos_iff.2 members
    simp only [List.length_append, Bool.toNat_true, Bool.toNat_false] at fewSecond ⊢
    calc asked.length + asked'.length
        ≤ 2 * (fromFirst.length + fromSecond.length) +
          2 * fromFirst.length * Nat.clog 2 first.length +
          2 * fromSecond.length * Nat.clog 2 second.length := by omega
      _ = 2 * fromFirst.length * (Nat.clog 2 first.length + 1) +
          2 * fromSecond.length * (Nat.clog 2 second.length + 1) := by ring
      _ ≤ 2 * fromFirst.length * Nat.clog 2 (first ++ second).length +
          2 * fromSecond.length * Nat.clog 2 (first ++ second).length := by gcongr
      _ = _ := by rw [List.length_append]; ring

theorem ends {all : List α} {I : σ → Prop} {E : ε → σ → Prop}
    (queries : ∀ part, part ⊆ all → Ensures I (query part) (fun _ => I) E)
    (course : Course query grown background candidates s asked result t) (hb : background ⊆ all)
    (hc : candidates ⊆ all) (start : I s) : Ends (fun _ => I) E (result, t) := by
  induction course with
  | failed answer | settled answer =>
    have answered := queries _ hb start
    rw [answer] at answered
    exact answered
  | unsettled answer _ ih =>
    have answered := queries _ hb start
    rw [answer] at answered
    exact ih hb hc answered
  | short => exact start
  | secondFails _ _ _ ih =>
    obtain ⟨hf, hs⟩ := List.append_subset.1 hc
    exact ih (List.append_subset.2 ⟨hb, hf⟩) hs start
  | firstFails _ _ searchSecond _ ihSecond ihFirst | found _ _ searchSecond _ ihSecond ihFirst =>
    obtain ⟨hf, hs⟩ := List.append_subset.1 hc
    have hk := List.Subset.trans searchSecond.sublist.subset hs
    exact ihFirst (List.append_subset.2 ⟨hb, hk⟩) hf (ihSecond (List.append_subset.2 ⟨hb, hf⟩) hs start)

end Course

theorem ensures_minimalConflict {all : List α} {I : σ → Prop} {E : ε → σ → Prop}
    (queries : ∀ part, part ⊆ all → Ensures I (query part) (fun _ => I) E) (grown : Bool)
    {background candidates : List α} (hb : background ⊆ all) (hc : candidates ⊆ all) :
    Ensures I (minimalConflict query grown background candidates) (fun _ => I) E := by
  intro s start
  obtain ⟨asked, result, t, run, course⟩ := Course.of_run query grown background candidates s
  rw [run]
  exact course.ends queries hb hc start

/-! An analysis keeps what its queries keep, and it fails only as they do or as its preparation does. -/

section Analysis
variable [Oracle σ] {options : Options} {sources : List String} {I : Progress σ → Prop}
  {E : AnalysisError → Progress σ → Prop} {C : List Requirement → Prop}

theorem ensures_check
    (prepared : Ensures I (Analysis.prepare options sources) (fun requirements p => C requirements ∧ I p) E)
    (limited : Ensures I (Analysis.setDeadline options) (fun _ => I) E)
    (queries : ∀ requirements, C requirements →
      Ensures I (Analysis.consistent options requirements) (fun _ => I) E) :
    Ensures I (Analysis.check options sources) (fun _ => I) E :=
  prepared.bind fun requirements _ ⟨chosen, start⟩ =>
    (limited.bind fun _ => queries requirements chosen) start

theorem ensures_explain
    (prepared : Ensures I (Analysis.prepare options sources) (fun requirements p => C requirements ∧ I p) E)
    (limited : Ensures I (Analysis.setDeadline options) (fun _ => I) E)
    (queries : ∀ requirements, C requirements → ∀ part, part ⊆ requirements →
      Ensures I (Analysis.consistent options part) (fun _ => I) E) :
    Ensures I (Analysis.explain options sources) (fun _ => I) E := by
  unfold Analysis.explain
  split_ifs
  · exact .pure fun _ => id
  refine prepared.bind fun requirements p ⟨chosen, start⟩ => ?_
  have queries := queries requirements chosen
  refine (limited.bind fun _ => (queries requirements (List.Subset.refl _)).bind fun compatible => ?_) start
  cases compatible with
  | true => exact .pure fun _ => id
  | false =>
    refine (ensures_minimalConflict queries false (List.nil_subset _) (List.Subset.refl _)).bind ?_
    exact fun members => .pure fun _ => id

end Analysis

end MissionTime
