import MissionTime.Analysis.Conflict
import MissionTime.Proofs.Runs
import Mathlib.Data.Finset.Range

/-! Linear deletion, and the search for minimal conflicts as a faster form of it. Deletion goes through
the candidates from the last to the first and drops each one without which a conflict remains. The
search by halves keeps exactly the same candidates, with fewer queries. -/
namespace MissionTime.LinearDeletion
open Runs

variable {α : Type}

/-- Scans candidates, listed from the last to the first, over a background. A candidate is dropped if
the background and everything before it conflict with what has been kept after it. -/
def scan (consistent : List α → Bool) (background : List α) : List α → List α → List α
  | [], kept => kept
  | a :: earlier, kept =>
    if consistent (background ++ earlier.reverse ++ kept) then
      scan consistent background earlier (a :: kept)
    else scan consistent background earlier kept

def linearDeletion (consistent : List α → Bool) (candidates : List α) : List α :=
  scan consistent [] candidates.reverse []

/-- Among the lists over `all`, every part of a consistent list is consistent. -/
def Hereditary (consistent : List α → Bool) (all : List α) : Prop :=
  ∀ ⦃xs ys⦄, xs ⊆ ys → ys ⊆ all → consistent ys = true → consistent xs = true

variable {consistent : List α → Bool} {all : List α}

theorem Hereditary.congr (hereditary : Hereditary consistent all) {xs ys : List α}
    (le : xs ⊆ ys) (ge : ys ⊆ xs) (bound : ys ⊆ all) : consistent xs = consistent ys := by
  rw [Bool.eq_iff_iff]
  exact ⟨hereditary ge (List.Subset.trans le bound), hereditary le bound⟩

theorem scan_append (background later earlier kept : List α) :
    scan consistent background (later ++ earlier) kept =
      scan consistent background earlier
        (scan consistent (background ++ earlier.reverse) later kept) := by
  induction later generalizing kept with
  | nil => rfl
  | cons a later ih =>
    simp only [List.cons_append, scan, List.reverse_append, List.append_assoc] at ih ⊢
    split <;> exact ih _

theorem scan_sublist (consistent : List α → Bool) (background earlier kept : List α) :
    (scan consistent background earlier kept).Sublist (earlier.reverse ++ kept) := by
  induction earlier generalizing kept with
  | nil => exact List.Sublist.refl kept
  | cons a earlier ih =>
    simp only [scan, List.reverse_cons, List.append_assoc, List.singleton_append]
    split
    · exact ih (a :: kept)
    · exact (ih kept).trans (List.Sublist.append_left (List.sublist_cons_self a kept) _)

theorem scan_conflict {background earlier kept : List α}
    (conflict : consistent (background ++ earlier.reverse ++ kept) = false) :
    consistent (background ++ scan consistent background earlier kept) = false := by
  induction earlier generalizing kept with
  | nil => simpa [scan] using conflict
  | cons a earlier ih =>
    simp only [scan]
    split_ifs with keep
    · apply ih
      simpa using conflict
    · exact ih (Bool.eq_false_iff.2 keep)

section Hereditary

variable (hereditary : Hereditary consistent all) {background earlier kept : List α}
  (hb : background ⊆ all) (he : earlier ⊆ all) (hk : kept ⊆ all)

private theorem around_subset (hb : background ⊆ all) (he : earlier ⊆ all) (hk : kept ⊆ all) :
    background ++ earlier.reverse ++ kept ⊆ all := by
  have hr : earlier.reverse ⊆ all := fun x hx => he (List.mem_reverse.1 hx)
  exact List.append_subset.2 ⟨List.append_subset.2 ⟨hb, hr⟩, hk⟩

include hereditary hb he hk

theorem scan_kept {recent : List α} (hr : recent ⊆ all) :
    scan consistent background earlier (recent ++ kept) =
      scan consistent (background ++ kept) earlier recent ++ kept := by
  induction earlier generalizing recent with
  | nil => rfl
  | cons a earlier ih =>
    obtain ⟨ha, he⟩ := List.cons_subset.1 he
    have same : consistent (background ++ earlier.reverse ++ (recent ++ kept)) =
        consistent (background ++ kept ++ earlier.reverse ++ recent) := by
      apply hereditary.congr
      · intro x
        simp only [List.mem_append]
        tauto
      · intro x
        simp only [List.mem_append]
        tauto
      · exact around_subset (List.append_subset.2 ⟨hb, hk⟩) he hr
    simp only [scan, same]
    split
    · exact ih he (List.cons_subset.2 ⟨ha, hr⟩)
    · exact ih he hr

theorem scan_settled (settled : consistent background = false) :
    scan consistent background earlier kept = kept := by
  induction earlier with
  | nil => rfl
  | cons a earlier ih =>
    have he := (List.cons_subset.1 he).2
    have conflict : consistent (background ++ earlier.reverse ++ kept) = false := by
      rw [Bool.eq_false_iff] at settled ⊢
      intro h
      exact settled (hereditary (by simp) (around_subset hb he hk) h)
    rw [scan, conflict]
    exact ih he

theorem scan_minimal {a : α} (mem : a ∈ scan consistent background earlier kept) (new : a ∉ kept)
    {rest : List α} (mem_rest : ∀ x ∈ rest,
      x ≠ a ∧ (x ∈ background ∨ x ∈ scan consistent background earlier kept)) :
    consistent rest = true := by
  induction earlier generalizing kept with
  | nil => exact absurd mem new
  | cons b earlier ih =>
    obtain ⟨hb', he⟩ := List.cons_subset.1 he
    simp only [scan] at mem mem_rest
    split_ifs at mem mem_rest with keep
    · by_cases same : a = b
      · -- `a` was kept because all that comes before it is consistent with what was kept after it.
        refine hereditary (fun x hx => ?_) (around_subset hb he hk) keep
        obtain ⟨ne, hx⟩ := mem_rest x hx
        have sublist := scan_sublist consistent background earlier (b :: kept)
        have := fun h => sublist.subset (a := x) h
        simp only [List.mem_append, List.mem_cons] at this ⊢
        rw [same] at ne
        tauto
      · exact ih he (List.cons_subset.2 ⟨hb', hk⟩) mem (by simp [same, new]) mem_rest
    · exact ih he hk mem new mem_rest

end Hereditary

section Search

variable {ε σ : Type} {query : List α → ExceptT ε (StateM σ) Bool}

def divide (query : List α → ExceptT ε (StateM σ) Bool) (background candidates : List α) :
    ExceptT ε (StateM σ) (List α) :=
  if 1 < candidates.length then do
    let first := candidates.take (candidates.length / 2)
    let second := candidates.drop (candidates.length / 2)
    let fromSecond ← minimalConflict query (!first.isEmpty) (background ++ first) second
    let fromFirst ← minimalConflict query (!fromSecond.isEmpty) (background ++ fromSecond) first
    return fromFirst ++ fromSecond
  else return candidates

theorem minimalConflict_settled {background : List α} {s s' : σ}
    (h : (query background).run s = (.ok false, s')) (candidates : List α) :
    (minimalConflict query true background candidates).run s = (.ok [], s') := by
  rw [minimalConflict, if_pos rfl, run_bind_ok (run_map_ok h)]
  rfl

theorem minimalConflict_grown {background : List α} {s s' : σ}
    (h : (query background).run s = (.ok true, s')) (candidates : List α) :
    (minimalConflict query true background candidates).run s =
      (divide query background candidates).run s' := by
  rw [minimalConflict, if_pos rfl, run_bind_ok (run_map_ok h)]
  rfl

theorem minimalConflict_not_grown (background candidates : List α) :
    minimalConflict query false background candidates = divide query background candidates := by
  rw [minimalConflict, if_neg (by simp), pure_bind]
  rfl

def Answers (query : List α → ExceptT ε (StateM σ) Bool) (ready : σ → Prop)
    (consistent : List α → Bool) (all : List α) : Prop :=
  ∀ ⦃s⦄, ready s → ∀ ⦃xs⦄, xs ⊆ all →
    ∃ s', ready s' ∧ (query xs).run s = (.ok (consistent xs), s')

variable {ready : σ → Prop}

def Finds (query : List α → ExceptT ε (StateM σ) Bool) (ready : σ → Prop)
    (consistent : List α → Bool) (grown : Bool) (background candidates : List α) : Prop :=
  ∀ ⦃s⦄, ready s → ∃ s', ready s' ∧ (minimalConflict query grown background candidates).run s =
    (.ok (scan consistent background candidates.reverse []), s')

theorem scan_reverse_subset (background : List α) {candidates : List α} (hc : candidates ⊆ all) :
    scan consistent background candidates.reverse [] ⊆ all := by
  intro x hx
  have mem := (scan_sublist consistent background candidates.reverse []).subset hx
  exact hc (by simpa using mem)

theorem scan_reverse_conflict {background candidates : List α}
    (conflict : consistent (background ++ candidates) = false) :
    consistent (background ++ scan consistent background candidates.reverse []) = false := by
  apply scan_conflict
  rwa [List.reverse_reverse, List.append_nil]

theorem scan_halves (hereditary : Hereditary consistent all) {background first second : List α}
    (hb : background ⊆ all) (hf : first ⊆ all) (hs : second ⊆ all) :
    scan consistent background (first ++ second).reverse [] =
      scan consistent (background ++ scan consistent (background ++ first) second.reverse [])
          first.reverse [] ++
        scan consistent (background ++ first) second.reverse [] := by
  have hf : first.reverse ⊆ all := fun x hx => hf (List.mem_reverse.1 hx)
  rw [List.reverse_append, scan_append, List.reverse_reverse]
  exact scan_kept hereditary hb hf (scan_reverse_subset _ hs) (List.nil_subset all)

theorem conflict_of_second (hereditary : Hereditary consistent all) {background first second : List α}
    (hb : background ⊆ all) (hf : first ⊆ all) (hs : second ⊆ all)
    (conflict : consistent (background ++ first ++ second) = false) :
    consistent (background ++ scan consistent (background ++ first) second.reverse [] ++ first) =
      false := by
  rw [← scan_reverse_conflict conflict]
  apply hereditary.congr
  · intro x
    simp only [List.mem_append]
    tauto
  · intro x
    simp only [List.mem_append]
    tauto
  · exact List.append_subset.2 ⟨List.append_subset.2 ⟨hb, hf⟩, scan_reverse_subset _ hs⟩

theorem scan_short {background candidates : List α} (short : ¬ 1 < candidates.length)
    (conflict : consistent (background ++ candidates) = false)
    (open_background : consistent background = true) :
    scan consistent background candidates.reverse [] = candidates := by
  match candidates with
  | [] =>
    rw [List.append_nil, open_background] at conflict
    cases conflict
  | [a] => simp [scan, open_background]
  | _ :: _ :: _ => simp at short

theorem divide_eq_scan (hereditary : Hereditary consistent all) {background first second : List α}
    (hb : background ⊆ all) (hf : first ⊆ all) (h2 : second ⊆ all) (long : 1 < (first ++ second).length)
    (half : first.length = (first ++ second).length / 2)
    (finds₂ : Finds query ready consistent (!first.isEmpty) (background ++ first) second)
    (finds₁ : ∀ fromSecond, fromSecond = scan consistent (background ++ first) second.reverse [] →
      Finds query ready consistent (!fromSecond.isEmpty) (background ++ fromSecond) first)
    {s : σ} (hs : ready s) :
    ∃ s', ready s' ∧ (divide query background (first ++ second)).run s =
      (.ok (scan consistent background (first ++ second).reverse []), s') := by
  obtain ⟨s₂, hs₂, run₂⟩ := finds₂ hs
  obtain ⟨s₁, hs₁, run₁⟩ := finds₁ _ rfl hs₂
  refine ⟨s₁, hs₁, ?_⟩
  rw [divide, if_pos long, ← half, List.take_left, List.drop_left, run_bind_ok run₂, run_bind_ok run₁,
    scan_halves hereditary hb hf h2]
  rfl

theorem minimalConflict_eq_scan (answers : Answers query ready consistent all)
    (hereditary : Hereditary consistent all) {background candidates : List α}
    (hb : background ⊆ all) (hc : candidates ⊆ all)
    (conflict : consistent (background ++ candidates) = false) (grown : Bool)
    (sound : grown = false → consistent background = true) :
    Finds query ready consistent grown background candidates := by
  -- The invariant of the calls: background and candidates conflict, while a background that is not going
  -- to be queried does not.
  induction hn : candidates.length using Nat.strong_induction_on
    generalizing grown background candidates with
  | h n ih =>
    have divided (open_background : consistent background = true) {s : σ} (hs : ready s) :
        ∃ s', ready s' ∧ (divide query background candidates).run s =
          (.ok (scan consistent background candidates.reverse []), s') := by
      by_cases long : 1 < candidates.length
      · obtain ⟨first, second, rfl, half⟩ : ∃ first second, candidates = first ++ second ∧
            first.length = candidates.length / 2 :=
          ⟨candidates.take (candidates.length / 2), candidates.drop (candidates.length / 2),
            (List.take_append_drop _ _).symm, by rw [List.length_take]; omega⟩
        obtain ⟨hf, h2⟩ := List.append_subset.1 hc
        have lengths : (first ++ second).length = first.length + second.length := List.length_append
        have conflict₂ : consistent (background ++ first ++ second) = false := by
          rwa [List.append_assoc]
        apply divide_eq_scan hereditary hb hf h2 long half _ _ hs
        · apply ih second.length (by omega) (List.append_subset.2 ⟨hb, hf⟩) h2 conflict₂ _ _ rfl
          intro empty
          have := List.isEmpty_iff_length_eq_zero.1 (by simpa using empty : first.isEmpty = true)
          omega
        · intro fromSecond hx
          have hk : fromSecond ⊆ all := hx ▸ scan_reverse_subset _ h2
          apply ih first.length (by omega) (List.append_subset.2 ⟨hb, hk⟩) hf _ _ _ rfl
          · rw [hx]
            exact conflict_of_second hereditary hb hf h2 conflict₂
          · intro empty
            have nil : fromSecond = [] := by simpa using empty
            rwa [nil, List.append_nil]
      · refine ⟨s, hs, ?_⟩
        rw [divide, if_neg long, scan_short long conflict open_background]
        rfl
    intro s hs
    cases grown with
    | false =>
      rw [minimalConflict_not_grown]
      exact divided (sound rfl) hs
    | true =>
      obtain ⟨s', hs', answer⟩ := answers hs hb
      cases verdict : consistent background with
      | true =>
        rw [minimalConflict_grown (verdict ▸ answer)]
        exact divided verdict hs'
      | false =>
        refine ⟨s', hs', ?_⟩
        rw [minimalConflict_settled (verdict ▸ answer), scan_settled hereditary hb _ _ verdict]
        · exact fun x hx => hc (List.mem_reverse.1 hx)
        · exact List.nil_subset all

theorem linearDeletion_append (hereditary : Hereditary consistent all) {first second : List α}
    (hf : first ⊆ all) (hs : second ⊆ all) (conflict : consistent first = false) :
    linearDeletion consistent (first ++ second) = linearDeletion consistent first := by
  have hs : second.reverse ⊆ all := fun x hx => hs (List.mem_reverse.1 hx)
  rw [linearDeletion, List.reverse_append, scan_append, List.reverse_reverse, List.nil_append,
    scan_settled hereditary hf hs (List.nil_subset all) conflict]
  rfl

/-- An oracle on sets of positions below `n`. It never fails and its verdict depends on the set alone;
parts of consistent sets are consistent, the empty set is, and the set of all positions is not. -/
structure SetOracle (n : Nat) (query : List Nat → ExceptT ε (StateM σ) Bool)
    (verdict : Finset Nat → Bool) : Prop where
  answers : ∀ s positions, (∀ i ∈ positions, i < n) →
    ∃ s', (query positions).run s = (.ok (verdict positions.toFinset), s')
  hereditary : ∀ A B, A ⊆ B → B ⊆ Finset.range n → verdict B = true → verdict A = true
  empty : verdict ∅ = true
  full : verdict (Finset.range n) = false

namespace SetOracle

variable {n : Nat} {query : List Nat → ExceptT ε (StateM σ) Bool} {verdict : Finset Nat → Bool}

theorem answers_range (oracle : SetOracle n query verdict) {m : Nat} (le : m ≤ n) :
    Answers query (fun _ => True) (fun positions => verdict positions.toFinset) (List.range m) := by
  intro s _ positions bound
  obtain ⟨s', run⟩ := oracle.answers s positions
    fun i hi => (List.mem_range.1 (bound hi)).trans_le le
  exact ⟨s', trivial, run⟩

theorem conflict_range {m : Nat} (conflict : verdict (Finset.range m) = false) :
    verdict (List.range m).toFinset = false := by
  have same : (List.range m).toFinset = Finset.range m := by
    ext i
    rw [List.mem_toFinset, List.mem_range, Finset.mem_range]
  rw [same, conflict]

theorem hereditary_range (oracle : SetOracle n query verdict) {m : Nat} (le : m ≤ n) :
    Hereditary (fun positions => verdict positions.toFinset) (List.range m) := by
  intro xs ys sub bound
  apply oracle.hereditary
  · intro i
    simpa using @sub i
  · intro i hi
    have := List.mem_range.1 (bound (List.mem_toFinset.1 hi))
    exact Finset.mem_range.2 (this.trans_le le)

end SetOracle

/-- The search by halves returns exactly what linear deletion keeps. So if the positions below `m`
conflict already, those from `m` on make no difference. -/
theorem minimalConflict_eq_linearDeletion {n : Nat} {query : List Nat → ExceptT ε (StateM σ) Bool}
    {verdict : Finset Nat → Bool} (oracle : SetOracle n query verdict) (s : σ) :
    (∃ s', (minimalConflict query false [] (List.range n)).run s =
      (.ok (linearDeletion (fun positions => verdict positions.toFinset) (List.range n)), s')) ∧
    ∀ m ≤ n, verdict (Finset.range m) = false →
      ∃ s', (minimalConflict query false [] (List.range m)).run s =
        (.ok (linearDeletion (fun positions => verdict positions.toFinset) (List.range n)), s') := by
  have search (m : Nat) (le : m ≤ n) (conflict : verdict (Finset.range m) = false) :
      ∃ s', (minimalConflict query false [] (List.range m)).run s =
        (.ok (linearDeletion (fun positions => verdict positions.toFinset) (List.range m)), s') := by
    obtain ⟨s', _, run⟩ := minimalConflict_eq_scan (oracle.answers_range le)
      (oracle.hereditary_range le) (List.nil_subset _) (List.Subset.refl _)
      (SetOracle.conflict_range conflict) false (fun _ => oracle.empty) trivial
    exact ⟨s', run⟩
  refine ⟨search n le_rfl oracle.full, fun m le conflict => ?_⟩
  have appended : List.range n = List.range m ++ (List.range (n - m)).map (m + ·) := by
    rw [← List.range_add, Nat.add_sub_cancel' le]
  have bound : List.range m ++ (List.range (n - m)).map (m + ·) ⊆ List.range n := by
    rw [← appended]
    exact List.Subset.refl _
  obtain ⟨first_bound, rest_bound⟩ := List.append_subset.1 bound
  rw [appended, linearDeletion_append (oracle.hereditary_range le_rfl) first_bound rest_bound
    (SetOracle.conflict_range conflict)]
  exact search m le conflict

def countingQuery (positions : List Nat) : ExceptT Empty (StateM Nat) Bool := do
  modify (· + 1)
  return !(decide (1 ∈ positions) && decide (2 ∈ positions))

theorem minimalConflict_countingQuery :
    SetOracle 4 countingQuery (fun A => !(decide (1 ∈ A) && decide (2 ∈ A))) ∧
    (∃ s, (minimalConflict countingQuery false [] (List.range 4)).run 0 = (.ok [1, 2], s)) ∧
    ∃ s, (minimalConflict countingQuery false [] (List.range 3)).run 0 = (.ok [1, 2], s) := by
  have oracle : SetOracle 4 countingQuery (fun A => !(decide (1 ∈ A) && decide (2 ∈ A))) :=
    { answers := fun s positions _ => ⟨s + 1, by simp only [List.mem_toFinset]; rfl⟩
      hereditary := by
        intro A B sub _
        simp only [Bool.not_eq_true', Bool.and_eq_false_iff, decide_eq_false_iff_not]
        exact Or.imp (fun h m => h (sub m)) (fun h m => h (sub m))
      empty := by decide
      full := by decide }
  have cores := minimalConflict_eq_linearDeletion oracle 0
  exact ⟨oracle, cores.1, cores.2 3 (by decide) (by decide)⟩

end Search

end MissionTime.LinearDeletion
