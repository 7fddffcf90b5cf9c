import MissionTime.ClauseSet

/-! A search through all assignments. Literals that stand alone in a clause are assigned first; otherwise
the search branches on a literal of the first clause. Every assignment removes an occurrence of a
literal, which is why the search ends, and `exhaust_iff` says that it misses nothing. -/
namespace MissionTime.ClauseSet

/-- What remains of a clause set once `l` is true. -/
def assign (l : Literal) (clauses : ClauseSet) : ClauseSet :=
  (clauses.filter fun c => !c.contains l).map fun c => c.filter (· != l.negate)

def weight : ClauseSet → Nat
  | [] => 0
  | c :: clauses => c.length + weight clauses

@[simp]
theorem weight_cons (c : Clause) (clauses : ClauseSet) :
    weight (c :: clauses) = c.length + weight clauses := rfl

theorem assign_cons (l : Literal) (c : Clause) (clauses : ClauseSet) :
    assign l (c :: clauses) =
      if l ∈ c then assign l clauses else c.filter (· != l.negate) :: assign l clauses := by
  by_cases h : l ∈ c <;> simp [assign, h]

theorem weight_assign_le (l : Literal) (clauses : ClauseSet) :
    weight (assign l clauses) ≤ weight clauses := by
  induction clauses with
  | nil => simp [assign, weight]
  | cons c clauses ih =>
    rw [assign_cons]
    split
    · simp only [weight_cons]; omega
    · have := List.length_filter_le (· != l.negate) c
      simp only [weight_cons]; omega

theorem weight_assign_lt {l : Literal} {c : Clause} {clauses : ClauseSet} (hc : c ∈ clauses)
    (hl : l ∈ c ∨ l.negate ∈ c) : weight (assign l clauses) < weight clauses := by
  induction clauses with
  | nil => simp at hc
  | cons d clauses ih =>
    have le := weight_assign_le l clauses
    have short := List.length_filter_le (· != l.negate) d
    rw [assign_cons]
    rcases List.mem_cons.1 hc with rfl | hc
    · split
      · rename_i mem
        have := List.length_pos_of_mem mem
        simp only [weight_cons]; omega
      · rename_i absent
        have mem : l.negate ∈ c := hl.resolve_left absent
        have : (c.filter (· != l.negate)).length < c.length :=
          List.length_filter_lt_length_iff_exists.2 ⟨_, mem, by simp⟩
        simp only [weight_cons]; omega
    · have := ih hc
      split <;> simp only [weight_cons] <;> omega

def unit? : Clause → Option Literal
  | [l] => some l
  | _ => none

theorem mem_of_findSome?_unit? {l : Literal} {clauses : ClauseSet}
    (h : clauses.findSome? unit? = some l) : [l] ∈ clauses := by
  obtain ⟨c, mem, unit⟩ := List.exists_of_findSome?_eq_some h
  unfold unit? at unit
  split at unit <;> simp_all

def exhaust (clauses : ClauseSet) : Bool :=
  if clauses.any List.isEmpty then false
  else
    match _forced : clauses.findSome? unit? with
    | some l => exhaust (assign l clauses)
    | none =>
      match clauses with
      | [] => true
      | [] :: _ => false
      | (l :: c) :: rest =>
        exhaust (assign l ((l :: c) :: rest)) || exhaust (assign l.negate ((l :: c) :: rest))
termination_by weight clauses
decreasing_by
  · exact weight_assign_lt (mem_of_findSome?_unit? _forced) (.inl (by simp))
  · exact weight_assign_lt (List.mem_cons_self ..) (.inl (by simp))
  · exact weight_assign_lt (List.mem_cons_self ..) (.inr (by simp))

theorem eval_cons (value : Nat → Bool) (c : Clause) (clauses : ClauseSet) :
    eval value (c :: clauses) = (c.eval value && eval value clauses) := rfl

theorem eval_assign {value : Nat → Bool} {l : Literal} (hl : l.eval value = true)
    (clauses : ClauseSet) : (assign l clauses).eval value = clauses.eval value := by
  induction clauses with
  | nil => rfl
  | cons c clauses ih =>
    rw [assign_cons, eval_cons]
    split
    · rename_i mem
      have : c.eval value = true := List.any_eq_true.2 ⟨l, mem, hl⟩
      rw [ih, this, Bool.true_and]
    · have : Clause.eval value (c.filter (· != l.negate)) = c.eval value := by
        simp only [Clause.eval, List.any_filter]
        congr 1
        funext m
        by_cases eq : m = l.negate <;> simp [eq, hl]
      rw [eval_cons, ih, this]

theorem mem_assign {l : Literal} {c : Clause} {clauses : ClauseSet} (mem : c ∈ assign l clauses) :
    l ∉ c ∧ l.negate ∉ c := by
  simp only [assign, List.mem_map, List.mem_filter] at mem
  obtain ⟨d, ⟨_, absent⟩, rfl⟩ := mem
  simp_all

theorem eval_assign_congr {value value' : Nat → Bool} {l : Literal} {clauses : ClauseSet}
    (agree : ∀ index, index ≠ l.index → value index = value' index) :
    (assign l clauses).eval value = (assign l clauses).eval value' := by
  have same : ∀ c ∈ assign l clauses, Clause.eval value c = Clause.eval value' c := by
    intro c mem
    have absent := mem_assign mem
    rw [Bool.eq_iff_iff, Clause.eval, Clause.eval, List.any_eq_true, List.any_eq_true]
    refine exists_congr fun m => and_congr_right fun hm => ?_
    have : m.index ≠ l.index := fun eq => by
      rcases Literal.eq_or_eq_negate eq with rfl | rfl
      · exact absent.1 hm
      · exact absent.2 hm
    rw [Literal.eval, Literal.eval, agree _ this]
  rw [Bool.eq_iff_iff, eval, eval, List.all_eq_true, List.all_eq_true]
  exact forall_congr' fun c => imp_congr_right fun mem => by rw [same c mem]

theorem satisfiable_of_assign {l : Literal} {clauses : ClauseSet}
    (h : (assign l clauses).Satisfiable) : clauses.Satisfiable := by
  obtain ⟨value, holds⟩ := h
  let value' := fun index => if index = l.index then l.positive else value index
  refine ⟨value', ?_⟩
  rw [← eval_assign (by simp [Literal.eval, value'] : l.eval value' = true),
    eval_assign_congr (fun index ne => by simp [value', ne] : ∀ index, index ≠ l.index →
      value' index = value index)]
  exact holds

theorem assign_or_assign_negate {clauses : ClauseSet} (l : Literal) (h : clauses.Satisfiable) :
    (assign l clauses).Satisfiable ∨ (assign l.negate clauses).Satisfiable := by
  obtain ⟨value, holds⟩ := h
  by_cases hl : l.eval value = true
  · exact .inl ⟨value, by rw [eval_assign hl]; exact holds⟩
  · exact .inr ⟨value, by rw [eval_assign (by simpa using hl)]; exact holds⟩

theorem exhaust_iff (clauses : ClauseSet) : clauses.exhaust = true ↔ clauses.Satisfiable := by
  fun_induction exhaust clauses with
  | case1 clauses empty =>
    simp only [Bool.false_eq_true, false_iff]
    rintro ⟨value, holds⟩
    obtain ⟨c, mem, nil⟩ := List.any_eq_true.1 empty
    have := List.all_eq_true.1 holds c mem
    simp_all [Clause.eval]
  | case2 clauses _ l forced ih =>
    rw [ih]
    refine ⟨satisfiable_of_assign, ?_⟩
    rintro ⟨value, holds⟩
    have := List.all_eq_true.1 holds _ (mem_of_findSome?_unit? forced)
    exact ⟨value, by rw [eval_assign (by simpa [Clause.eval] using this)]; exact holds⟩
  | case3 => exact ⟨fun _ => ⟨fun _ => false, rfl⟩, fun _ => rfl⟩
  | case4 rest _ full => simp at full
  | case5 l c rest _ _ ihl ihn =>
    rw [Bool.or_eq_true, ihl, ihn]
    refine ⟨?_, assign_or_assign_negate l⟩
    rintro (h | h) <;> exact satisfiable_of_assign h

end MissionTime.ClauseSet
