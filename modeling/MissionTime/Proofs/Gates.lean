import MissionTime.Oracle.Clausal
import MissionTime.Proofs.Runs
import MissionTime.Proofs.Term

/-! What the clauses of the internal oracle say. Every variable that is not the variable of a name is
defined by clauses of its own, so the values of the names determine all others: `extension` computes
them. The invariant `Represents` says that the clauses hold exactly where the variables have these values
and the accepted terms are true; gates, names and assertions preserve it, failed ones too. -/
namespace MissionTime
open Runs

namespace Literal

theorem eval_of_true (value : Nat → Bool) (index : Nat) : (of index true).eval value = value index := by
  simp [eval]

theorem eval_congr {value value' : Nat → Bool} {l : Literal} (h : value l.index = value' l.index) :
    l.eval value = l.eval value' := by
  rw [eval, eval, h]

end Literal

namespace ClauseSet

theorem eval_append (value : Nat → Bool) (c d : ClauseSet) :
    eval value (c ++ d) = (eval value c && eval value d) := List.all_append

theorem eval_implication (value : Nat → Bool) (l m : Literal) :
    Clause.eval value [l.negate, m] = true ↔ (l.eval value = true → m.eval value = true) := by
  cases hl : l.eval value <;> simp [Clause.eval, Literal.eval_negate, hl]

theorem eval_reverse_map {α : Type} (value : Nat → Bool) (clause : α → Clause) (as : List α) :
    eval value (as.map clause).reverse = true ↔ ∀ a ∈ as, (clause a).eval value = true := by
  simp [eval, List.all_reverse, List.all_map]

def conjunctionOf (v : Literal) (ls : List Literal) : ClauseSet :=
  (ls.map Literal.negate ++ [v]) :: (ls.map fun l => [v.negate, l]).reverse

def disjunctionOf (v : Literal) (ls : List Literal) : ClauseSet :=
  (ls ++ [v.negate]) :: (ls.map fun l => [l.negate, v]).reverse

theorem eval_conjunctionOf (value : Nat → Bool) (v : Literal) (ls : List Literal) :
    eval value (conjunctionOf v ls) = true ↔ v.eval value = ls.all (·.eval value) := by
  have each : eval value (ls.map fun l => [v.negate, l]).reverse = true ↔
      (v.eval value = true → ls.all (·.eval value) = true) := by
    simp only [eval_reverse_map, eval_implication, List.all_eq_true]
    exact ⟨fun h hv l mem => h l mem hv, fun h l mem hv => h hv l mem⟩
  have all : Clause.eval value (ls.map Literal.negate ++ [v]) = true ↔
      (ls.all (·.eval value) = true → v.eval value = true) := by
    have negated : (ls.map Literal.negate).any (·.eval value) = !ls.all (·.eval value) := by
      simp [List.any_map, List.not_all_eq_any_not, Function.comp_def, Literal.eval_negate]
    rw [Clause.eval, List.any_append, negated]
    cases ls.all (·.eval value) <;> simp
  rw [conjunctionOf, eval_cons, Bool.and_eq_true, all, each]
  exact iff_def'.symm.trans Bool.eq_iff_iff.symm

theorem eval_disjunctionOf (value : Nat → Bool) (v : Literal) (ls : List Literal) :
    eval value (disjunctionOf v ls) = true ↔ v.eval value = ls.any (·.eval value) := by
  have each : eval value (ls.map fun l => [l.negate, v]).reverse = true ↔
      (ls.any (·.eval value) = true → v.eval value = true) := by
    simp only [eval_reverse_map, eval_implication, List.any_eq_true]
    exact ⟨fun h ⟨l, mem, hl⟩ => h l mem hl, fun h l mem hl => h ⟨l, mem, hl⟩⟩
  have any : Clause.eval value (ls ++ [v.negate]) = true ↔
      (v.eval value = true → ls.any (·.eval value) = true) := by
    rw [Clause.eval, List.any_append]
    cases hv : v.eval value <;> simp [Literal.eval_negate, hv]
  rw [disjunctionOf, eval_cons, Bool.and_eq_true, any, each]
  exact iff_def.symm.trans Bool.eq_iff_iff.symm

theorem index_of_mem_conjunctionOf {v l : Literal} {ls : List Literal} {c : Clause}
    (hc : c ∈ conjunctionOf v ls) (hl : l ∈ c) : l.index = v.index ∨ ∃ m ∈ ls, l.index = m.index := by
  simp only [conjunctionOf, List.mem_cons, List.mem_reverse, List.mem_map] at hc
  rcases hc with rfl | ⟨m, hm, rfl⟩
  · simp only [List.mem_append, List.mem_map, List.mem_singleton] at hl
    rcases hl with ⟨m, hm, rfl⟩ | rfl
    · exact .inr ⟨m, hm, Literal.index_negate m⟩
    · exact .inl rfl
  · simp only [List.mem_cons, List.not_mem_nil, or_false] at hl
    rcases hl with rfl | rfl
    · exact .inl (Literal.index_negate v)
    · exact .inr ⟨l, hm, rfl⟩

theorem index_of_mem_disjunctionOf {v l : Literal} {ls : List Literal} {c : Clause}
    (hc : c ∈ disjunctionOf v ls) (hl : l ∈ c) : l.index = v.index ∨ ∃ m ∈ ls, l.index = m.index := by
  simp only [disjunctionOf, List.mem_cons, List.mem_reverse, List.mem_map] at hc
  rcases hc with rfl | ⟨m, hm, rfl⟩
  · rcases List.mem_append.1 hl with hm | hl
    · exact .inr ⟨l, hm, rfl⟩
    · rw [List.mem_singleton.1 hl]
      exact .inl (Literal.index_negate v)
  · simp only [List.mem_cons, List.not_mem_nil, or_false] at hl
    rcases hl with rfl | rfl
    · exact .inr ⟨m, hm, Literal.index_negate m⟩
    · exact .inl rfl

end ClauseSet

namespace Clausal

def Agrees (s : Clausal) (a : String → Bool) (value : Nat → Bool) : Prop :=
  ∀ ⦃name index⦄, s.names[name]? = some index → value index = a name

/-- The clauses hold exactly where every variable has the value that `extension` computes for it from
the values of the names, and where the accepted terms are true. -/
structure Represents (s : Clausal) (accepted : List Term)
    (extension : (String → Bool) → Nat → Bool) : Prop where
  names : ∀ ⦃name index⦄, s.names[name]? = some index →
    index < s.next ∧ ∀ a, extension a index = a name
  truth : ∀ ⦃l⦄, s.truth = some l → l.index < s.next ∧ ∀ a, l.eval (extension a) = true
  bounded : ∀ c ∈ s.clauses, ∀ l ∈ c, l.index < s.next
  clauses : ∀ ⦃a value⦄, s.Agrees a value → (s.clauses.eval value = true ↔
    (∀ index < s.next, value index = extension a index) ∧ ∀ t ∈ accepted, t.eval a = true)

theorem represents_empty : Represents {} [] fun _ _ => false where
  names := by
    intro name index h
    simp at h
  truth := nofun
  bounded := nofun
  clauses := by
    intro a value _
    simp [ClauseSet.eval]

variable {s s' : Clausal} {accepted : List Term} {extension extension' : (String → Bool) → Nat → Bool}

theorem Represents.agrees_extension (h : Represents s accepted extension) (a : String → Bool) :
    s.Agrees a (extension a) := fun _ _ hn => (h.names hn).2 a

def addValue (extension : (String → Bool) → Nat → Bool) (next : Nat) (d : (String → Bool) → Bool) :
    (String → Bool) → Nat → Bool :=
  fun a index => if index = next then d a else extension a index

theorem addValue_new (extension : (String → Bool) → Nat → Bool) (next : Nat)
    (d : (String → Bool) → Bool) (a : String → Bool) : addValue extension next d a next = d a :=
  if_pos rfl

theorem addValue_old (extension : (String → Bool) → Nat → Bool) {next index : Nat}
    (d : (String → Bool) → Bool) (a : String → Bool) (lt : index < next) :
    addValue extension next d a index = extension a index :=
  if_neg (Nat.ne_of_lt lt)

theorem Represents.define (h : Represents s accepted extension) {d : (String → Bool) → Bool}
    {definition : ClauseSet} (next : s'.next = s.next + 1)
    (clauses : s'.clauses = definition ++ s.clauses)
    (bounded : ∀ c ∈ definition, ∀ l ∈ c, l.index < s'.next)
    (kept : ∀ ⦃name : String⦄ ⦃index : Nat⦄, s.names[name]? = some index → s'.names[name]? = some index)
    (names : ∀ ⦃name : String⦄ ⦃index : Nat⦄, s'.names[name]? = some index →
      s.names[name]? = some index ∨ index = s.next ∧ ∀ a, d a = a name)
    (truth : ∀ ⦃l⦄, s'.truth = some l → s.truth = some l ∨ l = .of s.next true ∧ ∀ a, d a = true)
    (defined : ∀ ⦃a value⦄, s'.Agrees a value → (∀ index < s.next, value index = extension a index) →
      (definition.eval value = true ↔ value s.next = d a)) :
    Represents s' accepted (addValue extension s.next d) where
  names := by
    intro name index hn
    rcases names hn with old | ⟨rfl, value⟩
    · obtain ⟨lt, value⟩ := h.names old
      exact ⟨by omega, fun a => by rw [addValue_old extension d a lt, value]⟩
    · exact ⟨by omega, fun a => by rw [addValue_new, value]⟩
  truth := by
    intro l hl
    rcases truth hl with old | ⟨rfl, value⟩
    · obtain ⟨lt, value⟩ := h.truth old
      refine ⟨by omega, fun a => ?_⟩
      rw [← value a]
      exact Literal.eval_congr (addValue_old extension d a lt)
    · refine ⟨by rw [Literal.index_of]; omega, fun a => ?_⟩
      rw [Literal.eval_of_true, addValue_new, value]
  bounded := by
    intro c hc l hl
    rcases List.mem_append.1 (clauses ▸ hc) with hc | hc
    · exact bounded c hc l hl
    · have := h.bounded c hc l hl
      omega
  clauses := by
    intro a value agrees
    have old := h.clauses fun name index hn => agrees (kept hn)
    have split : (∀ index < s'.next, value index = addValue extension s.next d a index) ↔
        value s.next = d a ∧ ∀ index < s.next, value index = extension a index := by
      constructor
      · intro same
        refine ⟨by rw [same s.next (by omega), addValue_new], fun index lt => ?_⟩
        rw [same index (by omega), addValue_old extension d a lt]
      · rintro ⟨new, same⟩ index lt
        rcases Nat.lt_or_eq_of_le (Nat.lt_succ_iff.1 (next ▸ lt)) with old_lt | rfl
        · rw [same index old_lt, addValue_old extension d a old_lt]
        · rw [new, addValue_new]
    rw [clauses, ClauseSet.eval_append, Bool.and_eq_true, old, split]
    constructor
    · rintro ⟨definition, same, holds⟩
      exact ⟨⟨(defined agrees same).1 definition, same⟩, holds⟩
    · rintro ⟨⟨new, same⟩, holds⟩
      exact ⟨(defined agrees same).2 new, same, holds⟩

structure Extends (s : Clausal) (extension : (String → Bool) → Nat → Bool) (s' : Clausal)
    (extension' : (String → Bool) → Nat → Bool) : Prop where
  names : s'.names = s.names
  next : s.next ≤ s'.next
  same : ∀ a, ∀ index < s.next, extension' a index = extension a index

theorem Extends.refl (s : Clausal) (extension : (String → Bool) → Nat → Bool) :
    Extends s extension s extension :=
  ⟨rfl, Nat.le_refl _, fun _ _ _ => rfl⟩

theorem Extends.trans {s'' : Clausal} {extension'' : (String → Bool) → Nat → Bool}
    (h : Extends s extension s' extension') (h' : Extends s' extension' s'' extension'') :
    Extends s extension s'' extension'' := by
  refine ⟨h'.names.trans h.names, Nat.le_trans h.next h'.next, fun a index lt => ?_⟩
  rw [h'.same a index (Nat.lt_of_lt_of_le lt h.next), h.same a index lt]

def Stands (s : Clausal) (extension : (String → Bool) → Nat → Bool) (l : Literal) (t : Term) : Prop :=
  l.index < s.next ∧ ∀ a, l.eval (extension a) = t.eval a

theorem Stands.mono {l : Literal} {t : Term} (h : Stands s extension l t)
    (extends_state : Extends s extension s' extension') : Stands s' extension' l t := by
  refine ⟨Nat.lt_of_lt_of_le h.1 extends_state.next, fun a => ?_⟩
  rw [← h.2 a]
  exact Literal.eval_congr (extends_state.same a l.index h.1)

theorem Stands.negate {l : Literal} {t : Term} (h : Stands s extension l t) :
    Stands s extension l.negate (.not t) := by
  refine ⟨by rw [Literal.index_negate]; exact h.1, fun a => ?_⟩
  rw [Literal.eval_negate, h.2, Term.eval_not]

theorem Stands.congr {l : Literal} {t u : Term} (h : Stands s extension l t)
    (same : ∀ a, t.eval a = u.eval a) : Stands s extension l u :=
  ⟨h.1, fun a => by rw [h.2, same]⟩

/-- A computation that mentions `names`. It keeps the invariant; it succeeds, with a result that
satisfies `post`, if all the names are declared, and reports one that is not declared otherwise. -/
def Keeps {α : Type} (accepted : List Term) (s : Clausal) (extension : (String → Bool) → Nat → Bool)
    (names : List String) (x : Call Clausal α)
    (post : Clausal → ((String → Bool) → Nat → Bool) → α → Prop) : Prop :=
  ∃ s' extension', Represents s' accepted extension' ∧ Extends s extension s' extension' ∧
    ((∃ a, x.run s = (.ok a, s') ∧ (∀ name ∈ names, name ∈ s.names) ∧ post s' extension' a) ∨
      ∃ name ∈ names, name ∉ s.names ∧ x.run s = (.error (.unknownVariable name), s'))

section Keeps

variable {α β : Type} {names names' : List String} {x : Call Clausal α}
  {post : Clausal → ((String → Bool) → Nat → Bool) → α → Prop}

theorem keeps_pure (h : Represents s accepted extension) {a : α} (ha : post s extension a) :
    Keeps accepted s extension [] (pure a) post :=
  ⟨s, extension, h, .refl s extension, .inl ⟨a, rfl, nofun, ha⟩⟩

theorem Keeps.bind {f : α → Call Clausal β}
    {post' : Clausal → ((String → Bool) → Nat → Bool) → β → Prop}
    (hx : Keeps accepted s extension names x post)
    (hf : ∀ ⦃s' extension' a⦄, Represents s' accepted extension' → Extends s extension s' extension' →
      post s' extension' a → Keeps accepted s' extension' names' (f a) post') :
    Keeps accepted s extension (names ++ names') (x >>= f) post' := by
  obtain ⟨s₁, e₁, h₁, le₁, ⟨a, run, declared, ha⟩ | ⟨name, mem, undeclared, run⟩⟩ := hx
  · obtain ⟨s₂, e₂, h₂, le₂, result⟩ := hf h₁ le₁ ha
    refine ⟨s₂, e₂, h₂, le₁.trans le₂, ?_⟩
    rw [run_bind_ok run]
    rcases result with ⟨b, run', declared', hb⟩ | ⟨name, mem, undeclared, run'⟩
    · refine .inl ⟨b, run', fun name mem => ?_, hb⟩
      rcases List.mem_append.1 mem with mem | mem
      · exact declared name mem
      · exact le₁.names ▸ declared' name mem
    · exact .inr ⟨name, List.mem_append_right _ mem, le₁.names ▸ undeclared, run'⟩
  · exact ⟨s₁, e₁, h₁, le₁, .inr ⟨name, List.mem_append_left _ mem, undeclared, run_bind_error run⟩⟩

theorem Keeps.map {f : α → β} {post' : Clausal → ((String → Bool) → Nat → Bool) → β → Prop}
    (hx : Keeps accepted s extension names x post)
    (hf : ∀ ⦃s' extension' a⦄, post s' extension' a → post' s' extension' (f a)) :
    Keeps accepted s extension names (f <$> x) post' := by
  rw [map_eq_pure_bind, ← List.append_nil names]
  exact hx.bind fun _ _ _ h _ ha => keeps_pure h (hf ha)

theorem Keeps.imp {post' : Clausal → ((String → Bool) → Nat → Bool) → α → Prop}
    (hx : Keeps accepted s extension names x post)
    (hp : ∀ ⦃s' extension' a⦄, post s' extension' a → post' s' extension' a) :
    Keeps accepted s extension names x post' := by
  obtain ⟨s', extension', h, le, ⟨a, run, declared, ha⟩ | failed⟩ := hx
  · exact ⟨s', extension', h, le, .inl ⟨a, run, declared, hp ha⟩⟩
  · exact ⟨s', extension', h, le, .inr failed⟩

end Keeps

theorem literalOf_run (name : String) (s : Clausal) :
    (literalOf name).run s = (match s.names[name]? with
      | some index => .ok (.of index true)
      | none => .error (.unknownVariable name), s) := by
  rw [literalOf, run_get_bind]
  cases s.names[name]? <;> rfl

theorem trueLiteral_run (s : Clausal) :
    trueLiteral.run s = match s.truth with
      | some l => (.ok l, s)
      | none => (.ok (.of s.next true),
        { s with
          next := s.next + 1
          truth := some (.of s.next true)
          clauses := [.of s.next true] :: s.clauses }) := by
  rw [trueLiteral, run_get_bind]
  cases s.truth <;> rfl

theorem fresh_run (s : Clausal) :
    fresh.run s = (.ok (.of s.next true), { s with next := s.next + 1 }) := rfl

theorem addClause_run (c : Clause) (s : Clausal) :
    (addClause c).run s = (.ok (), { s with clauses := c :: s.clauses }) := rfl

theorem forM_addClause_run {α : Type} (clause : α → Clause) (as : List α) (s : Clausal) :
    (as.forM fun a => addClause (clause a)).run s =
      (.ok (), { s with clauses := (as.map clause).reverse ++ s.clauses }) := by
  induction as generalizing s with
  | nil => rfl
  | cons a as ih =>
    rw [List.forM, run_bind_ok (addClause_run _ s), ih]
    simp

theorem conjunction_run (ls : List Literal) (s : Clausal) :
    (conjunction ls).run s = (.ok (.of s.next true),
      { s with
        next := s.next + 1
        clauses := ClauseSet.conjunctionOf (.of s.next true) ls ++ s.clauses }) := by
  rw [conjunction, run_bind_ok (fresh_run s), run_bind_ok (forM_addClause_run _ ls _)]
  rfl

theorem disjunction_run (ls : List Literal) (s : Clausal) :
    (disjunction ls).run s = (.ok (.of s.next true),
      { s with
        next := s.next + 1
        clauses := ClauseSet.disjunctionOf (.of s.next true) ls ++ s.clauses }) := by
  rw [disjunction, run_bind_ok (fresh_run s), run_bind_ok (forM_addClause_run _ ls _)]
  rfl

theorem keeps_literalOf (h : Represents s accepted extension) (name : String) :
    Keeps accepted s extension [name] (literalOf name) fun s' extension' l =>
      Stands s' extension' l (.var name) := by
  refine ⟨s, extension, h, .refl s extension, ?_⟩
  rw [literalOf_run]
  cases found : s.names[name]? with
  | none =>
    have undeclared : name ∉ s.names := by
      rw [Std.TreeMap.mem_iff_isSome_getElem?, found]
      simp
    exact .inr ⟨name, by simp, undeclared, rfl⟩
  | some index =>
    have declared : name ∈ s.names := by
      rw [Std.TreeMap.mem_iff_isSome_getElem?, found]
      rfl
    obtain ⟨lt, value⟩ := h.names found
    refine .inl ⟨.of index true, rfl, by simpa using declared, ?_, fun a => ?_⟩
    · rwa [Literal.index_of]
    · rw [Literal.eval_of_true, value, Term.eval_var]

theorem extends_addValue (names : s'.names = s.names) (next : s'.next = s.next + 1)
    (d : (String → Bool) → Bool) : Extends s extension s' (addValue extension s.next d) :=
  ⟨names, by omega, fun a _ lt => addValue_old extension d a lt⟩

theorem stands_addValue (next : s'.next = s.next + 1) {d : (String → Bool) → Bool} {t : Term}
    (value : ∀ a, d a = t.eval a) :
    Stands s' (addValue extension s.next d) (.of s.next true) t := by
  refine ⟨by rw [Literal.index_of]; omega, fun a => ?_⟩
  rw [Literal.eval_of_true, addValue_new, value]

theorem keeps_trueLiteral (h : Represents s accepted extension) :
    Keeps accepted s extension [] trueLiteral fun s' extension' l =>
      Stands s' extension' l (.const true) := by
  unfold Keeps
  rw [trueLiteral_run]
  cases known : s.truth with
  | some l =>
    obtain ⟨lt, value⟩ := h.truth known
    refine ⟨s, extension, h, .refl s extension, .inl ⟨l, rfl, nofun, lt, fun a => ?_⟩⟩
    rw [value, Term.eval_const]
  | none =>
    let s' : Clausal :=
      { s with
        next := s.next + 1
        truth := some (.of s.next true)
        clauses := [.of s.next true] :: s.clauses }
    have represents : Represents s' accepted (addValue extension s.next fun _ => true) := by
      refine h.define rfl (List.singleton_append ..).symm ?_ (fun _ _ hn => hn)
        (fun _ _ hn => .inl hn) ?_ ?_
      · simp [s']
      · rintro _ ⟨⟩
        exact .inr ⟨rfl, fun _ => rfl⟩
      · intro a value _ _
        simp [ClauseSet.eval, Clause.eval, Literal.eval_of_true]
    have names : s'.names = s.names := rfl
    exact ⟨s', _, represents, extends_addValue names rfl _,
      .inl ⟨_, rfl, nofun, stands_addValue rfl fun a => (Term.eval_const a true).symm⟩⟩

theorem map_eval_of_stands {ls : List Literal} {ts : List Term}
    (stand : List.Forall₂ (Stands s extension) ls ts) {a : String → Bool} {value : Nat → Bool}
    (same : ∀ index < s.next, value index = extension a index) :
    ls.map (·.eval value) = ts.map (·.eval a) := by
  induction stand with
  | nil => rfl
  | cons hl _ ih => rw [List.map_cons, List.map_cons, ih, Literal.eval_congr (same _ hl.1), hl.2]

theorem forall_index_lt_of_stands {ls : List Literal} {ts : List Term}
    (stand : List.Forall₂ (Stands s extension) ls ts) : ∀ l ∈ ls, l.index < s.next := by
  induction stand with
  | nil => nofun
  | cons hl _ ih => exact List.forall_mem_cons.2 ⟨hl.1, ih⟩

/-- A fresh literal stands for a term if its clauses, which are on it and on literals in use, say so. -/
theorem keeps_definition (h : Represents s accepted extension) {ls : List Literal} {t : Term}
    {x : Call Clausal Literal} {definition : ClauseSet}
    (run : x.run s = (.ok (.of s.next true),
      { s with next := s.next + 1, clauses := definition ++ s.clauses }))
    (used : ∀ l ∈ ls, l.index < s.next)
    (indices : ∀ c ∈ definition, ∀ l ∈ c,
      l.index = (Literal.of s.next true).index ∨ ∃ m ∈ ls, l.index = m.index)
    (defined : ∀ ⦃a value⦄, (∀ index < s.next, value index = extension a index) →
      (definition.eval value = true ↔ (Literal.of s.next true).eval value = t.eval a)) :
    Keeps accepted s extension [] x fun s' extension' l => Stands s' extension' l t := by
  let s' : Clausal := { s with next := s.next + 1, clauses := definition ++ s.clauses }
  have represents : Represents s' accepted (addValue extension s.next t.eval) := by
    refine h.define rfl rfl ?_ (fun _ _ hn => hn) (fun _ _ hn => .inl hn) (fun _ hl => .inl hl) ?_
    · intro c hc l hl
      show l.index < s.next + 1
      rcases indices c hc l hl with same | ⟨m, hm, same⟩
      · rw [same, Literal.index_of]
        exact Nat.lt_succ_self _
      · rw [same]
        exact Nat.lt_succ_of_lt (used m hm)
    · intro a value _ same
      rw [defined same, Literal.eval_of_true]
  have names : s'.names = s.names := rfl
  exact ⟨s', _, represents, extends_addValue names rfl _,
    .inl ⟨_, run, nofun, stands_addValue rfl fun _ => rfl⟩⟩

theorem keeps_conjunction (h : Represents s accepted extension) {ls : List Literal} {ts : List Term}
    (stand : List.Forall₂ (Stands s extension) ls ts) :
    Keeps accepted s extension [] (conjunction ls) fun s' extension' l =>
      Stands s' extension' l (.and ts) := by
  refine keeps_definition h (conjunction_run ls s) (forall_index_lt_of_stands stand)
    (fun _ hc _ hl => ClauseSet.index_of_mem_conjunctionOf hc hl) fun a value same => ?_
  have all : ls.all (·.eval value) = ts.all (·.eval a) := by
    simpa [List.all_map, Function.comp_def] using congrArg (List.all · id) (map_eval_of_stands stand same)
  rw [ClauseSet.eval_conjunctionOf, all, Term.eval_and]

theorem keeps_disjunction (h : Represents s accepted extension) {ls : List Literal} {ts : List Term}
    (stand : List.Forall₂ (Stands s extension) ls ts) :
    Keeps accepted s extension [] (disjunction ls) fun s' extension' l =>
      Stands s' extension' l (.or ts) := by
  refine keeps_definition h (disjunction_run ls s) (forall_index_lt_of_stands stand)
    (fun _ hc _ hl => ClauseSet.index_of_mem_disjunctionOf hc hl) fun a value same => ?_
  have any : ls.any (·.eval value) = ts.any (·.eval a) := by
    simpa [List.any_map, Function.comp_def] using congrArg (List.any · id) (map_eval_of_stands stand same)
  rw [ClauseSet.eval_disjunctionOf, any, Term.eval_or]

theorem keeps_gates {ts : List Term}
    (gated : ∀ t ∈ ts, ∀ ⦃s extension⦄, Represents s accepted extension →
      Keeps accepted s extension t.names (gate t) fun s' extension' l => Stands s' extension' l t)
    (h : Represents s accepted extension) :
    Keeps accepted s extension (ts.flatMap Term.names) (gates ts) fun s' extension' ls =>
      List.Forall₂ (Stands s' extension') ls ts := by
  induction ts generalizing s extension with
  | nil => exact keeps_pure h .nil
  | cons t ts ih =>
    rw [gates, List.flatMap_cons]
    refine (gated t (by simp) h).bind fun s₁ e₁ l h₁ _ hl => ?_
    rw [← List.append_nil (ts.flatMap Term.names)]
    refine (ih (fun u mem => gated u (List.mem_cons_of_mem t mem)) h₁).bind fun s₂ e₂ ls h₂ le hls => ?_
    exact keeps_pure h₂ (.cons (hl.mono le) hls)

/-- The literal of a gate stands for its term. -/
theorem keeps_gate (t : Term) (h : Represents s accepted extension) :
    Keeps accepted s extension t.names (gate t) fun s' extension' l => Stands s' extension' l t := by
  induction t using Term.operandInduction generalizing s extension with
  | var name =>
    rw [gate, Term.names_var]
    exact keeps_literalOf h name
  | const b =>
    rw [Term.names_const]
    cases b with
    | true =>
      rw [gate]
      exact keeps_trueLiteral h
    | false =>
      rw [gate]
      exact (keeps_trueLiteral h).map fun _ _ l hl => hl.negate.congr (by simp)
  | not t ih =>
    rw [gate, Term.names_not]
    exact (ih h).map fun _ _ l hl => hl.negate
  | and ts ih =>
    rw [Term.names_and]
    match ts with
    | [] =>
      rw [gate]
      exact (keeps_trueLiteral h).imp fun _ _ l hl => hl.congr (by simp)
    | [t] =>
      rw [gate, List.flatMap_singleton]
      exact (ih t (by simp) h).imp fun _ _ l hl => hl.congr (by simp)
    | t :: u :: ts =>
      rw [gate, ← List.append_nil (List.flatMap ..)]
      · exact (keeps_gates (fun t mem _ _ => ih t mem) h).bind fun _ _ ls h' _ hls =>
          keeps_conjunction h' hls
      all_goals simp
  | or ts ih =>
    rw [Term.names_or]
    match ts with
    | [] =>
      rw [gate]
      exact (keeps_trueLiteral h).map fun _ _ l hl => hl.negate.congr (by simp)
    | [t] =>
      rw [gate, List.flatMap_singleton]
      exact (ih t (by simp) h).imp fun _ _ l hl => hl.congr (by simp)
    | t :: u :: ts =>
      rw [gate, ← List.append_nil (List.flatMap ..)]
      · exact (keeps_gates (fun t mem _ _ => ih t mem) h).bind fun _ _ ls h' _ hls =>
          keeps_disjunction h' hls
      all_goals simp

end Clausal
end MissionTime
