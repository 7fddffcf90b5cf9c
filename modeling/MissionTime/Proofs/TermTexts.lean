import MissionTime.Proofs.PrintedTerms

/-! The texts of terms are unambiguous. Terms without degenerate connectives are told apart by their texts,
and the end of such a term can be seen from its text, whatever stands behind it: the first characters tell
the head of a term, a closing bar ends a name, and a closing parenthesis ends a list of operands. So two
terms have one text exactly if they differ in degenerate connectives only. -/
namespace MissionTime.Term

inductive Proper : Term → Prop
  | var (name : String) : Proper (.var name)
  | const (b : Bool) : Proper (.const b)
  | and {t₁ t₂ : Term} {ts : List Term} : (∀ t ∈ t₁ :: t₂ :: ts, Proper t) → Proper (.and (t₁ :: t₂ :: ts))
  | or {t₁ t₂ : Term} {ts : List Term} : (∀ t ∈ t₁ :: t₂ :: ts, Proper t) → Proper (.or (t₁ :: t₂ :: ts))
  | not {t : Term} : Proper t → Proper (.not t)

theorem proper_properAnd {ts : List Term} (h : ∀ t ∈ ts, Proper t) : Proper (properAnd ts) := by
  match ts with
  | [] => exact .const true
  | [t] => exact h t List.mem_cons_self
  | t₁ :: t₂ :: ts => exact .and h

theorem proper_properOr {ts : List Term} (h : ∀ t ∈ ts, Proper t) : Proper (properOr ts) := by
  match ts with
  | [] => exact .const false
  | [t] => exact h t List.mem_cons_self
  | t₁ :: t₂ :: ts => exact .or h

theorem proper_norm (t : Term) : Proper t.norm := by
  induction t using operandInduction with
  | var name => exact .var name
  | const b => exact .const b
  | not t ih => exact .not ih
  | and ts ih =>
    rw [norm, normAll_eq]
    exact proper_properAnd (List.forall_mem_map.2 ih)
  | or ts ih =>
    rw [norm, normAll_eq]
    exact proper_properOr (List.forall_mem_map.2 ih)

theorem printAllOnto_map_norm {ts : List Term} (h : ∀ t ∈ ts, ∀ rest, t.norm.printOnto rest = t.printOnto rest)
    (rest : List Char) : printAllOnto (ts.map norm) rest = printAllOnto ts rest := by
  induction ts with
  | nil => rfl
  | cons t ts ih =>
    obtain ⟨first, h⟩ := List.forall_mem_cons.1 h
    rw [List.map_cons, printAllOnto, printAllOnto, first, ih h]

theorem printConnective_map_norm {ts : List Term}
    (h : ∀ t ∈ ts, ∀ rest, t.norm.printOnto rest = t.printOnto rest) (neutral symbol rest : List Char) :
    printConnective neutral symbol (ts.map norm) rest = printConnective neutral symbol ts rest := by
  match ts with
  | [] => rfl
  | [t] => exact h t List.mem_cons_self rest
  | t₁ :: t₂ :: ts =>
    simp only [List.map_cons, printConnective]
    rw [← List.map_cons, ← List.map_cons, printAllOnto_map_norm h]

theorem printOnto_properAnd (ts : List Term) (rest : List Char) :
    (properAnd ts).printOnto rest = printConnective "true".toList "and".toList ts rest := by
  match ts with
  | [] | [_] | _ :: _ :: _ => rfl

theorem printOnto_properOr (ts : List Term) (rest : List Char) :
    (properOr ts).printOnto rest = printConnective "false".toList "or".toList ts rest := by
  match ts with
  | [] | [_] | _ :: _ :: _ => rfl

theorem printOnto_norm (t : Term) (rest : List Char) : t.norm.printOnto rest = t.printOnto rest := by
  induction t using operandInduction generalizing rest with
  | var name => rw [norm]
  | const b => rw [norm]
  | not t ih => rw [norm, printOnto_not, printOnto_not, ih]
  | and ts ih => rw [norm, normAll_eq, printOnto_properAnd, printOnto_and, printConnective_map_norm ih]
  | or ts ih => rw [norm, normAll_eq, printOnto_properOr, printOnto_or, printConnective_map_norm ih]

/-- No name in the term contains the mark that ends a quoted name. -/
def BarFree (t : Term) : Prop := ∀ name ∈ t.names, '|' ∉ name.toList

theorem barFree_and {ts : List Term} : BarFree (.and ts) ↔ ∀ t ∈ ts, BarFree t := by
  simp only [BarFree, names_and, List.forall_mem_flatMap]

theorem barFree_or {ts : List Term} : BarFree (.or ts) ↔ ∀ t ∈ ts, BarFree t := by
  simp only [BarFree, names_or, List.forall_mem_flatMap]

theorem barFree_not {t : Term} : BarFree (.not t) ↔ BarFree t := by
  simp only [BarFree, names_not]

def headOf? : List Char → Option Head
  | '|' :: cs => some (.var (String.ofList (cs.takeWhile (· != '|'))))
  | 't' :: _ => some (.const true)
  | 'f' :: _ => some (.const false)
  | '(' :: 'a' :: _ => some .and
  | '(' :: 'o' :: _ => some .or
  | '(' :: 'n' :: _ => some .not
  | _ => none

theorem headOf?_quoteOnto {name : String} (free : '|' ∉ name.toList) (rest : List Char) :
    headOf? (quoteOnto name rest) = some (.var name) := by
  have letters : ∀ c ∈ name.toList, (c != '|') = true := by
    intro c mem
    rw [bne_iff_ne]
    rintro rfl
    exact free mem
  simp [quoteOnto, headOf?, List.takeWhile_append_of_pos letters]

theorem Proper.headOf?_printOnto {t : Term} (proper : Proper t) (free : BarFree t) (rest : List Char) :
    headOf? (t.printOnto rest) = some t.head := by
  cases proper with
  | var name => exact headOf?_quoteOnto (free name (by simp)) rest
  | const b => cases b <;> rfl
  | _ => rfl

theorem head_eq_of_printOnto {t u : Term} (proper : Proper t) (free : BarFree t) (proper' : Proper u)
    (free' : BarFree u) {rest rest' : List Char} (same : t.printOnto rest = u.printOnto rest') :
    t.head = u.head := by
  have read := proper.headOf?_printOnto free rest
  rw [same, proper'.headOf?_printOnto free' rest'] at read
  exact (Option.some.inj read).symm

/-- The text of the term tells where it ends and which term it is of. -/
def Legible (t : Term) : Prop :=
  ∀ ⦃u rest rest'⦄, Proper u → BarFree u → t.printOnto rest = u.printOnto rest' → t = u ∧ rest = rest'

theorem legible_operands {ts us : List Term} (legible : ∀ t ∈ ts, Legible t) (proper : ∀ u ∈ us, Proper u)
    (free : ∀ u ∈ us, BarFree u) {rest rest' : List Char}
    (same : printAllOnto ts (')' :: rest) = printAllOnto us (')' :: rest')) : ts = us ∧ rest = rest' := by
  induction ts generalizing us with
  | nil =>
    cases us with
    | nil => exact ⟨rfl, List.tail_eq_of_cons_eq same⟩
    | cons u us => simp [printAllOnto] at same
  | cons t ts ih =>
    cases us with
    | nil => simp [printAllOnto] at same
    | cons u us =>
      simp only [List.forall_mem_cons] at legible proper free
      rw [printAllOnto, printAllOnto] at same
      obtain ⟨first, others⟩ := legible.1 proper.1 free.1 (List.tail_eq_of_cons_eq same)
      obtain ⟨rest, behind⟩ := ih legible.2 proper.2 free.2 others
      exact ⟨congrArg₂ List.cons first rest, behind⟩

theorem legible {t : Term} (proper : Proper t) (free : BarFree t) : Legible t := by
  -- On the term whose text comes first in the equation; the head of the other one is the same, and so are
  -- its operands.
  induction proper with
  | var name =>
    intro u rest rest' proper' free' same
    have heads := head_eq_of_printOnto (.var name) free proper' free' same
    cases proper' with
    | var name' =>
      cases heads
      have behind := (List.append_right_inj name.toList).1 (List.tail_eq_of_cons_eq same)
      exact ⟨rfl, List.tail_eq_of_cons_eq behind⟩
    | _ => cases heads
  | const b =>
    intro u rest rest' proper' free' same
    have heads := head_eq_of_printOnto (.const b) free proper' free' same
    cases proper' with
    | const b' =>
      cases heads
      refine ⟨rfl, ?_⟩
      cases b with
      | true => exact (List.append_right_inj "true".toList).1 same
      | false => exact (List.append_right_inj "false".toList).1 same
    | _ => cases heads
  | not proper ih =>
    intro u rest rest' proper' free' same
    have heads := head_eq_of_printOnto (.not proper) free proper' free' same
    cases proper' with
    | not proper' =>
      obtain ⟨operands, behind⟩ := ih (barFree_not.1 free) proper' (barFree_not.1 free')
        ((List.append_right_inj "(not ".toList).1 same)
      exact ⟨congrArg not operands, List.tail_eq_of_cons_eq behind⟩
    | _ => cases heads
  | and proper ih =>
    intro u rest rest' proper' free' same
    have heads := head_eq_of_printOnto (.and proper) free proper' free' same
    cases proper' with
    | and proper' =>
      have legible := fun t mem => ih t mem (barFree_and.1 free t mem)
      obtain ⟨operands, behind⟩ := legible_operands legible proper' (barFree_and.1 free')
        ((List.append_right_inj "(and".toList).1 same)
      exact ⟨congrArg and operands, behind⟩
    | _ => cases heads
  | or proper ih =>
    intro u rest rest' proper' free' same
    have heads := head_eq_of_printOnto (.or proper) free proper' free' same
    cases proper' with
    | or proper' =>
      have legible := fun t mem => ih t mem (barFree_or.1 free t mem)
      obtain ⟨operands, behind⟩ := legible_operands legible proper' (barFree_or.1 free')
        ((List.append_right_inj "(or".toList).1 same)
      exact ⟨congrArg or operands, behind⟩
    | _ => cases heads

/-- Terms whose names contain no bar have one text exactly if they differ in degenerate connectives only,
and these have no part in the value of a term. -/
theorem text_eq_iff_norm_eq {t u : Term} (free : ∀ name ∈ t.names, '|' ∉ name.toList)
    (free' : ∀ name ∈ u.names, '|' ∉ name.toList) :
    (t.text = u.text ↔ t.norm = u.norm) ∧
      ∀ (value : String → Bool) (v : Term), v.norm.eval value = v.eval value := by
  have text_norm (v : Term) : v.norm.text = v.text := congrArg String.ofList (printOnto_norm v [])
  refine ⟨⟨fun same => ?_, fun same => ?_⟩, eval_norm⟩
  · have printed : t.norm.printOnto [] = u.norm.printOnto [] := by
      rw [printOnto_norm, printOnto_norm]
      exact String.ofList_injective same
    have freeNorm : BarFree t.norm := by rwa [BarFree, names_norm]
    have freeNorm' : BarFree u.norm := by rwa [BarFree, names_norm]
    exact (legible t.proper_norm freeNorm u.proper_norm freeNorm' printed).1
  · rw [← text_norm t, same, text_norm]

theorem text_eq_iff_norm_eq_nested :
    let name := "p) (and q"
    let t := Term.and [.or [.and [.var name]], .not (.or [])]
    let u := Term.and [.var name, .not (.const false)]
    (∀ name ∈ t.names, '|' ∉ name.toList) ∧ (∀ name ∈ u.names, '|' ∉ name.toList) ∧
      t.text = "(and |p) (and q| (not false))" ∧ t.text = u.text ∧ t.norm = u.norm ∧
      ∀ value, t.norm.eval value = t.eval value := by
  intro name t u
  have free : ∀ name ∈ t.names, '|' ∉ name.toList := by decide
  have free' : ∀ name ∈ u.names, '|' ∉ name.toList := by decide
  have text : t.text = "(and |p) (and q| (not false))" := by decide
  have same : t.text = u.text := by decide
  obtain ⟨texts, values⟩ := text_eq_iff_norm_eq free free'
  exact ⟨free, free', text, same, texts.1 same, fun value => values value t⟩

example : (Term.and [.var "p| |q", .const true]).text =
    (Term.and [.var "p", .var "q", .const true]).text := by decide

end MissionTime.Term
