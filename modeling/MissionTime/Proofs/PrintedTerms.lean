import MissionTime.Proofs.SolverLanguage

/-! Printed terms are read back, up to the degenerate connectives: a connective without operands is its
neutral constant, and one with a single operand is that operand. -/
namespace MissionTime

namespace Term

def properAnd : List Term → Term
  | [] => .const true
  | [t] => t
  | ts => .and ts

def properOr : List Term → Term
  | [] => .const false
  | [t] => t
  | ts => .or ts

mutual

def norm : Term → Term
  | .var name => .var name
  | .const b => .const b
  | .and ts => properAnd (normAll ts)
  | .or ts => properOr (normAll ts)
  | .not t => .not t.norm

def normAll : List Term → List Term
  | [] => []
  | t :: ts => t.norm :: normAll ts

end

theorem normAll_eq (ts : List Term) : normAll ts = ts.map norm := by
  induction ts with
  | nil => rfl
  | cons t ts ih => rw [normAll, ih, List.map_cons]

theorem eval_properAnd (value : String → Bool) (ts : List Term) :
    (properAnd ts).eval value = ts.all (·.eval value) := by
  unfold properAnd
  split <;> simp

theorem eval_properOr (value : String → Bool) (ts : List Term) :
    (properOr ts).eval value = ts.any (·.eval value) := by
  unfold properOr
  split <;> simp

theorem names_properAnd (ts : List Term) : (properAnd ts).names = ts.flatMap names := by
  unfold properAnd
  split <;> simp

theorem names_properOr (ts : List Term) : (properOr ts).names = ts.flatMap names := by
  unfold properOr
  split <;> simp

@[simp] theorem eval_norm (value : String → Bool) (t : Term) : t.norm.eval value = t.eval value := by
  induction t using operandInduction with
  | var name => rw [norm]
  | const b => rw [norm]
  | not t ih => rw [norm, eval_not, eval_not, ih]
  | and ts ih =>
    rw [norm, normAll_eq, eval_properAnd, eval_and, List.all_map, Bool.eq_iff_iff, List.all_eq_true,
      List.all_eq_true]
    exact forall₂_congr fun t mem => by rw [Function.comp, ih t mem]
  | or ts ih =>
    rw [norm, normAll_eq, eval_properOr, eval_or, List.any_map, Bool.eq_iff_iff, List.any_eq_true,
      List.any_eq_true]
    exact exists_congr fun t => and_congr_right fun mem => by rw [Function.comp, ih t mem]

@[simp] theorem names_norm (t : Term) : t.norm.names = t.names := by
  induction t using operandInduction with
  | var name => rw [norm]
  | const b => rw [norm]
  | not t ih => rw [norm, names_not, names_not, ih]
  | and ts ih =>
    rw [norm, normAll_eq, names_properAnd, names_and, List.flatMap_map]
    exact List.flatMap_congr ih
  | or ts ih =>
    rw [norm, normAll_eq, names_properOr, names_or, List.flatMap_map]
    exact List.flatMap_congr ih

theorem quoteOnto_append (name : String) (rest more : List Char) :
    quoteOnto name rest ++ more = quoteOnto name (rest ++ more) := by
  simp [quoteOnto]

theorem printAllOnto_append {ts : List Term}
    (h : ∀ t ∈ ts, ∀ rest more, t.printOnto rest ++ more = t.printOnto (rest ++ more))
    (rest more : List Char) : printAllOnto ts rest ++ more = printAllOnto ts (rest ++ more) := by
  induction ts with
  | nil => rfl
  | cons t ts ih =>
    obtain ⟨first, h⟩ := List.forall_mem_cons.1 h
    rw [printAllOnto, printAllOnto, List.cons_append, first, ih h]

def printConnective (neutral symbol : List Char) : List Term → List Char → List Char
  | [], rest => neutral ++ rest
  | [t], rest => t.printOnto rest
  | ts, rest => '(' :: (symbol ++ printAllOnto ts (')' :: rest))

-- The printer's own equations split all shapes of terms against each other; these are the shapes in use.
theorem printOnto_var (name : String) (rest : List Char) :
    (var name).printOnto rest = quoteOnto name rest := rfl

theorem printOnto_true (rest : List Char) : (const true).printOnto rest = "true".toList ++ rest := rfl

theorem printOnto_false (rest : List Char) : (const false).printOnto rest = "false".toList ++ rest := rfl

theorem printOnto_not (t : Term) (rest : List Char) :
    (not t).printOnto rest = "(not ".toList ++ t.printOnto (')' :: rest) := rfl

theorem printOnto_and (ts : List Term) (rest : List Char) :
    (and ts).printOnto rest = printConnective "true".toList "and".toList ts rest := by
  match ts with
  | [] | [_] | _ :: _ :: _ => rfl

theorem printOnto_or (ts : List Term) (rest : List Char) :
    (or ts).printOnto rest = printConnective "false".toList "or".toList ts rest := by
  match ts with
  | [] | [_] | _ :: _ :: _ => rfl

theorem printConnective_append {ts : List Term}
    (h : ∀ t ∈ ts, ∀ rest more, t.printOnto rest ++ more = t.printOnto (rest ++ more))
    (neutral symbol rest more : List Char) :
    printConnective neutral symbol ts rest ++ more = printConnective neutral symbol ts (rest ++ more) := by
  match ts with
  | [] => rw [printConnective, printConnective, List.append_assoc]
  | [t] => rw [printConnective, printConnective, h t List.mem_cons_self]
  | t₁ :: t₂ :: ts =>
    simp only [printConnective, List.cons_append, List.append_assoc, printAllOnto_append h]

theorem printOnto_append (t : Term) (rest more : List Char) :
    t.printOnto rest ++ more = t.printOnto (rest ++ more) := by
  induction t using operandInduction generalizing rest more with
  | var name => rw [printOnto_var, printOnto_var, quoteOnto_append]
  | const b =>
    cases b with
    | true => rw [printOnto_true, printOnto_true, List.append_assoc]
    | false => rw [printOnto_false, printOnto_false, List.append_assoc]
  | not t ih => rw [printOnto_not, printOnto_not, List.append_assoc, ih, List.cons_append]
  | and ts ih => rw [printOnto_and, printOnto_and, printConnective_append ih]
  | or ts ih => rw [printOnto_or, printOnto_or, printConnective_append ih]

end Term

namespace SolverLanguage

/-- A connective as it is written, with the constant that stands for it when it has no operands. -/
def Sexp.connective (neutral symbol : String) : List Sexp → Sexp
  | [] => .word neutral
  | [e] => e
  | es => .list (.word symbol :: es)

mutual

def Sexp.ofTerm : Term → Sexp
  | .var name => .quoted name
  | .const true => .word "true"
  | .const false => .word "false"
  | .and ts => .connective "true" "and" (ofTerms ts)
  | .or ts => .connective "false" "or" (ofTerms ts)
  | .not t => .list [.word "not", ofTerm t]

def Sexp.ofTerms : List Term → List Sexp
  | [] => []
  | t :: ts => ofTerm t :: ofTerms ts

end

theorem Sexp.ofTerms_eq (ts : List Term) : ofTerms ts = ts.map ofTerm := by
  induction ts with
  | nil => rfl
  | cons t ts ih => rw [ofTerms, ih, List.map_cons]

theorem Sexp.term?_connective {neutral symbol : String} {build : List Term → Term}
    (none : (word neutral).term? = some (build [])) (one : ∀ t, build [t] = t)
    (more : ∀ t₁ t₂ ts, connect symbol (t₁ :: t₂ :: ts) = some (build (t₁ :: t₂ :: ts))) (es : List Sexp) :
    (connective neutral symbol es).term? = (terms? es).map build := by
  match es with
  | [] => exact none
  | [e] =>
    simp only [connective, terms?]
    cases e.term? with
    | none => rfl
    | some t => simp [one]
  | e₁ :: e₂ :: es =>
    simp only [connective, term?, terms?]
    cases e₁.term? <;> cases e₂.term? <;> cases terms? es <;> simp [more]

theorem Sexp.term?_connective_and (es : List Sexp) :
    (connective "true" "and" es).term? = (terms? es).map Term.properAnd :=
  term?_connective rfl (fun _ => rfl) (fun _ _ _ => rfl) es

theorem Sexp.term?_connective_or (es : List Sexp) :
    (connective "false" "or" es).term? = (terms? es).map Term.properOr :=
  term?_connective rfl (fun _ => rfl) (fun _ _ _ => rfl) es

theorem Sexp.terms?_map_ofTerm {ts : List Term} (h : ∀ t ∈ ts, (ofTerm t).term? = some t.norm) :
    terms? (ts.map ofTerm) = some (ts.map Term.norm) := by
  induction ts with
  | nil => rfl
  | cons t ts ih =>
    obtain ⟨first, h⟩ := List.forall_mem_cons.1 h
    rw [List.map_cons, terms?, first, ih h]
    rfl

theorem Sexp.term?_ofTerm (t : Term) : (ofTerm t).term? = some t.norm := by
  induction t using Term.operandInduction with
  | var name => rw [ofTerm, term?, Term.norm]
  | const b => cases b <;> rw [ofTerm, Term.norm] <;> rfl
  | not t ih =>
    rw [ofTerm, term?, terms?, ih, Term.norm]
    rfl
  | and ts ih =>
    rw [ofTerm, ofTerms_eq, term?_connective_and, terms?_map_ofTerm ih, Term.norm, Term.normAll_eq]
    rfl
  | or ts ih =>
    rw [ofTerm, ofTerms_eq, term?_connective_or, terms?_map_ofTerm ih, Term.norm, Term.normAll_eq]
    rfl

namespace Reading

def run (text : List Char) (r : Reading) : Option Reading := text.foldlM step r

inductive Delimited : List Char → Prop
  | space {rest} : Delimited (' ' :: rest)
  | closing {rest} : Delimited (')' :: rest)

variable {items : List Sexp} {around : List (List Sexp)} {rest : List Char}

theorem run_cons {c : Char} {r r' : Reading} (h : r.step c = some r') (rest : List Char) :
    run (c :: rest) r = run rest r' := by
  rw [run, List.foldlM_cons, h]
  rfl

theorem run_space (rest : List Char) :
    run (' ' :: rest) ⟨.gap, items, around⟩ = run rest ⟨.gap, items, around⟩ :=
  run_cons rfl rest

theorem run_opening (rest : List Char) :
    run ('(' :: rest) ⟨.gap, items, around⟩ = run rest ⟨.gap, [], items :: around⟩ :=
  run_cons rfl rest

theorem run_closing {outer : List Sexp} (rest : List Char) :
    run (')' :: rest) ⟨.gap, items, outer :: around⟩ =
      run rest ⟨.gap, .list items.reverse :: outer, around⟩ :=
  run_cons rfl rest

theorem run_word_end (delimited : Delimited rest) (read : List Char) :
    run rest ⟨.word read, items, around⟩ =
      run rest ⟨.gap, .word (String.ofList read.reverse) :: items, around⟩ := by
  cases delimited <;> simp only [run, List.foldlM_cons] <;> rfl

theorem run_quoted_end (delimited : Delimited rest) :
    run rest ⟨.behind, items, around⟩ = run rest ⟨.gap, items, around⟩ := by
  cases delimited <;> simp only [run, List.foldlM_cons] <;> rfl

theorem run_word_tail {text : List Char} (letters : ∀ c ∈ text, isWordChar c = true)
    (delimited : Delimited rest) (read : List Char) :
    run (text ++ rest) ⟨.word read, items, around⟩ =
      run rest ⟨.gap, .word (String.ofList (read.reverse ++ text)) :: items, around⟩ := by
  induction text generalizing read with
  | nil => rw [List.nil_append, run_word_end delimited, List.append_nil]
  | cons c text ih =>
    obtain ⟨letter, letters⟩ := List.forall_mem_cons.1 letters
    have next : step ⟨.word read, items, around⟩ c = some ⟨.word (c :: read), items, around⟩ := by
      simp [step, letter]
    rw [List.cons_append, run_cons next, ih letters, List.reverse_cons, List.append_assoc,
      List.singleton_append]

theorem run_word (c : Char) (text : List Char) (letters : (c :: text).all isWordChar = true)
    (delimited : Delimited rest) :
    run (c :: (text ++ rest)) ⟨.gap, items, around⟩ =
      run rest ⟨.gap, .word (String.ofList (c :: text)) :: items, around⟩ := by
  obtain ⟨letter, letters⟩ := List.forall_mem_cons.1 (List.all_eq_true.1 letters)
  have mark : c ≠ '|' := by
    rintro rfl
    exact absurd letter (by decide)
  have next : step ⟨.gap, items, around⟩ c = some ⟨.word [c], items, around⟩ := by
    simp [step, letter, mark]
  rw [run_cons next, run_word_tail letters delimited]
  rfl

theorem run_quoted_tail {text : List Char} (quotable : ∀ c ∈ text, isQuotable c = true)
    (delimited : Delimited rest) (read : List Char) :
    run (text ++ '|' :: rest) ⟨.quoted read, items, around⟩ =
      run rest ⟨.gap, .quoted (String.ofList (read.reverse ++ text)) :: items, around⟩ := by
  induction text generalizing read with
  | nil =>
    have next : step ⟨.quoted read, items, around⟩ '|' =
        some ⟨.behind, .quoted (String.ofList read.reverse) :: items, around⟩ := rfl
    rw [List.nil_append, run_cons next, run_quoted_end delimited, List.append_nil]
  | cons c text ih =>
    obtain ⟨first, quotable⟩ := List.forall_mem_cons.1 quotable
    have mark : c ≠ '|' := by
      rintro rfl
      exact absurd first (by decide)
    have next : step ⟨.quoted read, items, around⟩ c = some ⟨.quoted (c :: read), items, around⟩ := by
      simp [step, first, mark]
    rw [List.cons_append, run_cons next, ih quotable, List.reverse_cons, List.append_assoc,
      List.singleton_append]

theorem run_quoteOnto {name : String} (quotable : ∀ c ∈ name.toList, isQuotable c = true)
    (delimited : Delimited rest) :
    run (Term.quoteOnto name rest) ⟨.gap, items, around⟩ =
      run rest ⟨.gap, .quoted name :: items, around⟩ := by
  have next : step ⟨.gap, items, around⟩ '|' = some ⟨.quoted [], items, around⟩ := rfl
  rw [Term.quoteOnto, run_cons next, run_quoted_tail quotable delimited, List.reverse_nil,
    List.nil_append, String.ofList_toList]

/-- The text of a term is read as its expression. -/
def ReadBack (t : Term) : Prop :=
  ∀ ⦃items around rest⦄, Delimited rest →
    run (t.printOnto rest) ⟨.gap, items, around⟩ = run rest ⟨.gap, .ofTerm t :: items, around⟩

theorem delimited_printAllOnto (ts : List Term) (rest : List Char) :
    Delimited (Term.printAllOnto ts (')' :: rest)) := by
  cases ts with
  | nil => exact .closing
  | cons t ts => exact .space

theorem run_printAllOnto {ts : List Term} (h : ∀ t ∈ ts, ReadBack t) :
    run (Term.printAllOnto ts (')' :: rest)) ⟨.gap, items, around⟩ =
      run (')' :: rest) ⟨.gap, (ts.map Sexp.ofTerm).reverse ++ items, around⟩ := by
  induction ts generalizing items with
  | nil => rfl
  | cons t ts ih =>
    obtain ⟨first, h⟩ := List.forall_mem_cons.1 h
    rw [Term.printAllOnto, run_space, first (delimited_printAllOnto ts rest), ih h, List.map_cons,
      List.reverse_cons, List.append_assoc, List.singleton_append]

theorem run_connective (c : Char) (symbol : List Char) (letters : (c :: symbol).all isWordChar = true)
    {ts : List Term} (h : ∀ t ∈ ts, ReadBack t) :
    run ('(' :: c :: (symbol ++ Term.printAllOnto ts (')' :: rest))) ⟨.gap, items, around⟩ =
      run rest ⟨.gap, .list (.word (String.ofList (c :: symbol)) :: ts.map Sexp.ofTerm) :: items, around⟩ := by
  rw [run_opening, run_word c symbol letters (delimited_printAllOnto ts rest), run_printAllOnto h, run_closing]
  simp

theorem run_printConnective (n : Char) (neutral : List Char)
    (neutralLetters : (n :: neutral).all isWordChar = true) (c : Char) (symbol : List Char)
    (symbolLetters : (c :: symbol).all isWordChar = true) {ts : List Term}
    (h : ∀ t ∈ ts, ReadBack t) (delimited : Delimited rest) :
    run (Term.printConnective (n :: neutral) (c :: symbol) ts rest) ⟨.gap, items, around⟩ =
      run rest ⟨.gap, .connective (String.ofList (n :: neutral)) (String.ofList (c :: symbol))
        (ts.map .ofTerm) :: items, around⟩ := by
  match ts with
  | [] => exact run_word n neutral neutralLetters delimited
  | [t] => exact h t List.mem_cons_self delimited
  | t₁ :: t₂ :: ts => exact run_connective c symbol symbolLetters h

theorem readBack {t : Term} (quotable : ∀ name ∈ t.names, ∀ c ∈ name.toList, isQuotable c = true) :
    ReadBack t := by
  induction t using Term.operandInduction with
  | var name =>
    intro items around rest delimited
    rw [Term.printOnto_var, Sexp.ofTerm, run_quoteOnto (quotable name (by simp)) delimited]
  | const b =>
    intro items around rest delimited
    cases b with
    | true => exact run_word 't' ['r', 'u', 'e'] (by decide) delimited
    | false => exact run_word 'f' ['a', 'l', 's', 'e'] (by decide) delimited
  | not t ih =>
    intro items around rest delimited
    have operand : ∀ u ∈ [t], ReadBack u := List.forall_mem_singleton.2 (ih (by simpa using quotable))
    rw [Term.printOnto_not, Sexp.ofTerm]
    exact run_connective 'n' ['o', 't'] (by decide) operand
  | and ts ih =>
    intro items around rest delimited
    have operands : ∀ t ∈ ts, ReadBack t := by
      refine fun t mem => ih t mem fun name hn => quotable name ?_
      rw [Term.names_and]
      exact List.mem_flatMap.2 ⟨t, mem, hn⟩
    rw [Term.printOnto_and, Sexp.ofTerm, Sexp.ofTerms_eq]
    exact run_printConnective 't' ['r', 'u', 'e'] (by decide) 'a' ['n', 'd'] (by decide) operands delimited
  | or ts ih =>
    intro items around rest delimited
    have operands : ∀ t ∈ ts, ReadBack t := by
      refine fun t mem => ih t mem fun name hn => quotable name ?_
      rw [Term.names_or]
      exact List.mem_flatMap.2 ⟨t, mem, hn⟩
    rw [Term.printOnto_or, Sexp.ofTerm, Sexp.ofTerms_eq]
    exact run_printConnective 'f' ['a', 'l', 's', 'e'] (by decide) 'o' ['r'] (by decide) operands delimited

end Reading

end SolverLanguage
end MissionTime
