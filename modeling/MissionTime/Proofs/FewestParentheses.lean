import MissionTime.Proofs.Layout

/-! The canonical text of a formula has the fewest parentheses. Under operators of one precedence that group
to the left, a binary formula in the place of an operand is enclosed in every text, and the canonical text
encloses nothing else. -/
namespace MissionTime.Formula
open Token

def enclosing (f : Formula) : Nat := if f.isBinary then 1 else 0

/-- The pairs of parentheses in the canonical text. -/
def parentheses : Formula → Nat
  | .atom _ => 0
  | .not f | .eventually _ f | .always _ f => f.parentheses + f.enclosing
  | .and f g | .or f g | .until _ f g | .release _ f g => f.parentheses + (g.parentheses + g.enclosing)

theorem parentheses_unary (op : Unary) (f : Formula) :
    (op.apply f).parentheses = f.parentheses + f.enclosing := by
  cases op <;> rfl

theorem parentheses_binary (op : Binary) (f g : Formula) :
    (op.apply f g).parentheses = f.parentheses + (g.parentheses + g.enclosing) := by
  cases op <;> rfl

@[simp] theorem enclosing_atom (name : String) : (atom name).enclosing = 0 := rfl

@[simp] theorem enclosing_unary (op : Unary) (f : Formula) : (op.apply f).enclosing = 0 := by
  cases op <;> rfl

theorem enclosing_le_one (f : Formula) : f.enclosing ≤ 1 := by
  unfold enclosing
  split <;> simp

def openings (ts : List Lexeme) : Nat := ts.countP fun t => t.1 = .leftParen

@[simp] theorem openings_append (ts us : List Lexeme) : openings (ts ++ us) = openings ts + openings us :=
  List.countP_append

def Category.parentheses : Category → Formula → Nat
  | .expr, f => f.parentheses
  | .unary, f => f.parentheses + f.enclosing

/-- A derivation spends a pair of parentheses on every enclosed operand. -/
theorem Derivation.parentheses_le {category : Category} {ts : List Lexeme} {f : Formula}
    (d : Derivation category ts f) : category.parentheses f ≤ openings ts := by
  induction d with
  | operand d ih => exact (Nat.le_add_right ..).trans ih
  | @binary _ _ _ op f g left operator right ihl ihr =>
    simp only [Category.parentheses] at ihl ihr ⊢
    rw [parentheses_binary, openings_append, openings_append]
    omega
  | @unary _ _ op f operator d ih =>
    simp only [Category.parentheses] at ih ⊢
    rw [parentheses_unary, enclosing_unary, openings_append]
    omega
  | @paren ts f d ih =>
    have one : openings ((.leftParen, ['(']) :: (ts ++ [(.rightParen, [')'])])) = openings ts + 1 := by
      simp [openings]
    -- The pair pays for the formula inside of it, which may need none.
    have atMost := f.enclosing_le_one
    simp only [Category.parentheses] at ih ⊢
    omega
  | atom named => simp [Category.parentheses, Formula.parentheses]

theorem openings_le_count {ts : List Lexeme} {text : List Char} (laid : Laid ts text)
    (shaped : ∀ t ∈ ts, t.Shaped) : openings ts ≤ text.count '(' := by
  induction laid with
  | nil => exact Nat.zero_le _
  | @cons gap t ts text blank rest ih =>
    obtain ⟨first, shaped⟩ := List.forall_mem_cons.1 shaped
    have own : openings [t] ≤ t.2.count '(' := by
      obtain ⟨kind, word⟩ := t
      cases kind with
      | leftParen =>
        rw [show word = ['('] from first]
        simp [openings]
      | _ => simp [openings]
    have behind := ih shaped
    calc openings (t :: ts) = openings [t] + openings ts := openings_append [t] ts
      _ ≤ t.2.count '(' + text.count '(' := Nat.add_le_add own behind
      _ ≤ (gap ++ (t.2 ++ text)).count '(' := by simp

theorem count_windowPrint (w : Interval) : w.print.count '(' = 0 := by
  have digits (n : Nat) : (Nat.toDigits 10 n).count '(' = 0 := by
    rw [List.count_eq_zero]
    intro mem
    exact absurd (Nat.isDigit_of_mem_toDigits (by decide) (by decide) mem) (by decide)
  simp [Interval.print, digits]

@[simp] theorem Unary.count_print (op : Unary) : op.print.count '(' = 0 := by
  cases op <;> simp [Unary.print, count_windowPrint]

@[simp] theorem Binary.count_print (op : Binary) : op.print.count '(' = 0 := by
  cases op <;> simp [Binary.print, count_windowPrint]

theorem count_name {name : List Char} (named : AtomName name) : name.count '(' = 0 := by
  rw [List.count_eq_zero]
  intro mem
  exact absurd (isAlphanum_of_isName named.1 _ mem) (by decide)

theorem operatorInduction {P : Formula → Prop} (atom : ∀ name, P (.atom name))
    (unary : ∀ (op : Unary) f, P f → P (op.apply f))
    (binary : ∀ (op : Binary) f g, P f → P g → P (op.apply f g)) (f : Formula) : P f := by
  induction f with
  | atom name => exact atom name
  | not f ih => exact unary .not f ih
  | and f g ihf ihg => exact binary .and f g ihf ihg
  | or f g ihf ihg => exact binary .or f g ihf ihg
  | eventually w f ih => exact unary (.eventually w) f ih
  | always w f ih => exact unary (.always w) f ih
  | «until» w f g ihf ihg => exact binary (.until w) f g ihf ihg
  | release w f g ihf ihg => exact binary (.release w) f g ihf ihg

theorem count_operandOnto {f : Formula}
    (whole : ∀ rest, (f.printOnto rest).count '(' = f.parentheses + rest.count '(') (rest : List Char) :
    (f.operandOnto f.printOnto rest).count '(' = f.parentheses + f.enclosing + rest.count '(' := by
  cases binary : f.isBinary with
  | true =>
    rw [operandOnto, if_pos binary, List.count_cons_self, whole, List.count_cons_of_ne (by decide), enclosing,
      if_pos binary]
    omega
  | false => simp [operandOnto, enclosing, binary, whole]

theorem count_printOnto {f : Formula} (names : f.AllAtoms AtomName) (rest : List Char) :
    (f.printOnto rest).count '(' = f.parentheses + rest.count '(' := by
  induction f using operatorInduction generalizing rest with
  | atom name => simp [printOnto, parentheses, count_name names]
  | unary op f ih =>
    have operand := count_operandOnto (ih (allAtoms_unary.1 names)) rest
    rw [printOnto_unary, List.count_append, Unary.count_print, operand, parentheses_unary, Nat.zero_add]
  | binary op f g ihf ihg =>
    obtain ⟨left, right⟩ := allAtoms_binary.1 names
    have operand := count_operandOnto (ihg right) rest
    rw [printOnto_binary, ihf left, parentheses_binary]
    simp [operand, Nat.add_assoc]

theorem count_text {f : Formula} (names : f.AllAtoms AtomName) :
    f.text.toList.count '(' = f.parentheses := by
  rw [text, String.toList_ofList, print, count_printOnto names, List.count_nil, Nat.add_zero]

/-- Of all texts that are read as a formula the canonical one has the fewest parentheses, and it is one of
them under every limit under which another one is read. -/
theorem text_fewest_parentheses {limit : Nat} {source : String} {f : Formula}
    (run : parse limit source = .ok f) :
    f.text.toList.count '(' ≤ source.toList.count '(' ∧ parse limit f.text = .ok f := by
  obtain ⟨d⟩ := derives_of_parse run
  have shaped : ∀ t ∈ spellings source.toList, t.Shaped := by
    intro t mem
    obtain ⟨token, scanned, rfl⟩ := List.mem_map.1 mem
    exact shaped_of_mem_scan scanned
  constructor
  · calc f.text.toList.count '(' = f.parentheses := count_text d.allAtoms
      _ ≤ openings (spellings source.toList) := d.parentheses_le
      _ ≤ source.toList.count '(' := openings_le_count (laid_spellings _) shaped
  · obtain ⟨e, need⟩ := exists_need_eq d.allAtoms d.allWindows
    have reached : f.compoundNesting ≤ limit := (Nat.le_max_right ..).trans (need_le_of_parse d run)
    exact parse_of_need_le e (need ▸ reached)

theorem text_fewest_parentheses_redundant :
    let source := "((a)) & ((b | (c))) U[0,1] !((a & b))"
    let f : Formula := .until ⟨0, 1⟩ (.and (.atom "a") (.or (.atom "b") (.atom "c")))
      (.not (.and (.atom "a") (.atom "b")))
    parse 9 source = .ok f ∧ source.toList.count '(' = 7 ∧ f.text = "a & (b | c) U[0,1] !(a & b)" ∧
      f.text.toList.count '(' ≤ source.toList.count '(' ∧ parse 9 f.text = .ok f := by
  intro source f
  have run : parse 9 source = .ok f := Runs.eq_ok_of_toOption (by decide +kernel)
  exact ⟨run, by decide +kernel, by decide +kernel, text_fewest_parentheses run⟩

end MissionTime.Formula
