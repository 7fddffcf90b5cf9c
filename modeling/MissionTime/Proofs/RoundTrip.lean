import MissionTime.Formula.Printer
import MissionTime.Proofs.ParserGrammar

/-! Printing and reading back. The canonical text of a formula has tokens from which the formula is
derived, and its parentheses never ask for more than the nesting of the formula, so that the limit under
which the text is accepted is that nesting. -/
namespace MissionTime

theorem Text.trim_eq_self {text : List Char} (solid : ∀ c ∈ text, isBlank c = false) : trim text = text := by
  have keep {source : List Char} (h : ∀ c ∈ source, isBlank c = false) :
      source.dropWhile isBlank = source := by
    cases source with
    | nil => rfl
    | cons c source => rw [List.dropWhile_cons_of_neg (by simp [h c List.mem_cons_self])]
  rw [trim, trimStart, trimEnd, keep solid, keep fun c mem => solid c (List.mem_reverse.1 mem),
    List.reverse_reverse]

theorem Text.isBlank_of_isDigit {c : Char} (digit : c.isDigit = true) : isBlank c = false := by
  have range := Char.isDigit_iff_toNat.1 digit
  have low : '0'.toNat = 48 := rfl
  have high : '9'.toNat = 57 := rfl
  simp [isBlank]
  omega

namespace Interval

def Readable (w : Interval) : Prop := w.low ≤ w.high ∧ w.high ≤ maxTime

theorem isBound_toDigits (n : Nat) : IsBound n (Nat.toDigits 10 n) := by
  have digits : ∀ c ∈ Nat.toDigits 10 n, c.isDigit = true :=
    fun c mem => Nat.isDigit_of_mem_toDigits (by decide) (by decide) mem
  have same := Text.trim_eq_self fun c mem => Text.isBlank_of_isDigit (digits c mem)
  constructor
  · rw [same]
    exact Nat.toDigits_ne_nil
  · rwa [same]
  · rw [same]
    exact Nat.ofDigitChars_ten_toDigits

theorem spelled_print {w : Interval} (readable : w.Readable) : w.Spelled w.print :=
  ⟨⟨_, _, rfl, isBound_toDigits w.low, isBound_toDigits w.high⟩, readable⟩

end Interval

namespace Token

theorem spellings_blank (source : List Char) : spellings (' ' :: source) = spellings source :=
  spellings_space rfl source

theorem windowTail_body {body : List Char} (inside : ∀ c ∈ body, endsWindow c = false)
    (rest : List Char) : windowTail (body ++ ']' :: rest) = body ++ [']'] := by
  induction body with
  | nil => rfl
  | cons c body ih =>
    obtain ⟨first, inside⟩ := List.forall_mem_cons.1 inside
    rw [List.cons_append, windowTail_cons, if_neg (by simp [first]), ih inside, List.cons_append]

theorem endsWindow_of_isDigit {c : Char} (digit : c.isDigit = true) : endsWindow c = false := by
  have none : ∀ d ∈ [']', '[', '(', ')', '!', '&', '|'], d.isDigit = false := by simp
  rw [Bool.eq_false_iff]
  intro ends
  simp [none c (TokenGrammar.endsWindow_iff.1 ends)] at digit

theorem isSpace_of_isAlphanum {c : Char} (alphanumeric : c.isAlphanum = true) : isSpace c = false := by
  have none : ∀ d ∈ [' ', '\t', '\r', '\n'], d.isAlphanum = false := by simp
  rw [Bool.eq_false_iff]
  intro space
  simp [none c (TokenGrammar.isSpace_iff.1 space)] at alphanumeric

theorem lexeme_of_isAlpha {c : Char} (letter : c.isAlpha = true) (source : List Char) :
    lexeme c source = (.word, wordTail source) := by
  unfold lexeme
  split
  iterate 6 exact absurd letter (by decide)
  rw [if_pos letter]

theorem spellings_window (w : Interval) (rest : List Char) :
    spellings (w.print ++ rest) = (.window, w.print) :: spellings rest := by
  have digits {n : Nat} : ∀ c ∈ Nat.toDigits 10 n, endsWindow c = false :=
    fun c mem => endsWindow_of_isDigit (Nat.isDigit_of_mem_toDigits (by decide) (by decide) mem)
  have inside : ∀ c ∈ Nat.toDigits 10 w.low ++ ',' :: Nat.toDigits 10 w.high, endsWindow c = false :=
    List.forall_mem_append.2 ⟨digits, List.forall_mem_cons.2 ⟨rfl, digits⟩⟩
  have text : w.print = '[' :: ((Nat.toDigits 10 w.low ++ ',' :: Nat.toDigits 10 w.high) ++ [']']) := by
    simp [Interval.print]
  generalize Nat.toDigits 10 w.low ++ ',' :: Nat.toDigits 10 w.high = body at inside text
  have read : lexeme '[' (body ++ [']'] ++ rest) = (.window, body ++ [']']) := by
    rw [List.append_assoc]
    exact congrArg (Prod.mk Kind.window) (windowTail_body inside rest)
  rw [text, List.cons_append, spellings_cons rfl, read, List.drop_left]

theorem spellings_letter {c : Char} (letter : c.isAlpha = true) (w : Interval) (rest : List Char) :
    spellings (c :: (w.print ++ rest)) = (.word, [c]) :: (.window, w.print) :: spellings rest := by
  have solid := isSpace_of_isAlphanum (by simp [Char.isAlphanum, letter] : c.isAlphanum = true)
  have tail : wordTail (w.print ++ rest) = [] := rfl
  rw [spellings_cons solid, lexeme_of_isAlpha letter, tail, List.length_nil, List.drop_zero,
    spellings_window]

theorem spellings_leftParen (source : List Char) :
    spellings ('(' :: source) = (.leftParen, ['(']) :: spellings source :=
  spellings_cons rfl source

theorem spellings_rightParen (source : List Char) :
    spellings (')' :: source) = (.rightParen, [')']) :: spellings source :=
  spellings_cons rfl source

structure Closed (rest : List Char) : Prop where
  tail : wordTail rest = []
  bracket : (rest.dropWhile isSpace).head? ≠ some '['

theorem bracket_append {cs rest : List Char} (letters : ∀ c ∈ cs, c.isAlphanum = true)
    (closed : Closed rest) : ((cs ++ rest).dropWhile isSpace).head? ≠ some '[' := by
  cases cs with
  | nil => exact closed.bracket
  | cons d cs =>
    have letter := letters d List.mem_cons_self
    rw [List.cons_append, List.dropWhile_cons_of_neg (by simp [isSpace_of_isAlphanum letter])]
    intro same
    rw [Option.some.inj same] at letter
    exact absurd letter (by decide)

theorem wordTail_append {cs rest : List Char} (letters : ∀ c ∈ cs, c.isAlphanum = true)
    (closed : Closed rest) : wordTail (cs ++ rest) = cs := by
  induction cs with
  | nil => exact closed.tail
  | cons c cs ih =>
    obtain ⟨first, letters⟩ := List.forall_mem_cons.1 letters
    have clear : opensWindow c (cs ++ rest) = false := by
      simp [opensWindow, bracket_append letters closed]
    rw [List.cons_append, wordTail, if_pos (by simp [first, clear]), ih letters]

theorem spellings_word {name rest : List Char} (named : Formula.isName name = true) (closed : Closed rest) :
    spellings (name ++ rest) = (.word, name) :: spellings rest := by
  cases name with
  | nil => cases named
  | cons c cs =>
    obtain ⟨letter, letters⟩ := Bool.and_eq_true_iff.1 named
    have solid := isSpace_of_isAlphanum (by simp [Char.isAlphanum, letter] : c.isAlphanum = true)
    have tail := wordTail_append (List.all_eq_true.1 letters) closed
    rw [List.cons_append, spellings_cons solid, lexeme_of_isAlpha letter]
    simp [tail]

theorem closed_nil : Closed [] := ⟨rfl, nofun⟩

theorem closed_cons {c : Char} (mark : c.isAlphanum = false) (solid : isSpace c = false) (other : c ≠ '[')
    (rest : List Char) : Closed (c :: rest) := by
  constructor
  · simp [wordTail, mark]
  · rw [List.dropWhile_cons_of_neg (by simp [solid])]
    simpa using other

theorem closed_blank {c : Char} (solid : isSpace c = false) (other : c ≠ '[') (rest : List Char) :
    Closed (' ' :: c :: rest) := by
  constructor
  · rfl
  · rw [List.dropWhile_cons_of_pos rfl, List.dropWhile_cons_of_neg (by simp [solid])]
    simpa using other

end Token

namespace Formula

def Unary.print : Unary → List Char
  | .not => ['!']
  | .eventually w => 'F' :: w.print
  | .always w => 'G' :: w.print

def Binary.print : Binary → List Char
  | .and => ['&']
  | .or => ['|']
  | .until w => 'U' :: w.print
  | .release w => 'R' :: w.print

theorem printOnto_unary (op : Unary) (f : Formula) (rest : List Char) :
    (op.apply f).printOnto rest = op.print ++ f.operandOnto f.printOnto rest := by
  cases op <;> rfl

theorem printOnto_binary (op : Binary) (f g : Formula) (rest : List Char) :
    (op.apply f g).printOnto rest =
      f.printOnto (' ' :: (op.print ++ ' ' :: g.operandOnto g.printOnto rest)) := by
  cases op <;> rfl

theorem Unary.spelled_print {op : Unary} (readable : op.AllWindows Interval.Readable) :
    ∃ os, op.Spelled os ∧ ∀ rest, Token.spellings (op.print ++ rest) = os ++ Token.spellings rest := by
  cases op with
  | not => exact ⟨_, .not, Token.spellings_cons rfl⟩
  | eventually w => exact ⟨_, .eventually (Interval.spelled_print readable), Token.spellings_letter rfl w⟩
  | always w => exact ⟨_, .always (Interval.spelled_print readable), Token.spellings_letter rfl w⟩

theorem Binary.spelled_print {op : Binary} (readable : op.AllWindows Interval.Readable) :
    ∃ os, op.Spelled os ∧ ∀ rest, Token.spellings (op.print ++ rest) = os ++ Token.spellings rest := by
  cases op with
  | and => exact ⟨_, .and, Token.spellings_cons rfl⟩
  | or => exact ⟨_, .or, Token.spellings_cons rfl⟩
  | «until» w => exact ⟨_, .until (Interval.spelled_print readable), Token.spellings_letter rfl w⟩
  | release w => exact ⟨_, .release (Interval.spelled_print readable), Token.spellings_letter rfl w⟩

theorem Binary.closed_print (op : Binary) (rest : List Char) : Token.Closed (' ' :: (op.print ++ rest)) := by
  cases op <;> exact Token.closed_blank rfl (by decide) _

/-- `print` puts a text of `f` in front of any text that does not continue it, and the derivation of its
tokens leaves `spare` levels below the nesting of `f`. -/
def Written (category : Category) (f : Formula) (print : List Char → List Char) (spare : Nat) : Prop :=
  ∃ ts, ∃ d : Derivation category ts f,
    (∀ rest, Token.Closed rest → Token.spellings (print rest) = ts ++ Token.spellings rest) ∧
    ∀ opened, d.peak opened + spare ≤ opened + f.nesting

namespace Written

variable {f g : Formula} {print printRight : List Char → List Char} {spare : Nat}

theorem congr {category : Category} {print' : List Char → List Char} (h : Written category f print spare)
    (same : ∀ rest, print' rest = print rest) : Written category f print' spare := by
  rwa [funext same]

theorem operand (h : Written .unary f print spare) : Written .expr f print spare := by
  obtain ⟨ts, d, tokens, peak⟩ := h
  exact ⟨ts, .operand d, tokens, peak⟩

theorem atom {name : List Char} (named : AtomName name) :
    Written .unary (.atom (String.ofList name)) (name ++ ·) 1 :=
  ⟨_, .atom named, fun _ closed => Token.spellings_word named.1 closed, fun _ => Nat.le_add_left ..⟩

theorem unary {op : Unary} (readable : op.AllWindows Interval.Readable) (h : Written .unary f print 1) :
    Written .unary (op.apply f) (fun rest => op.print ++ print rest) 1 := by
  obtain ⟨ts, d, tokens, peak⟩ := h
  obtain ⟨os, operator, front⟩ := op.spelled_print readable
  refine ⟨os ++ ts, .unary operator d, fun rest closed => ?_, fun opened => ?_⟩
  · rw [front, tokens rest closed, List.append_assoc]
  · have deeper := nesting_lt_unary op f
    have outer := peak 0
    have below := peak (opened + 1)
    simp only [Derivation.peak]
    omega

theorem paren (h : Written .expr f print 2) :
    Written .unary f (fun rest => '(' :: print (')' :: rest)) 1 := by
  obtain ⟨ts, d, tokens, peak⟩ := h
  refine ⟨_, .paren d, fun rest _ => ?_, fun opened => ?_⟩
  · have closed : Token.Closed (')' :: rest) := Token.closed_cons rfl rfl (by decide) rest
    rw [Token.spellings_leftParen, tokens _ closed, Token.spellings_rightParen]
    simp
  · have outer := peak 0
    have below := peak (opened + 1)
    simp only [Derivation.peak]
    omega

theorem binary {op : Binary} (readable : op.AllWindows Interval.Readable)
    (left : Written .expr f print spare) (right : Written .unary g printRight 1)
    (room : f.nesting + 2 ≤ (op.apply f g).nesting + spare) :
    Written .expr (op.apply f g)
      (fun rest => print (' ' :: (op.print ++ ' ' :: printRight rest))) 2 := by
  obtain ⟨ls, l, tokensLeft, peakLeft⟩ := left
  obtain ⟨rs, r, tokensRight, peakRight⟩ := right
  obtain ⟨os, operator, middle⟩ := op.spelled_print readable
  refine ⟨ls ++ (os ++ rs), .binary l operator r, fun rest closed => ?_, fun opened => ?_⟩
  · rw [tokensLeft _ (op.closed_print _), Token.spellings_blank, middle, Token.spellings_blank,
      tokensRight rest closed]
    simp only [List.append_assoc]
  · have deeper := nesting_le_binary op f g
    have := peakLeft opened
    have := peakRight opened
    simp only [Derivation.peak]
    omega

end Written

theorem nesting_lt_binary (op : Binary) {f : Formula} (simple : f.isBinary = false) (g : Formula) :
    f.nesting < (op.apply f g).nesting := by
  have fresh : op.continues f = false := by
    cases op <;> cases f <;> first | rfl | cases simple
  cases op <;> simp only [Binary.apply, nesting, fresh, Bool.false_eq_true, if_false] <;> omega

/-- The canonical text of a formula, by itself and in the place of an operand. -/
structure Canonical (f : Formula) : Prop where
  whole : Written .expr f f.printOnto (if f.isBinary then 2 else 1)
  operand : Written .unary f (f.operandOnto f.printOnto) 1

theorem canonical_atom {name : String} (named : AtomName name.toList) : Canonical (.atom name) := by
  have written := Written.atom named
  rw [String.ofList_toList] at written
  exact ⟨written.operand, written⟩

theorem canonical_unary (op : Unary) {f : Formula} (readable : op.AllWindows Interval.Readable)
    (h : Canonical f) : Canonical (op.apply f) := by
  have written := (h.operand.unary readable).congr (printOnto_unary op f)
  have simple : (op.apply f).isBinary = false := by cases op <;> rfl
  constructor
  · rw [simple]
    exact written.operand
  · exact written.congr fun rest => by rw [operandOnto, simple]; rfl

theorem canonical_binary (op : Binary) {f g : Formula} (readable : op.AllWindows Interval.Readable)
    (hf : Canonical f) (hg : Canonical g) : Canonical (op.apply f g) := by
  have room : f.nesting + 2 ≤ (op.apply f g).nesting + if f.isBinary then 2 else 1 := by
    cases simple : f.isBinary with
    | true => exact Nat.add_le_add_right (nesting_le_binary op f g).1 2
    | false => exact Nat.add_le_add_right (nesting_lt_binary op simple g) 1
  have written := (hf.whole.binary readable hg.operand room).congr (printOnto_binary op f g)
  have compound : (op.apply f g).isBinary = true := by cases op <;> rfl
  constructor
  · rw [compound]
    exact written
  · exact written.paren.congr fun rest => by rw [operandOnto, compound]; rfl

theorem canonical {f : Formula} (names : f.AllAtoms AtomName) (windows : f.AllWindows Interval.Readable) :
    Canonical f := by
  induction f with
  | atom name => exact canonical_atom names
  | not f ih => exact canonical_unary .not trivial (ih names windows)
  | and f g ihf ihg =>
    exact canonical_binary .and trivial (ihf names.1 windows.1) (ihg names.2 windows.2)
  | or f g ihf ihg =>
    exact canonical_binary .or trivial (ihf names.1 windows.1) (ihg names.2 windows.2)
  | eventually w f ih => exact canonical_unary (.eventually w) windows.1 (ih names windows.2)
  | always w f ih => exact canonical_unary (.always w) windows.1 (ih names windows.2)
  | «until» w f g ihf ihg =>
    exact canonical_binary (.until w) windows.1 (ihf names.1 windows.2.1) (ihg names.2 windows.2.2)
  | release w f g ihf ihg =>
    exact canonical_binary (.release w) windows.1 (ihf names.1 windows.2.1) (ihg names.2 windows.2.2)

theorem exists_need_eq {f : Formula} (names : f.AllAtoms AtomName)
    (windows : f.AllWindows Interval.Readable) :
    ∃ d : Derivation .expr (Token.spellings f.text.toList) f, d.need = f.compoundNesting := by
  obtain ⟨ts, d, tokens, peak⟩ := (canonical names windows).whole
  have same : ts = Token.spellings f.text.toList := by
    rw [text, String.toList_ofList, print, tokens [] Token.closed_nil, Token.spellings_nil, List.append_nil]
  subst same
  have spare : d.peak 0 < f.nesting := by
    have below := peak 0
    split_ifs at below <;> omega
  refine ⟨d, Nat.max_eq_right ?_⟩
  cases f with
  | atom name => exact Nat.le_of_lt_succ spare
  | _ => exact Nat.le_of_lt spare

theorem compoundNesting_le_iff {f : Formula} {limit : Nat} :
    f.compoundNesting ≤ limit ↔ (∃ name, f = .atom name) ∨ f.nesting ≤ limit := by
  cases f <;> simp [compoundNesting]

theorem allAtoms_unary {P : List Char → Prop} {op : Unary} {f : Formula} :
    (op.apply f).AllAtoms P ↔ f.AllAtoms P := by
  cases op <;> rfl

theorem allAtoms_binary {P : List Char → Prop} {op : Binary} {f g : Formula} :
    (op.apply f g).AllAtoms P ↔ f.AllAtoms P ∧ g.AllAtoms P := by
  cases op <;> rfl

theorem Derivation.allAtoms {category : Category} {ts : List Lexeme} {f : Formula}
    (d : Derivation category ts f) : f.AllAtoms AtomName := by
  induction d with
  | operand d ih => exact ih
  | binary left operator right ihl ihr => exact allAtoms_binary.2 ⟨ihl, ihr⟩
  | unary operator d ih => exact allAtoms_unary.2 ih
  | paren d ih => exact ih
  | atom named => simpa [AllAtoms] using named

theorem Derivation.allWindows {category : Category} {ts : List Lexeme} {f : Formula}
    (d : Derivation category ts f) : f.AllWindows Interval.Readable := by
  induction d with
  | operand d ih => exact ih
  | binary left operator right ihl ihr =>
    refine Binary.allWindows_apply ?_ ihl ihr
    cases operator with
    | and => trivial
    | or => trivial
    | «until» window => exact window.2
    | release window => exact window.2
  | unary operator d ih =>
    refine Unary.allWindows_apply ?_ ih
    cases operator with
    | not => trivial
    | eventually window => exact window.2
    | always window => exact window.2
  | paren d ih => exact ih
  | atom named => trivial

/-- The canonical text of a formula is read back as the formula under exactly the limits that admit its
nesting; so what was read once is read again from its canonical text under the same limit. -/
theorem parse_text_exact (limit : Nat) :
    (∀ f : Formula, f.AllAtoms AtomName → f.AllWindows Interval.Readable →
      ((∃ name, f = .atom name) ∨ f.nesting ≤ limit → parse limit f.text = .ok f) ∧
      (¬ ((∃ name, f = .atom name) ∨ f.nesting ≤ limit) →
        ∃ span, parse limit f.text =
          .error { fault := .nestingTooDeep limit, span, source := f.text })) ∧
    ∀ source f, parse limit source = .ok f → parse limit f.text = .ok f := by
  constructor
  · intro f names windows
    obtain ⟨d, need⟩ := exists_need_eq names windows
    simp only [← compoundNesting_le_iff, ← need, not_le]
    exact ⟨parse_of_need_le d, parse_of_lt_need d⟩
  · intro source f run
    obtain ⟨d⟩ := derives_of_parse run
    obtain ⟨e, need⟩ := exists_need_eq d.allAtoms d.allWindows
    have reached : d.need ≤ limit := by
      by_contra short
      obtain ⟨span, failed⟩ := parse_of_lt_need d (not_le.1 short)
      rw [failed] at run
      cases run
    have enough : f.compoundNesting ≤ d.need := Nat.le_max_right ..
    exact parse_of_need_le e (need ▸ enough.trans reached)

theorem parse_text_exact_chain :
    let f : Formula := .and (.and (.atom "a") (.atom "bU"))
      (.or (.atom "U") (.not (.eventually ⟨0, 3⟩ (.and (.atom "c") (.atom "d")))))
    f.AllAtoms AtomName ∧ f.AllWindows Interval.Readable ∧ parse 6 f.text = .ok f ∧
      ∃ span, parse 5 f.text = .error { fault := .nestingTooDeep 5, span, source := f.text } := by
  intro f
  have names : f.AllAtoms AtomName := by decide
  have windows : f.AllWindows Interval.Readable := by
    simp [f, AllWindows, Interval.Readable, maxTime]
  have deep : ¬ ((∃ name, f = .atom name) ∨ f.nesting ≤ 5) := by
    simp [f, nesting, Binary.continues]
  exact ⟨names, windows, ((parse_text_exact 6).1 f names windows).1 (.inr (by decide)),
    ((parse_text_exact 5).1 f names windows).2 deep⟩

end Formula
end MissionTime
