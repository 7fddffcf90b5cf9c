import MissionTime.Proofs.RoundTrip

/-! Layouts of tokens. A text is its tokens in their order, with blanks around them. For the tokens of an
expression the converse holds too: in whatever way they are written down one after the other, with blanks
or without, the scanner finds them again. A word in an expression stands in front of a word only where that
one is an operator with its window, and there the scanner divides them. -/
namespace MissionTime
open Text

theorem Text.byteLength_eq_add (size : Nat) (text : List Char) :
    text.foldl (fun size c => size + c.utf8Size) size = size + byteLength text := by
  induction text generalizing size with
  | nil => rfl
  | cons c text ih =>
    rw [byteLength, List.foldl_cons, List.foldl_cons, ih, ih (0 + c.utf8Size)]
    omega

@[simp] theorem Text.byteLength_nil : byteLength [] = 0 := rfl

@[simp] theorem Text.byteLength_cons (c : Char) (text : List Char) :
    byteLength (c :: text) = c.utf8Size + byteLength text := by
  rw [byteLength, List.foldl_cons, byteLength_eq_add, Nat.zero_add]

@[simp] theorem Text.byteLength_append (text text' : List Char) :
    byteLength (text ++ text') = byteLength text + byteLength text' := by
  induction text with
  | nil => simp
  | cons c text ih => simp [ih, Nat.add_assoc]

theorem Interval.Spelled.exists_body {w : Interval} {text : List Char} (spelled : w.Spelled text) :
    ∃ body, text = '[' :: (body ++ [']']) ∧ ∀ c ∈ body, Token.endsWindow c = false := by
  obtain ⟨⟨low, high, rfl, isLow, isHigh⟩, -⟩ := spelled
  refine ⟨low ++ ',' :: high, by simp, ?_⟩
  have inside {n : Nat} {bound : List Char} (h : IsBound n bound) :
      ∀ c ∈ bound, Token.endsWindow c = false := by
    intro c mem
    rcases isBlank_or_mem_trim mem with blank | mem
    · have none : ∀ d ∈ [']', '[', '(', ')', '!', '&', '|'], isBlank d = false := by simp [isBlank]
      rw [Bool.eq_false_iff]
      intro ends
      simp [none c (TokenGrammar.endsWindow_iff.1 ends)] at blank
    · exact Token.endsWindow_of_isDigit (h.digits c mem)
  exact List.forall_mem_append.2 ⟨inside isLow, List.forall_mem_cons.2 ⟨rfl, inside isHigh⟩⟩

namespace Token

/-- The text is the tokens in their order, with blanks in front of them, between them and behind them. -/
inductive Laid : List Lexeme → List Char → Prop
  | nil {gap} (blank : ∀ c ∈ gap, isSpace c = true) : Laid [] gap
  | cons {gap t ts text} (blank : ∀ c ∈ gap, isSpace c = true) (rest : Laid ts text) :
    Laid (t :: ts) (gap ++ (t.2 ++ text))

namespace Laid

variable {t : Lexeme} {ts us : List Lexeme} {gap text text' : List Char}

theorem blanks (blank : ∀ c ∈ gap, isSpace c = true) (laid : Laid ts text) : Laid ts (gap ++ text) := by
  cases laid with
  | nil blank' => exact .nil (List.forall_mem_append.2 ⟨blank, blank'⟩)
  | cons blank' rest =>
    rw [← List.append_assoc]
    exact .cons (List.forall_mem_append.2 ⟨blank, blank'⟩) rest

theorem token (laid : Laid ts text) : Laid (t :: ts) (t.2 ++ text) := @cons [] t ts text (by simp) laid

theorem append (first : Laid ts text) (second : Laid us text') : Laid (ts ++ us) (text ++ text') := by
  induction first with
  | nil blank => exact second.blanks blank
  | cons blank _ ih =>
    simp only [List.append_assoc, List.cons_append]
    exact .cons blank ih

theorem join (ts : List Lexeme) : Laid ts (ts.flatMap Prod.snd) := by
  induction ts with
  | nil => exact .nil (by simp)
  | cons t ts ih => exact ih.token

end Laid

theorem lexeme_append_drop (c : Char) (source : List Char) :
    (lexeme c source).2 ++ source.drop (lexeme c source).2.length = source := by
  unfold lexeme
  split
  iterate 5 rfl
  · exact windowTail_append_drop source
  · split_ifs
    · exact wordTail_append_drop source
    · simp

theorem utf8Size_of_isSpace {c : Char} (space : isSpace c = true) : c.utf8Size = 1 := by
  have all : ∀ d ∈ [' ', '\t', '\r', '\n'], d.utf8Size = 1 := by simp [Char.utf8Size]
  exact all c (TokenGrammar.isSpace_iff.1 space)

theorem blank_of_scan_nil {start : Nat} {source : List Char} (scanned : scan start source = []) :
    ∀ c ∈ source, isSpace c = true := by
  fun_induction scan start source with
  | case1 => simp
  | case2 start c source space ih => exact List.forall_mem_cons.2 ⟨space, ih scanned⟩
  | case3 => simp at scanned

theorem exists_gap_of_scan {start : Nat} {source : List Char} {token : Token} {tokens : List Token}
    (scanned : scan start source = token :: tokens) :
    ∃ gap, (∀ c ∈ gap, isSpace c = true) ∧ source = gap ++ (token.text ++ token.after) ∧
      token.start = start + byteLength gap ∧ scan token.stop token.after = tokens := by
  fun_induction scan start source with
  | case1 => simp at scanned
  | case2 start c source space ih =>
    obtain ⟨gap, blank, rfl, place, rest⟩ := ih scanned
    refine ⟨c :: gap, List.forall_mem_cons.2 ⟨space, blank⟩, rfl, ?_, rest⟩
    rw [place, byteLength_cons, utf8Size_of_isSpace space, Nat.add_assoc]
  | case3 start c source solid kind tail split first =>
    obtain ⟨rfl, rest⟩ := List.cons.inj scanned
    have whole := lexeme_append_drop c source
    rw [split] at whole
    exact ⟨[], by simp, congrArg (c :: ·) whole.symm, rfl, rest⟩

/-- The text from byte `start` on is the tokens in their order, each at its place, with blanks around them. -/
inductive Tiled : Nat → List Token → List Char → Prop
  | nil {start gap} (blank : ∀ c ∈ gap, isSpace c = true) : Tiled start [] gap
  | cons {start gap token tokens} (blank : ∀ c ∈ gap, isSpace c = true)
    (place : token.start = start + byteLength gap) (rest : Tiled token.stop tokens token.after) :
    Tiled start (token :: tokens) (gap ++ (token.text ++ token.after))

theorem tiled_scan (start : Nat) (source : List Char) : Tiled start (scan start source) source := by
  induction scanned : scan start source generalizing start source with
  | nil => exact .nil (blank_of_scan_nil scanned)
  | cons token tokens ih =>
    obtain ⟨gap, blank, rfl, place, rest⟩ := exists_gap_of_scan scanned
    exact .cons blank place (ih _ _ rest)

theorem Tiled.laid {start : Nat} {tokens : List Token} {source : List Char}
    (tiled : Tiled start tokens source) : Laid (tokens.map spelling) source := by
  induction tiled with
  | nil blank => exact .nil blank
  | @cons start gap token tokens blank _ _ ih => exact .cons (t := token.spelling) blank ih

theorem Tiled.laid_front {start : Nat} {source : List Char} {front behind : List Token} {token : Token}
    (tiled : Tiled start (front ++ token :: behind) source) :
    ∃ text, source = text ++ token.rest ∧ token.start = start + byteLength text ∧
      Laid (front.map spelling) text := by
  induction front generalizing start source with
  | nil =>
    cases tiled with
    | @cons _ gap _ _ blank place _ => exact ⟨gap, rfl, place, .nil blank⟩
  | cons first front ih =>
    cases tiled with
    | @cons _ gap _ _ blank place rest =>
      obtain ⟨text, whole, place', laid⟩ := ih rest
      refine ⟨gap ++ (first.text ++ text), by simp [whole], ?_, .cons (t := first.spelling) blank laid⟩
      rw [place', stop, place, byteLength_append, byteLength_append]
      omega

theorem laid_spellings (source : List Char) : Laid (spellings source) source := (tiled_scan 0 source).laid

/-- However the tokens are laid out, the scanner finds them. -/
def Robust (ts : List Lexeme) : Prop := ∀ text, Laid ts text → spellings text = ts

def Detached (ts : List Lexeme) : Prop := ∀ text, Laid ts text → Closed text

section Layouts
variable {ts : List Lexeme} {gap text : List Char}

theorem spellings_gap (blank : ∀ c ∈ gap, isSpace c = true) (text : List Char) :
    spellings (gap ++ text) = spellings text := by
  rw [← spellings_dropWhile, List.dropWhile_append_of_pos blank, spellings_dropWhile]

theorem wordTail_gap (blank : ∀ c ∈ gap, isSpace c = true) (stops : wordTail text = []) :
    wordTail (gap ++ text) = [] := by
  cases gap with
  | nil => exact stops
  | cons c gap =>
    have mark : c.isAlphanum = false := by
      rw [Bool.eq_false_iff]
      intro alphanumeric
      simpa [isSpace_of_isAlphanum alphanumeric] using blank c List.mem_cons_self
    simp [wordTail, mark]

theorem closed_gap (blank : ∀ c ∈ gap, isSpace c = true) (closed : Closed text) : Closed (gap ++ text) :=
  ⟨wordTail_gap blank closed.tail, by rw [List.dropWhile_append_of_pos blank]; exact closed.bracket⟩

theorem robust_nil : Robust [] := by
  rintro gap ⟨blank⟩
  rw [← List.append_nil gap, spellings_gap blank, spellings_nil]

theorem detached_nil : Detached [] := by
  rintro gap ⟨blank⟩
  rw [← List.append_nil gap]
  exact closed_gap blank closed_nil

theorem robust_mark {kind : Kind} {c : Char} (solid : isSpace c = false)
    (alone : ∀ source, lexeme c source = (kind, [])) (robust : Robust ts) :
    Robust ((kind, [c]) :: ts) := by
  rintro _ ⟨⟩
  rename_i gap text blank rest
  rw [spellings_gap blank, List.singleton_append, spellings_cons solid, alone, List.length_nil,
    List.drop_zero, robust text rest]

theorem detached_mark {kind : Kind} {c : Char} (solid : isSpace c = false) (mark : c.isAlphanum = false)
    (other : c ≠ '[') : Detached ((kind, [c]) :: ts) := by
  rintro _ ⟨⟩
  rename_i gap text blank rest
  exact closed_gap blank (closed_cons mark solid other text)

theorem robust_word {name : List Char} (named : Formula.isName name = true) (detached : Detached ts)
    (robust : Robust ts) : Robust ((.word, name) :: ts) := by
  rintro _ ⟨⟩
  rename_i gap text blank rest
  rw [spellings_gap blank, spellings_word named (detached text rest), robust text rest]

theorem robust_letter {c : Char} (letter : c.isAlpha = true) {w : Interval} {window : List Char}
    (spelled : w.Spelled window) (robust : Robust ts) :
    Robust ((.word, [c]) :: (.window, window) :: ts) := by
  rintro _ ⟨⟩
  rename_i gap _ blank rest
  cases rest with
  | @cons gap' _ _ text blank' rest =>
    obtain ⟨body, rfl, inside⟩ := spelled.exists_body
    have solid := isSpace_of_isAlphanum (by simp [Char.isAlphanum, letter] : c.isAlphanum = true)
    -- Neither a blank nor the bracket continues the letter to a longer word.
    have tail : wordTail (gap' ++ '[' :: (body ++ [']'] ++ text)) = [] := wordTail_gap blank' rfl
    have read : lexeme '[' (body ++ [']'] ++ text) = (.window, body ++ [']']) := by
      rw [List.append_assoc]
      exact congrArg (Prod.mk Kind.window) (windowTail_body inside text)
    rw [spellings_gap blank, List.singleton_append, spellings_cons solid, lexeme_of_isAlpha letter,
      List.cons_append, tail, List.length_nil, List.drop_zero, spellings_gap blank', spellings_cons rfl,
      read, List.drop_left, robust text rest]

/-- A word in front of the letter of a binary operator ends there, because a window follows. -/
theorem detached_letter {c : Char} (letter : c ∈ ['U', 'R']) {w : Interval} {window : List Char}
    (spelled : w.Spelled window) : Detached ((.word, [c]) :: (.window, window) :: ts) := by
  rintro _ ⟨⟩
  rename_i gap _ blank rest
  cases rest with
  | @cons gap' _ _ text blank' rest =>
    obtain ⟨body, rfl, -⟩ := spelled.exists_body
    have opens : opensWindow c (gap' ++ ('[' :: (body ++ [']']) ++ text)) = true := by
      rw [TokenGrammar.opensWindow_iff, List.dropWhile_append_of_pos blank']
      exact ⟨letter, _, rfl⟩
    have both : ∀ d ∈ ['U', 'R'], isSpace d = false ∧ d ≠ '[' := by simp [isSpace]
    have solid := both c letter
    refine closed_gap blank ⟨?_, ?_⟩
    · simp only [List.singleton_append, wordTail, opens]
      simp
    · rw [List.singleton_append, List.dropWhile_cons_of_neg (by simp [solid.1])]
      simpa using solid.2

end Layouts
end Token

namespace Formula
open Token

variable {ts os : List Lexeme} {f : Formula}

theorem Unary.Spelled.robust {op : Unary} (operator : op.Spelled os) (robust : Robust ts) :
    Robust (os ++ ts) := by
  cases operator with
  | not => exact robust_mark rfl (fun _ => rfl) robust
  | eventually window => exact robust_letter rfl window robust
  | always window => exact robust_letter rfl window robust

theorem Binary.Spelled.robust {op : Binary} (operator : op.Spelled os) (robust : Robust ts) :
    Robust (os ++ ts) := by
  cases operator with
  | and => exact robust_mark rfl (fun _ => rfl) robust
  | or => exact robust_mark rfl (fun _ => rfl) robust
  | «until» window => exact robust_letter rfl window robust
  | release window => exact robust_letter rfl window robust

theorem Binary.Spelled.detached {op : Binary} (operator : op.Spelled os) : Detached (os ++ ts) := by
  cases operator with
  | and => exact detached_mark rfl rfl (by decide)
  | or => exact detached_mark rfl rfl (by decide)
  | «until» window => exact detached_letter (by simp) window
  | release window => exact detached_letter (by simp) window

theorem Derivation.robust {category : Category} (d : Derivation category ts f) {rest : List Lexeme}
    (detached : Detached rest) (robust : Robust rest) : Robust (ts ++ rest) := by
  induction d generalizing rest with
  | operand d ih => exact ih detached robust
  | binary left operator right ihl ihr =>
    rw [List.append_assoc, List.append_assoc]
    exact ihl operator.detached (operator.robust (ihr detached robust))
  | unary operator d ih =>
    rw [List.append_assoc]
    exact operator.robust (ih detached robust)
  | paren d ih =>
    have closing := robust_mark (c := ')') rfl (fun _ => rfl) robust
    have inner := ih (detached_mark rfl rfl (by decide)) closing
    rw [List.cons_append, List.append_assoc]
    exact robust_mark rfl (fun _ => rfl) inner
  | atom named => exact robust_word named.1 detached robust

theorem Derivation.spellings_of_laid {category : Category} (d : Derivation category ts f) {text : List Char}
    (laid : Laid ts text) : spellings text = ts := by
  have robust := d.robust detached_nil robust_nil
  rw [List.append_nil] at robust
  exact robust text laid

theorem parse_of_laid (d : Derivation .expr ts f) {text : List Char} (laid : Laid ts text) {limit : Nat}
    (enough : d.need ≤ limit) : parse limit (String.ofList text) = .ok f := by
  have tokens := d.spellings_of_laid laid
  rw [← String.toList_ofList (l := text)] at tokens
  subst tokens
  exact parse_of_need_le d enough

end Formula
end MissionTime
