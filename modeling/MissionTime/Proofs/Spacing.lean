import MissionTime.Proofs.Layout

/-! Blanks do not matter. Spaces, tabs, carriage returns and line feeds may be put in between the tokens of
a text, in front of the first one, behind the last one and next to the bounds of a window: the tokens stay
what they are, except for the text of windows, whose bounds are trimmed before they are read. -/
namespace MissionTime
open Text

theorem Text.trimEnd_append {right : List Char} (blank : ∀ c ∈ right, isBlank c = true) (text : List Char) :
    trimEnd (text ++ right) = trimEnd text := by
  have blank' : ∀ c ∈ right.reverse, isBlank c = true := by simpa using blank
  rw [trimEnd, List.reverse_append, List.dropWhile_append_of_pos blank', trimEnd]

theorem Text.trim_around {left digits right : List Char} (before : ∀ c ∈ left, isBlank c = true)
    (number : ∀ c ∈ digits, c.isDigit = true) (behind : ∀ c ∈ right, isBlank c = true) :
    trim (left ++ (digits ++ right)) = digits := by
  have solid := fun c mem => isBlank_of_isDigit (number c mem)
  rw [trim, trimStart, List.dropWhile_append_of_pos before]
  cases digits with
  | nil =>
    rw [List.nil_append, List.dropWhile_eq_nil_iff.2 behind]
    rfl
  | cons d digits =>
    rw [List.cons_append, List.dropWhile_cons_of_neg (by simp [solid d]), ← List.cons_append,
      trimEnd_append behind]
    have whole := trim_eq_self solid
    rwa [trim, trimStart, List.dropWhile_cons_of_neg (by simp [solid d])] at whole

namespace Token

/-- Spaces, tabs, carriage returns and line feeds are put into a text, at any places. -/
inductive Padded : List Char → List Char → Prop
  | nil : Padded [] []
  | keep {c text text'} (rest : Padded text text') : Padded (c :: text) (c :: text')
  | pad {c text text'} (space : isSpace c = true) (rest : Padded text text') : Padded text (c :: text')

inductive PaddedBound : List Char → List Char → Prop
  | around {left left' digits right right'} (before : ∀ c ∈ left, isBlank c = true)
    (number : ∀ c ∈ digits, c.isDigit = true) (behind : ∀ c ∈ right, isBlank c = true)
    (padLeft : Padded left left') (padRight : Padded right right') :
    PaddedBound (left ++ (digits ++ right)) (left' ++ (digits ++ right'))

inductive PaddedToken : Lexeme → Lexeme → Prop
  | same (t) : PaddedToken t t
  | window {low low' high high'} (padLow : PaddedBound low low') (padHigh : PaddedBound high high') :
    PaddedToken (.window, '[' :: (low ++ ',' :: (high ++ [']'])))
      (.window, '[' :: (low' ++ ',' :: (high' ++ [']'])))

/-- They are put into a text that is laid out from the tokens `ts`: in front of every token, behind the last
one and next to the bounds of windows. -/
inductive Respaced : List Lexeme → List Char → List Char → Prop
  | nil {gap gap'} (blank : ∀ c ∈ gap, isSpace c = true) (pad : Padded gap gap') : Respaced [] gap gap'
  | cons {gap gap' t t' ts text text'} (blank : ∀ c ∈ gap, isSpace c = true) (pad : Padded gap gap')
    (token : PaddedToken t t') (rest : Respaced ts text text') :
    Respaced (t :: ts) (gap ++ (t.2 ++ text)) (gap' ++ (t'.2 ++ text'))

theorem isBlank_of_isSpace {c : Char} (space : isSpace c = true) : isBlank c = true := by
  have all : ∀ d ∈ [' ', '\t', '\r', '\n'], isBlank d = true := by simp [isBlank]
  exact all c (TokenGrammar.isSpace_iff.1 space)

theorem Padded.forall_mem {P : Char → Prop} {text text' : List Char} (pad : Padded text text')
    (spaces : ∀ c, isSpace c = true → P c) (all : ∀ c ∈ text, P c) : ∀ c ∈ text', P c := by
  induction pad with
  | nil => exact all
  | keep rest ih =>
    obtain ⟨first, all⟩ := List.forall_mem_cons.1 all
    exact List.forall_mem_cons.2 ⟨first, ih all⟩
  | pad space rest ih => exact List.forall_mem_cons.2 ⟨spaces _ space, ih all⟩

theorem PaddedBound.trim_eq {text text' : List Char} (pad : PaddedBound text text') :
    trim text' = trim text := by
  cases pad with
  | around before number behind padLeft padRight =>
    rw [trim_around before number behind,
      trim_around (padLeft.forall_mem (fun _ => isBlank_of_isSpace) before) number
        (padRight.forall_mem (fun _ => isBlank_of_isSpace) behind)]

theorem PaddedBound.isBound {text text' : List Char} (pad : PaddedBound text text') {n : Nat}
    (bound : Interval.IsBound n text) : Interval.IsBound n text' :=
  ⟨pad.trim_eq ▸ bound.nonempty, pad.trim_eq ▸ bound.digits, pad.trim_eq ▸ bound.value⟩

theorem PaddedBound.comma_notMem {text text' : List Char} (pad : PaddedBound text text') : ',' ∉ text := by
  cases pad with
  | around before number behind =>
    simp only [List.mem_append, not_or]
    exact ⟨fun mem => absurd (before _ mem) (by decide), fun mem => absurd (number _ mem) (by decide),
      fun mem => absurd (behind _ mem) (by decide)⟩

theorem PaddedToken.eq {t t' : Lexeme} (pad : PaddedToken t t') (other : t.1 ≠ .window) : t' = t := by
  cases pad with
  | same => rfl
  | window => exact absurd rfl other

theorem PaddedToken.spelled {text : List Char} {t' : Lexeme} (pad : PaddedToken (.window, text) t')
    {w : Interval} (spelled : w.Spelled text) : ∃ text', t' = (.window, text') ∧ w.Spelled text' := by
  cases pad with
  | same => exact ⟨text, rfl, spelled⟩
  | @window low low' high high' padLow padHigh =>
    obtain ⟨⟨low₀, high₀, shape, isLow, isHigh⟩, ordered⟩ := spelled
    -- Without further commas the window splits into its bounds in one way.
    have closed : (low ++ ',' :: high) ++ [']'] = (low₀ ++ ',' :: high₀) ++ [']'] := by simpa using shape
    obtain ⟨rfl, -, rfl⟩ := (List.append_cons_inj_of_notMem padLow.comma_notMem padHigh.comma_notMem).1
      (List.append_cancel_right closed)
    exact ⟨_, rfl, ⟨_, _, rfl, padLow.isBound isLow, padHigh.isBound isHigh⟩, ordered⟩

theorem Respaced.exists_laid {ts : List Lexeme} {text text' : List Char} (respaced : Respaced ts text text') :
    ∃ ts', List.Forall₂ PaddedToken ts ts' ∧ Laid ts' text' := by
  induction respaced with
  | nil blank pad => exact ⟨[], .nil, .nil (pad.forall_mem (fun _ => id) blank)⟩
  | cons blank pad token rest ih =>
    obtain ⟨ts', padded, laid⟩ := ih
    exact ⟨_ :: ts', .cons token padded, .cons (pad.forall_mem (fun _ => id) blank) laid⟩

theorem eq_of_padded_singleton {t : Lexeme} {ts : List Lexeme} (padded : List.Forall₂ PaddedToken [t] ts)
    (other : t.1 ≠ .window) : ts = [t] := by
  cases padded with
  | cons first rest =>
    cases rest
    rw [first.eq other]

theorem exists_window_of_padded {c : Char} {text : List Char} {ts : List Lexeme}
    (padded : List.Forall₂ PaddedToken [(.word, [c]), (.window, text)] ts) {w : Interval}
    (spelled : w.Spelled text) : ∃ text', ts = [(.word, [c]), (.window, text')] ∧ w.Spelled text' := by
  cases padded with
  | cons first rest =>
    cases rest with
    | cons second rest =>
      cases rest
      obtain ⟨text', rfl, spelled'⟩ := second.spelled spelled
      exact ⟨text', by rw [first.eq (by simp)], spelled'⟩

end Token

namespace Formula
open Token Runs

variable {os os' : List Lexeme}

theorem Unary.Spelled.respaced {op : Unary} (operator : op.Spelled os)
    (padded : List.Forall₂ PaddedToken os os') : op.Spelled os' := by
  cases operator with
  | not =>
    rw [eq_of_padded_singleton padded (by simp)]
    exact .not
  | eventually window =>
    obtain ⟨text', rfl, window'⟩ := exists_window_of_padded padded window
    exact .eventually window'
  | always window =>
    obtain ⟨text', rfl, window'⟩ := exists_window_of_padded padded window
    exact .always window'

theorem Binary.Spelled.respaced {op : Binary} (operator : op.Spelled os)
    (padded : List.Forall₂ PaddedToken os os') : op.Spelled os' := by
  cases operator with
  | and =>
    rw [eq_of_padded_singleton padded (by simp)]
    exact .and
  | or =>
    rw [eq_of_padded_singleton padded (by simp)]
    exact .or
  | «until» window =>
    obtain ⟨text', rfl, window'⟩ := exists_window_of_padded padded window
    exact .until window'
  | release window =>
    obtain ⟨text', rfl, window'⟩ := exists_window_of_padded padded window
    exact .release window'

/-- Respaced tokens derive the same formula and have as much open at once. -/
theorem Derivation.respaced {category : Category} {ts ts' : List Lexeme} {f : Formula}
    (d : Derivation category ts f) (padded : List.Forall₂ PaddedToken ts ts') :
    ∃ d' : Derivation category ts' f, ∀ opened, d'.peak opened = d.peak opened := by
  induction d generalizing ts' with
  | operand d ih =>
    obtain ⟨d', same⟩ := ih padded
    exact ⟨.operand d', same⟩
  | binary left operator right ihl ihr =>
    obtain ⟨ls, rest, rfl, paddedLeft, padded⟩ := exists_append_of_forall₂ padded
    obtain ⟨os, rs, rfl, paddedOperator, paddedRight⟩ := exists_append_of_forall₂ padded
    obtain ⟨left', sameLeft⟩ := ihl paddedLeft
    obtain ⟨right', sameRight⟩ := ihr paddedRight
    exact ⟨.binary left' (operator.respaced paddedOperator) right', fun opened => by
      simp only [peak, sameLeft, sameRight]⟩
  | unary operator d ih =>
    obtain ⟨os, ts, rfl, paddedOperator, padded⟩ := exists_append_of_forall₂ padded
    obtain ⟨d', same⟩ := ih padded
    exact ⟨.unary (operator.respaced paddedOperator) d', fun opened => by simp only [peak, same]⟩
  | paren d ih =>
    cases padded with
    | cons opening padded =>
      obtain ⟨ts, closing, rfl, padded, last⟩ := exists_append_of_forall₂ padded
      obtain ⟨d', same⟩ := ih padded
      rw [opening.eq (by simp), eq_of_padded_singleton last (by simp)]
      exact ⟨.paren d', fun opened => by simp only [peak, same]⟩
  | atom named =>
    rw [eq_of_padded_singleton padded (by simp)]
    exact ⟨.atom named, fun _ => rfl⟩

/-- Spaces, tabs, carriage returns and line feeds between the tokens of a text, around them and next to the
bounds of its windows do not change what is read, under the same limit. -/
theorem parse_respaced {limit : Nat} {source respaced : String} {f : Formula}
    (run : parse limit source = .ok f)
    (inserted : Respaced (spellings source.toList) source.toList respaced.toList) :
    parse limit respaced = .ok f := by
  obtain ⟨d⟩ := derives_of_parse run
  obtain ⟨ts', padded, laid⟩ := inserted.exists_laid
  obtain ⟨d', same⟩ := d.respaced padded
  have enough : d'.need ≤ limit := by
    rw [Derivation.need, same]
    exact need_le_of_parse d run
  rw [← String.ofList_toList (s := respaced)]
  exact parse_of_laid d' laid enough

theorem parse_respaced_until :
    let source := "aU[0,2]!b"
    let respaced := "\na\tU \r\n[ 0,\n2\t] !b "
    parse 3 source = .ok (.until ⟨0, 2⟩ (.atom "a") (.not (.atom "b"))) ∧
      Respaced (spellings source.toList) source.toList respaced.toList ∧
      parse 3 respaced = .ok (.until ⟨0, 2⟩ (.atom "a") (.not (.atom "b"))) := by
  intro source respaced
  have run : parse 3 source = .ok (.until ⟨0, 2⟩ (.atom "a") (.not (.atom "b"))) :=
    eq_ok_of_toOption (by decide +kernel)
  have tokens : spellings source.toList = [(.word, ['a']), (.word, ['U']),
      (.window, ['[', '0', ',', '2', ']']), (.bang, ['!']), (.word, ['b'])] := by decide +kernel
  have low : PaddedBound ['0'] [' ', '0'] :=
    @PaddedBound.around [] [' '] ['0'] [] [] (by simp) (by simp) (by simp) (.pad rfl .nil) .nil
  have high : PaddedBound ['2'] ['\n', '2', '\t'] :=
    @PaddedBound.around [] ['\n'] ['2'] [] ['\t'] (by simp) (by simp) (by simp) (.pad rfl .nil)
      (.pad rfl .nil)
  have inserted : Respaced (spellings source.toList) source.toList respaced.toList := by
    have text : source.toList = ['a', 'U', '[', '0', ',', '2', ']', '!', 'b'] := by decide +kernel
    have text' : respaced.toList = ['\n', 'a', '\t', 'U', ' ', '\r', '\n', '[', ' ', '0', ',', '\n', '2',
      '\t', ']', ' ', '!', 'b', ' '] := by decide +kernel
    rw [tokens, text, text']
    exact @Respaced.cons [] ['\n'] _ (.word, ['a']) _ _ _ (by simp) (.pad rfl .nil) (.same _) <|
      @Respaced.cons [] ['\t'] _ (.word, ['U']) _ _ _ (by simp) (.pad rfl .nil) (.same _) <|
      @Respaced.cons [] [' ', '\r', '\n'] _ _ _ _ _ (by simp) (.pad rfl (.pad rfl (.pad rfl .nil)))
        (.window low high) <|
      @Respaced.cons [] [' '] _ (.bang, ['!']) _ _ _ (by simp) (.pad rfl .nil) (.same _) <|
      @Respaced.cons [] [] _ (.word, ['b']) _ _ _ (by simp) .nil (.same _) <|
      @Respaced.nil [] [' '] (by simp) (.pad rfl .nil)
  exact ⟨run, inserted, parse_respaced run inserted⟩

end Formula
end MissionTime
