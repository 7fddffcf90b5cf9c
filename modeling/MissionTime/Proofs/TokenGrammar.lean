import MissionTime.Token
import MissionTime.Proofs.Peg
import Mathlib.Data.List.DropRight
import Mathlib.Data.List.TakeWhile

/-! The grammar of tokens, and the scanner as its only match. A text is a sequence of tokens with blanks
between them; what starts no token is junk up to the end of the text. -/
namespace MissionTime

/-- The kind and the text of a token. -/
abbrev Lexeme := Token.Kind × List Char

namespace TokenGrammar

abbrev Rule := Peg Token.Kind

def blank : Rule := .among [' ', '\t', '\r', '\n']

def spaced (first second : Rule) : Rule := .seq first (.seq (.many blank) second)

def spacedMany (body : Rule) : Rule := .optional (.seq body (.many (.seq (.many blank) body)))

def punctuation (kind : Token.Kind) (c : Char) : Rule := .captured kind (.among [c])

def linkage : Rule := .seq (.among ['U', 'R']) (.seq (.many blank) (.among ['[']))

def word : Rule :=
  .captured .word (.seq (.one Char.isAlpha) (.many (.seq (.absent linkage) (.one Char.isAlphanum))))

def windowStop : Rule := .among [']', '[', '(', ')', '!', '&', '|']

def window : Rule :=
  .captured .window
    (.seq (.among ['[']) (.seq (.many (.seq (.absent windowStop) .any)) (.optional (.among [']']))))

def junk : Rule := .captured .junk (.seq .any (.many .any))

def token : Rule :=
  .choice (punctuation .leftParen '(') <| .choice (punctuation .rightParen ')') <|
    .choice (punctuation .bang '!') <| .choice (punctuation .amp '&') <|
    .choice (punctuation .bar '|') <| .choice window word

def formula : Rule := spaced .empty (spaced (spacedMany token) (spaced junk.optional .finish))

end TokenGrammar

namespace Token

def spelling (token : Token) : Lexeme := (token.kind, token.text)

def capture (token : Token) : Peg.Capture Kind := ⟨token.kind, token.text, token.after⟩

def spellings (source : List Char) : List Lexeme := (scan 0 source).map spelling

theorem map_spelling_scan (start start' : Nat) (source : List Char) :
    (scan start source).map spelling = (scan start' source).map spelling := by
  induction hn : source.length using Nat.strongRecOn generalizing start start' source with
  | ind n ih =>
    subst hn
    cases source with
    | nil => simp [scan]
    | cons c source =>
      rw [scan, scan]
      split_ifs with space
      · exact ih source.length (by simp) _ _ source rfl
      · rw [List.map_cons, List.map_cons]
        congr 1
        exact ih _ (by rw [List.length_drop, List.length_cons]; omega) _ _ _ rfl

theorem spellings_nil : spellings [] = [] := by simp [spellings, scan]

theorem spellings_space {c : Char} (space : isSpace c = true) (source : List Char) :
    spellings (c :: source) = spellings source := by
  rw [spellings, scan, if_pos space]
  exact map_spelling_scan _ _ source

theorem spellings_cons {c : Char} (solid : isSpace c = false) (source : List Char) :
    spellings (c :: source) = ((lexeme c source).1, c :: (lexeme c source).2) ::
      spellings (source.drop (lexeme c source).2.length) := by
  rw [spellings, scan, if_neg (by simp [solid]), List.map_cons]
  congr 1
  exact map_spelling_scan _ _ _

theorem spellings_dropWhile (source : List Char) :
    spellings (source.dropWhile isSpace) = spellings source := by
  induction source with
  | nil => rfl
  | cons c source ih =>
    cases space : isSpace c with
    | true => rw [List.dropWhile_cons_of_pos space, ih, spellings_space space]
    | false => rw [List.dropWhile_cons_of_neg (by simp [space])]

theorem wordTail_append_drop (source : List Char) :
    wordTail source ++ source.drop (wordTail source).length = source := by
  induction source with
  | nil => rfl
  | cons c source ih =>
    rw [wordTail]
    split_ifs
    · simpa using ih
    · rfl

theorem windowTail_cons (c : Char) (source : List Char) :
    windowTail (c :: source) =
      if endsWindow c then if c = ']' then [']'] else [] else c :: windowTail source := by
  unfold windowTail
  cases ends : endsWindow c with
  | true =>
    rw [List.takeWhile_cons_of_neg (by simp [ends])]
    by_cases closes : c = ']'
    · simp [closes]
    · simp [closes]
  | false =>
    rw [List.takeWhile_cons_of_pos (by simp [ends])]
    simp only [List.length_cons, List.drop_succ_cons]
    split
    · simp
    · simp

theorem windowTail_append_drop (source : List Char) :
    windowTail source ++ source.drop (windowTail source).length = source := by
  induction source with
  | nil => rfl
  | cons c source ih =>
    rw [windowTail_cons]
    split_ifs with ends closes
    · simp [closes]
    · simp
    · simpa using ih

theorem lexeme_snd_of_junk {c : Char} {source : List Char} (h : (lexeme c source).1 = .junk) :
    (lexeme c source).2 = source := by
  unfold lexeme at h ⊢
  split at h
  iterate 6 cases h
  split_ifs at h ⊢
  rfl

end Token

namespace TokenGrammar
open Token

theorem isSpace_iff {c : Char} : isSpace c = true ↔ c ∈ [' ', '\t', '\r', '\n'] := by
  simp [isSpace, or_assoc]

theorem endsWindow_iff {c : Char} :
    endsWindow c = true ↔ c ∈ [']', '[', '(', ')', '!', '&', '|'] := by
  simp [endsWindow, or_assoc]

theorem opensWindow_iff {c : Char} {s : List Char} :
    opensWindow c s = true ↔ c ∈ ['U', 'R'] ∧ ∃ rest, s.dropWhile isSpace = '[' :: rest := by
  simp [opensWindow, List.head?_eq_some_iff]

theorem matches_blanks (s : List Char) : (Peg.many blank).Matches s (some ([], s.dropWhile isSpace)) := by
  have same : isSpace = fun c => [' ', '\t', '\r', '\n'].contains c := by
    funext c
    rw [Bool.eq_iff_iff, isSpace_iff, List.contains_iff_mem]
  rw [same]
  exact Peg.matches_many_one _ s

theorem matches_linkage {c : Char} {s : List Char} (opens : opensWindow c s = true) :
    ∃ r, linkage.Matches (c :: s) (some r) := by
  obtain ⟨letter, rest, behind⟩ := opensWindow_iff.1 opens
  have last : (Peg.among ['['] : Rule).Matches (s.dropWhile isSpace) (some ([], rest)) := by
    rw [behind]
    exact Peg.matches_among (by decide) rest
  exact ⟨_, .seq (Peg.matches_among letter s) (.seq (matches_blanks s) last)⟩

theorem not_matches_linkage {c : Char} {s : List Char} (opens : opensWindow c s = false) :
    linkage.Matches (c :: s) none := by
  by_cases letter : c ∈ ['U', 'R']
  · have last : (Peg.among ['['] : Rule).Matches (s.dropWhile isSpace) none := by
      cases behind : s.dropWhile isSpace with
      | nil => exact .oneEnd
      | cons d rest =>
        apply Peg.not_matches_among
        intro bracket
        rw [List.mem_singleton.1 bracket] at behind
        rw [opensWindow_iff.2 ⟨letter, rest, behind⟩] at opens
        cases opens
    exact .seqSecond (Peg.matches_among letter s) (.seqSecond (matches_blanks s) last)
  · exact .seqFirst (Peg.not_matches_among letter s)

theorem matches_wordTail (s : List Char) :
    (Peg.many (.seq (.absent linkage) (.one Char.isAlphanum)) : Rule).Matches s
      (some ([], s.drop (wordTail s).length)) := by
  induction s with
  | nil => exact .manyStop (.seqSecond (.absent (.seqFirst .oneEnd)) .oneEnd)
  | cons c s ih =>
    rw [wordTail]
    cases opens : opensWindow c s with
    | true =>
      obtain ⟨r, found⟩ := matches_linkage opens
      simpa using .manyStop (.seqFirst (.absentFound found))
    | false =>
      have clear := Peg.Matches.absent (not_matches_linkage opens)
      cases alphanumeric : c.isAlphanum with
      | true => simpa using .manyStep (.seq clear (.one alphanumeric)) ih
      | false => simpa using .manyStop (.seqSecond clear (.oneOther alphanumeric))

theorem matches_windowTail (s : List Char) :
    (Peg.seq (.many (.seq (.absent windowStop) .any)) (.optional (.among [']'])) : Rule).Matches s
      (some ([], s.drop (windowTail s).length)) := by
  induction s with
  | nil =>
    exact Peg.matches_many_stop_seq (.seqSecond (.absent .oneEnd) .oneEnd)
      (Peg.matches_optional_none .oneEnd)
  | cons c s ih =>
    rw [windowTail_cons]
    cases ends : endsWindow c with
    | true =>
      have found : windowStop.Matches (c :: s) (some ([], s)) :=
        Peg.matches_among (endsWindow_iff.1 ends) s
      refine Peg.matches_many_stop_seq (.seqFirst (.absentFound found)) ?_
      by_cases closes : c = ']'
      · subst closes
        exact .choiceFirst (Peg.matches_among (by decide) s)
      · rw [if_pos rfl, if_neg closes]
        exact Peg.matches_optional_none (Peg.not_matches_among (by simpa using closes) s)
    | false =>
      have clear : windowStop.Matches (c :: s) none :=
        Peg.not_matches_among (fun stop => by simp [endsWindow_iff.2 stop] at ends) s
      exact Peg.matches_many_step_seq (.seq (.absent clear) (.one rfl)) ih

theorem matches_punctuation (kind : Kind) (c : Char) (s : List Char) :
    (punctuation kind c).Matches (c :: s) (some ([(kind, [c])], s)) :=
  .captured (Peg.matches_among (by simp) s) rfl

theorem not_matches_punctuation {kind : Kind} {c d : Char} {s : List Char} (other : d ≠ c) :
    (punctuation kind c).Matches (d :: s) none :=
  .capturedNone (Peg.not_matches_among (by simpa using other) s)

theorem matches_window (s : List Char) :
    window.Matches ('[' :: s) (some ([(.window, '[' :: windowTail s)], s.drop (windowTail s).length)) :=
  .captured (.seq (Peg.matches_among (by decide) s) (matches_windowTail s))
    (congrArg ('[' :: ·) (windowTail_append_drop s).symm)

theorem not_matches_window {c : Char} {s : List Char} (other : c ≠ '[') : window.Matches (c :: s) none :=
  .capturedNone (.seqFirst (Peg.not_matches_among (by simpa using other) s))

theorem matches_word {c : Char} (letter : c.isAlpha = true) (s : List Char) :
    word.Matches (c :: s) (some ([(.word, c :: wordTail s)], s.drop (wordTail s).length)) :=
  .captured (.seq (.one letter) (matches_wordTail s)) (congrArg (c :: ·) (wordTail_append_drop s).symm)

theorem not_matches_token_nil : token.Matches [] none := by
  have none : ∀ kind c, (punctuation kind c).Matches [] none := fun _ _ => .capturedNone .oneEnd
  exact .choiceSecond (none _ _) <| .choiceSecond (none _ _) <| .choiceSecond (none _ _) <|
    .choiceSecond (none _ _) <| .choiceSecond (none _ _) <|
    .choiceSecond (.capturedNone (.seqFirst .oneEnd)) (.capturedNone (.seqFirst .oneEnd))

theorem matches_token_of_word {c : Char} {s : List Char} {r : Peg.Result Kind}
    (other : c ∉ ['(', ')', '!', '&', '|', '[']) (last : word.Matches (c :: s) r) :
    token.Matches (c :: s) r := by
  simp only [List.mem_cons, List.not_mem_nil, not_or] at other
  obtain ⟨h₁, h₂, h₃, h₄, h₅, h₆, -⟩ := other
  exact .choiceSecond (not_matches_punctuation h₁) <| .choiceSecond (not_matches_punctuation h₂) <|
    .choiceSecond (not_matches_punctuation h₃) <| .choiceSecond (not_matches_punctuation h₄) <|
    .choiceSecond (not_matches_punctuation h₅) <| .choiceSecond (not_matches_window h₆) last

/-- What the scanner takes at the beginning of a source is what the token rule matches there. -/
theorem matches_token (c : Char) (s : List Char) :
    token.Matches (c :: s)
      (if (lexeme c s).1 = .junk then none
      else some ([((lexeme c s).1, c :: (lexeme c s).2)], s.drop (lexeme c s).2.length)) := by
  have skip {c d : Char} {kind : Kind} {rule : Rule} {r : Peg.Result Kind} (h : c ≠ d)
      (second : rule.Matches (c :: s) r) : (Peg.choice (punctuation kind d) rule).Matches (c :: s) r :=
    .choiceSecond (not_matches_punctuation h) second
  unfold lexeme
  split
  · exact .choiceFirst (matches_punctuation ..)
  · exact skip (by decide) <| .choiceFirst (matches_punctuation ..)
  · exact skip (by decide) <| skip (by decide) <| .choiceFirst (matches_punctuation ..)
  · exact skip (by decide) <| skip (by decide) <| skip (by decide) <|
      .choiceFirst (matches_punctuation ..)
  · exact skip (by decide) <| skip (by decide) <| skip (by decide) <| skip (by decide) <|
      .choiceFirst (matches_punctuation ..)
  · exact skip (by decide) <| skip (by decide) <| skip (by decide) <| skip (by decide) <|
      skip (by decide) <| .choiceFirst (matches_window s)
  · have other : c ∉ ['(', ')', '!', '&', '|', '['] := by simp_all
    cases letter : c.isAlpha with
    | true => exact matches_token_of_word other (matches_word letter s)
    | false => exact matches_token_of_word other (.capturedNone (.seqFirst (.oneOther letter)))

def ending : Rule := spaced junk.optional .finish

theorem captures_ending_nil : ending.Captures [] [] [] := by
  have run : ending.Matches [] (some ([], [])) :=
    .seq (Peg.matches_optional_none (.capturedNone (.seqFirst .oneEnd)))
      (.seq (matches_blanks []) .finish)
  exact run.captures_nil

theorem captures_ending_cons (c : Char) (s : List Char) :
    ending.Captures (c :: s) [⟨.junk, c :: s, []⟩] [] := by
  have all : (Peg.many .any : Rule).Matches s (some ([], [])) := by
    have run : (Peg.many .any : Rule).Matches s _ := Peg.matches_many_one (fun _ => true) s
    rwa [List.dropWhile_eq_nil_iff.2 fun _ _ => rfl] at run
  have whole : junk.Captures (c :: s) [⟨.junk, c :: s, []⟩] [] :=
    .captured (.seq (.one rfl) all) (List.append_nil _).symm
  exact .seq (.choiceFirst whole) (.seq (matches_blanks []).captures_nil .finish)

theorem token_or_ending (start : Nat) (s : List Char) :
    (∃ first, scan start s = first :: scan first.stop first.after ∧ first.after.length < s.length ∧
      token.Captures (s.dropWhile isSpace) [first.capture] first.after) ∨
    (token.Matches (s.dropWhile isSpace) none ∧
      ending.Captures (s.dropWhile isSpace) ((scan start s).map capture) []) := by
  fun_induction scan start s with
  | case1 start => exact .inr ⟨not_matches_token_nil, captures_ending_nil⟩
  | case2 start c s space ih =>
    rw [List.dropWhile_cons_of_pos space]
    rcases ih with ⟨first, split, shorter, found⟩ | last
    · exact .inl ⟨first, split, Nat.lt_succ_of_lt shorter, found⟩
    · exact .inr last
  | case3 start c s solid kind tail split first =>
    have found := matches_token c s
    rw [List.dropWhile_cons_of_neg (by simpa using solid)]
    rw [split] at found
    split_ifs at found with junk
    · obtain rfl : kind = .junk := junk
      have whole := lexeme_snd_of_junk (congrArg Prod.fst split)
      rw [split] at whole
      obtain rfl : tail = s := whole
      refine .inr ⟨found, ?_⟩
      have last := captures_ending_cons c tail
      simpa [first, capture, text, scan] using last
    · refine .inl ⟨first, rfl, ?_, found.captures_whole rfl⟩
      simp only [first, List.length_drop, List.length_cons]
      omega

theorem captures_behind (start : Nat) (s : List Char) :
    (Peg.seq (.many (.seq (.many blank) token)) (.seq (.many blank) ending)).Captures s
      ((scan start s).map capture) [] := by
  induction hn : s.length using Nat.strongRecOn generalizing start s with
  | ind n ih =>
    have blanks := (matches_blanks s).captures_nil
    rcases token_or_ending start s with ⟨first, split, shorter, found⟩ | ⟨none, last⟩
    · rw [split, List.map_cons]
      exact Peg.captures_many_step_seq (.seq blanks found) (ih _ (hn ▸ shorter) _ _ rfl)
    · exact Peg.captures_many_stop_seq (.seqSecond (matches_blanks s) none) (.seq blanks last)

/-- Every source matches the grammar, and the scanner finds the captures at their places. -/
theorem formula_captures (s : List Char) : formula.Captures s ((scan 0 s).map capture) [] := by
  suffices tokens : (spaced (spacedMany token) ending).Captures (s.dropWhile isSpace)
      ((scan 0 s).map capture) [] from .seq .empty (.seq (matches_blanks s).captures_nil tokens)
  rcases token_or_ending 0 s with ⟨first, split, -, found⟩ | ⟨none, last⟩
  · have behind := captures_behind first.stop first.after
    rw [split, List.map_cons]
    generalize (scan first.stop first.after).map capture = captures at behind
    cases behind with
    | seq first second => exact .seq (.choiceFirst (.seq found first)) second
  · have blanks := (matches_blanks (s.dropWhile isSpace)).captures_nil
    rw [List.dropWhile_idempotent] at blanks
    exact .seq (Peg.matches_optional_none (.seqFirst none)).captures_nil (.seq blanks last)

theorem formula_matches (s : List Char) : formula.Matches s (some (spellings s, [])) := by
  have run := (formula_captures s).matches
  rwa [List.map_map] at run

theorem eq_spellings_of_matches {s : List Char} {lexemes : List Lexeme}
    (h : formula.Matches s (some (lexemes, []))) : lexemes = spellings s := by
  cases h.unique (formula_matches s)
  rfl

end TokenGrammar
end MissionTime
