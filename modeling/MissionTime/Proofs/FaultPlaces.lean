import MissionTime.Proofs.Layout
import MissionTime.Proofs.Refusals

/-! The places of faults. A fault is found at a token or at the end of the text; the machine keeps the places
of open parentheses and of the last letter that needs a window. All of them are places between characters, so
that every span covers a part of the source, and what a diagnostic tells is what stands there. -/
namespace MissionTime
open Text

namespace Text

/-- A text divided at a byte offset; `none` outside of the text and inside of a character. -/
def divide? : List Char → Nat → Option (List Char × List Char)
  | text, 0 => some ([], text)
  | [], _ + 1 => none
  | c :: text, offset + 1 =>
    if c.utf8Size ≤ offset + 1 then
      (divide? text (offset + 1 - c.utf8Size)).map fun (before, behind) => (c :: before, behind)
    else none

def slice? (text : List Char) (span : Span) : Option (List Char) :=
  if span.start ≤ span.stop then do
    let (_, rest) ← divide? text span.start
    let (covered, _) ← divide? rest (span.stop - span.start)
    return covered
  else none

theorem divide?_append (before behind : List Char) :
    divide? (before ++ behind) (byteLength before) = some (before, behind) := by
  induction before with
  | nil => cases behind <;> rfl
  | cons c before ih =>
    have positive := c.utf8Size_pos
    obtain ⟨offset, total⟩ : ∃ offset, c.utf8Size + byteLength before = offset + 1 :=
      ⟨c.utf8Size + byteLength before - 1, by omega⟩
    have rest : offset + 1 - c.utf8Size = byteLength before := by omega
    rw [byteLength_cons, total, List.cons_append, divide?, if_pos (by omega), rest, ih]
    rfl

theorem divide?_eq_some_iff {text before behind : List Char} {offset : Nat} :
    divide? text offset = some (before, behind) ↔ text = before ++ behind ∧ byteLength before = offset := by
  refine ⟨fun divided => ?_, fun ⟨whole, length⟩ => by rw [whole, ← length, divide?_append]⟩
  induction text, offset using divide?.induct generalizing before with
  | case1 text => simp_all [divide?]
  | case2 offset => simp [divide?] at divided
  | case3 c text offset fits ih =>
    simp only [divide?, if_pos fits, Option.map_eq_some_iff, Prod.exists, Prod.mk.injEq] at divided
    obtain ⟨front, rest, divided, rfl, rfl⟩ := divided
    obtain ⟨rfl, length⟩ := ih divided
    refine ⟨rfl, ?_⟩
    rw [byteLength_cons, length]
    omega
  | case4 c text offset short => simp [divide?, short] at divided

theorem slice?_eq_some_iff {text covered : List Char} {span : Span} :
    slice? text span = some covered ↔ ∃ before behind, text = before ++ (covered ++ behind) ∧
      span = ⟨byteLength before, byteLength before + byteLength covered⟩ := by
  obtain ⟨start, stop⟩ := span
  constructor
  · intro cut
    simp only [slice?, Option.pure_def, Option.bind_eq_bind] at cut
    split_ifs at cut with ordered
    simp only [Option.bind_eq_some_iff, Prod.exists, divide?_eq_some_iff, Option.some.injEq] at cut
    obtain ⟨before, rest, ⟨rfl, rfl⟩, _, behind, ⟨rfl, length⟩, rfl⟩ := cut
    exact ⟨before, behind, rfl, by rw [length, Nat.add_sub_cancel' ordered]⟩
  · rintro ⟨before, behind, rfl, place⟩
    obtain ⟨rfl, rfl⟩ := Span.mk.inj place
    simp [slice?, divide?_append]

theorem utf8ByteSize_ofList (text : List Char) : (String.ofList text).utf8ByteSize = byteLength text := by
  induction text with
  | nil => rfl
  | cons c text ih =>
    rw [String.ofList_cons, String.utf8ByteSize_append, String.utf8ByteSize_singleton, ih, byteLength_cons]

theorem utf8ByteSize_eq (source : String) : source.utf8ByteSize = byteLength source.toList := by
  rw [← utf8ByteSize_ofList, String.ofList_toList]

theorem isValid_of_split {source : String} {before behind : List Char}
    (split : source.toList = before ++ behind) : String.Pos.Raw.IsValid source ⟨byteLength before⟩ := by
  refine String.Pos.Raw.isValid_iff_exists_append.2 ⟨.ofList before, .ofList behind, ?_, ?_⟩
  · rw [← String.ofList_append, ← split, String.ofList_toList]
  · rw [← utf8ByteSize_ofList]
    rfl

end Text

namespace SyntaxFault

/-- What a fault tells is what stands in the source at its place: `covered` is the part that its span covers
and `rest` the whole source from there on. -/
def Reports : SyntaxFault → (covered rest : List Char) → Prop
  | .unclosedParen, covered, _ => covered = ['(']
  | .missingWindow _, covered, rest => covered = rest.take 1
  | .unterminatedWindow, covered, _ => ∃ body, covered = '[' :: body ∧ body.getLast? ≠ some ']'
  | .malformedWindow body, covered, _ => covered = '[' :: (body.toList ++ [']'])
  | .invertedWindow low high, covered, _ =>
    ∃ body, covered = '[' :: (body ++ [']']) ∧ Interval.ofBody? body = some ⟨low, high⟩ ∧ high < low
  | .unexpectedChar found, covered, _ => covered = [found]
  | .unexpectedEnd, covered, rest => covered = [] ∧ rest = []
  | .trailingInput text, covered, rest => covered = rest ∧ text = String.ofList (trimEnd rest)
  | .nestingTooDeep _, covered, _ => ∃ c, covered = [c]

end SyntaxFault

def Located.Placed (source : List Char) (located : Located) : Prop :=
  ∃ before covered behind, source = before ++ (covered ++ behind) ∧
    located.span = ⟨byteLength before, byteLength before + byteLength covered⟩ ∧
    located.fault.Reports covered (covered ++ behind)

namespace Token

structure Stands (token : Token) (source before : List Char) : Prop where
  split : source = before ++ token.rest
  start : token.start = byteLength before

variable {token : Token} {source before : List Char} {fault : SyntaxFault}

theorem Stands.placed_head (stands : token.Stands source before)
    (reports : fault.Reports [token.head] token.rest) : Located.Placed source ⟨fault, token.headSpan⟩ := by
  refine ⟨before, [token.head], token.tail ++ token.after, stands.split, ?_, reports⟩
  rw [headSpan, Span.ofChar, stands.start]
  simp

theorem Stands.placed (stands : token.Stands source before) (reports : fault.Reports token.text token.rest) :
    Located.Placed source ⟨fault, token.span⟩ := by
  refine ⟨before, token.text, token.after, stands.split, ?_, reports⟩
  rw [span, stop, stands.start]

end Token

namespace Formula
open Token Runs

variable {limit : Nat} {token : Token} {source before : List Char}

theorem placed_trailing (stands : token.Stands source before) : (trailing token).Placed source := by
  refine ⟨before, token.rest, [], by simpa using stands.split, ?_, by simp, by simp⟩
  rw [trailing, stop, stands.start, rest, byteLength_append, Nat.add_assoc]

theorem placed_windowOf (stands : token.Stands source before) (shaped : token.spelling.Shaped) {letter : Char}
    {located : Located} (refused : windowOf letter token = .error located) : located.Placed source := by
  unfold windowOf at refused
  split_ifs at refused with other closed
  · cases refused
    exact stands.placed_head rfl
  all_goals
    have text : ∃ tail, token.text = '[' :: tail := by
      unfold spelling at shaped
      rwa [not_not.1 other] at shaped
    obtain ⟨tail, text⟩ := text
    obtain rfl : token.tail = tail := (List.cons.inj text).2
  · cases refused
    exact stands.placed ⟨token.tail, text, closed⟩
  · obtain ⟨body, bracket⟩ := List.getLast?_eq_some_iff.1 (not_not.1 closed)
    rw [bracket, List.dropLast_concat] at refused
    rw [bracket] at text
    split at refused
    · cases refused
      exact stands.placed (by simpa [SyntaxFault.Reports] using text)
    · rename_i window read
      split_ifs at refused with ordered
      cases refused
      exact stands.placed ⟨body, text, read, Nat.lt_of_not_le ordered⟩

namespace Machine

variable {m m' : Machine} {located : Located}

structure Advanced (token : Token) (m m' : Machine) : Prop where
  parens : ∀ start, .paren start ∈ m'.stack →
    .paren start ∈ m.stack ∨ start = token.start ∧ token.kind = .leftParen ∧ m.phase = .operand
  place : ∀ op span, m'.phase = .unaryWindow op span → span = token.headSpan

theorem advanced_reduce {span : Span} {stack : List Frame} {pending : Nat} {node : Node}
    (run : reduce limit span stack pending node = .ok m') (kept : stack ⊆ m.stack) : Advanced token m m' := by
  fun_induction reduce limit span stack pending node with
  | case1 => cases run
  | case2 pending node op stack _ ih => exact ih run (List.cons_subset.1 kept).2
  | case3 => cases run
  | case4 pending node left op stack _ ih => exact ih run (List.cons_subset.1 kept).2
  | case5 stack pending node =>
    cases run
    exact ⟨fun start mem => .inl (kept mem), by simp⟩

theorem advanced_of_moves (moved : Moves limit token m m') : Advanced token m m' := by
  cases moved with
  | opening kind _ =>
    refine ⟨fun start mem => ?_, by simp⟩
    rcases List.mem_cons.1 mem with same | mem
    · exact .inr ⟨Frame.paren.inj same, kind, rfl⟩
    · exact .inl mem
  | modality op _ _ => exact ⟨fun start mem => .inl mem, by simp⟩
  | linkage op _ _ => exact ⟨fun start mem => .inl mem, by simp⟩
  | name _ _ _ run => exact advanced_reduce run fun _ mem => mem
  | closing _ run => exact advanced_reduce run (List.subset_cons_self ..)
  | negation | and | or | unaryWindow | binaryWindow =>
    exact ⟨fun start mem => .inl (by simpa using mem), by simp⟩

/-- Every place that the machine keeps is one of the source: the open parentheses, in front of which the text
satisfies `P`, and the letter that needs a window. -/
structure Anchored (source : List Char) (P : List Char → Prop) (m : Machine) : Prop where
  parens : ∀ start, .paren start ∈ m.stack →
    ∃ before behind, source = before ++ '(' :: behind ∧ start = byteLength before ∧ P before
  place : ∀ op span, m.phase = .unaryWindow op span →
    ∃ before c behind, source = before ++ c :: behind ∧ span = .ofChar (byteLength before) c

variable {P : List Char → Prop}

theorem Anchored.step (anchored : m.Anchored source P) (stands : token.Stands source before)
    (shaped : token.spelling.Shaped) (admitted : m.phase = .operand → P before)
    (run : m.step limit token = .ok m') : m'.Anchored source P := by
  have advanced := advanced_of_moves (moves_of_step run)
  constructor
  · intro start mem
    rcases advanced.parens start mem with mem | ⟨rfl, kind, phase⟩
    · exact anchored.parens start mem
    · have text : token.text = ['('] := by
        unfold spelling at shaped
        rwa [kind] at shaped
      refine ⟨before, token.after, ?_, stands.start, admitted phase⟩
      rw [stands.split, rest, text]
      rfl
  · intro op span phase
    refine ⟨before, token.head, token.tail ++ token.after, stands.split, ?_⟩
    rw [advanced.place op span phase, headSpan, stands.start]

end Machine

theorem exists_stands {source : List Char} {front behind : List Token} {token : Token}
    (scanned : scan 0 source = front ++ token :: behind) :
    ∃ before, token.Stands source before ∧ Laid (front.map spelling) before := by
  obtain ⟨before, split, start, laid⟩ := (scanned ▸ tiled_scan 0 source).laid_front
  exact ⟨before, ⟨split, by simpa using start⟩, laid⟩

theorem shaped_of_scan {source : List Char} {front behind : List Token} {token : Token}
    (scanned : scan 0 source = front ++ token :: behind) : token.spelling.Shaped :=
  shaped_of_mem_scan (scanned ▸ List.mem_append_right front List.mem_cons_self)

theorem Machine.anchored_of_consume {P : List Char → Prop} {source : List Char}
    (admitted : ∀ ⦃front token behind m before⦄, scan 0 source = front ++ token :: behind →
      consume front {} limit = .ok m → m.phase = .operand → Laid (front.map spelling) before → P before)
    {front behind : List Token} {m : Machine} (scanned : scan 0 source = front ++ behind)
    (run : consume front {} limit = .ok m) : m.Anchored source P := by
  -- On the last token: the text in front of a token depends on all of the tokens before it.
  induction front using List.reverseRecOn generalizing behind m with
  | nil =>
    cases run
    exact ⟨by simp, by simp⟩
  | append_singleton front token ih =>
    rw [List.append_assoc] at scanned
    obtain ⟨next, first, last⟩ := exists_of_consume_concat run
    obtain ⟨before, stands, laid⟩ := exists_stands scanned
    exact (ih scanned first).step stands (shaped_of_scan scanned)
      (fun phase => admitted scanned first phase laid) last

theorem Machine.Anchored.placed_refused {P : List Char → Prop} {m : Machine} {located : Located}
    (anchored : m.Anchored source P) (stands : token.Stands source before) (shaped : token.spelling.Shaped)
    (refused : Refused limit token m.phase located) : located.Placed source := by
  generalize expected : m.phase = phase at refused
  cases refused with
  | operand => exact stands.placed_head rfl
  | operator => exact placed_trailing stands
  | @linkage _ op c cs word letter longer =>
    refine ⟨before ++ [token.head], [c], cs ++ token.after, ?_, ?_, rfl⟩
    · rw [stands.split, rest, Token.text, longer]
      simp
    · simp [Span.ofChar, stands.start]
  | unaryWindow refused => exact placed_windowOf stands shaped refused
  | binaryWindow refused => exact placed_windowOf stands shaped refused
  | tooDeep => exact stands.placed_head ⟨token.head, rfl⟩
  | @tooDeepBefore op place =>
    obtain ⟨before, c, behind, split, rfl⟩ := anchored.place op place expected
    exact ⟨before, [c], behind, split, by simp [Span.ofChar], c, rfl⟩

theorem Machine.Anchored.placed_unfinished {P : List Char → Prop} {m : Machine} {located : Located}
    (anchored : m.Anchored source P) (unfinished : Unfinished (byteLength source) m located) :
    located.Placed source := by
  have atEnd {fault : SyntaxFault} (reports : fault.Reports [] []) :
      Located.Placed source ⟨fault, .point (byteLength source)⟩ :=
    ⟨source, [], [], by simp, by simp [Span.point], reports⟩
  cases unfinished with
  | operand => exact atEnd ⟨rfl, rfl⟩
  | window => exact atEnd rfl
  | inside mem =>
    obtain ⟨before, behind, split, rfl, -⟩ := anchored.parens _ mem
    exact ⟨before, ['('], behind, split, rfl, rfl⟩

theorem placed_of_parse {source : String} {d : Diagnostic} (failed : parse limit source = .error d) :
    d.toLocated.Placed source.toList := by
  have anchored {front behind : List Token} {m : Machine}
      (scanned : scan 0 source.toList = front ++ behind) (run : Machine.consume front {} limit = .ok m) :
      m.Anchored source.toList fun _ => True :=
    Machine.anchored_of_consume (by simp) scanned run
  rcases refusal_of_parse failed with ⟨front, token, behind, m, scanned, run, refused⟩ |
    ⟨m, run, unfinished⟩
  · obtain ⟨before, stands, -⟩ := exists_stands scanned
    exact (anchored scanned run).placed_refused stands (shaped_of_scan scanned) refused
  · exact (anchored (List.append_nil _).symm run).placed_unfinished unfinished

/-- The span of a diagnostic lies in the source, and its ends are boundaries of characters. So the two slices
that a diagnostic is built from exist, the part that the span covers and the source from there on, and they
hold what it tells. -/
theorem parse_error_span_valid {limit : Nat} {source : String} {d : Diagnostic}
    (failed : parse limit source = .error d) :
    d.span.start ≤ d.span.stop ∧ d.span.stop ≤ source.utf8ByteSize ∧
    String.Pos.Raw.IsValid source ⟨d.span.start⟩ ∧ String.Pos.Raw.IsValid source ⟨d.span.stop⟩ ∧
    ∃ covered rest, slice? source.toList d.span = some covered ∧
      slice? source.toList ⟨d.span.start, source.utf8ByteSize⟩ = some rest ∧
      d.fault.Reports covered rest := by
  obtain ⟨before, covered, behind, split, span, reports⟩ := placed_of_parse failed
  have total : source.utf8ByteSize = byteLength before + byteLength (covered ++ behind) := by
    rw [utf8ByteSize_eq, split, byteLength_append]
  have start : String.Pos.Raw.IsValid source ⟨byteLength before⟩ := isValid_of_split split
  have stop : String.Pos.Raw.IsValid source ⟨byteLength before + byteLength covered⟩ := by
    rw [← byteLength_append]
    exact isValid_of_split (by rw [split, List.append_assoc])
  rw [span, total]
  refine ⟨Nat.le_add_right .., by simp, start, stop, covered, covered ++ behind, ?_, ?_, reports⟩
  · exact slice?_eq_some_iff.2 ⟨before, behind, split, rfl⟩
  · exact slice?_eq_some_iff.2 ⟨before, [], by simpa using split, rfl⟩

theorem parse_error_span_valid_wide :
    let source := "a & bU[é,€](c"
    ∃ d, parse 3 source = .error d ∧ d.fault = .malformedWindow "é,€" ∧ d.span = ⟨6, 14⟩ ∧
      String.Pos.Raw.IsValid source ⟨6⟩ ∧ String.Pos.Raw.IsValid source ⟨14⟩ ∧
      ∃ covered rest, slice? source.toList ⟨6, 14⟩ = some covered ∧
        slice? source.toList ⟨6, source.utf8ByteSize⟩ = some rest ∧
        (SyntaxFault.malformedWindow "é,€").Reports covered rest := by
  intro source
  have told : (parse 3 source).mapError (fun d => (d.fault, d.span)) =
      .error (.malformedWindow "é,€", ⟨6, 14⟩) := by decide +kernel
  obtain ⟨d, failed, same⟩ := exists_error_of_mapError told
  obtain ⟨fault, span⟩ := Prod.mk.inj same
  have valid := parse_error_span_valid failed
  rw [fault, span] at valid
  exact ⟨d, failed, fault, span, valid.2.2⟩

end Formula
end MissionTime
