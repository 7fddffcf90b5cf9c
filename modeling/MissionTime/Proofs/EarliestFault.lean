import MissionTime.Proofs.FaultPlaces

/-! Faults are reported at the earliest place. Whatever the machine has read so far can be completed to an
expression: an operand is put where one is expected, a window where one is missing, and then the open
parentheses are closed. Since an expression is found again however it is laid out, the text in front of a
fault is the beginning of a text that is accepted. -/
namespace MissionTime.Formula
open Text Token

/-- A text that some text which is accepted begins with, under arbitrarily high limits. -/
def Viable (before : List Char) : Prop :=
  ∃ behind f, ∃ need, ∀ limit, need ≤ limit → parse limit (String.ofList (before ++ behind)) = .ok f

def closers : List Frame → List Lexeme
  | [] => []
  | .paren _ :: stack => (.rightParen, [')']) :: closers stack
  | _ :: stack => closers stack

def spareAtom : Lexeme := (.word, ['a'])

def spareWindow : Interval := ⟨0, 0⟩

theorem spelled_spareWindow : spareWindow.Spelled spareWindow.print :=
  Interval.spelled_print ⟨le_rfl, Nat.zero_le _⟩

theorem derivation_spareAtom : Nonempty (Derivation .unary [spareAtom] (.atom (String.ofList ['a']))) :=
  ⟨.atom (by decide)⟩

theorem Modality.spelled_withWindow (op : Modality) {w : Interval} {text : List Char}
    (window : w.Spelled text) :
    (op.withWindow w).Spelled [(.word, [op.letter]), (.window, text)] := by
  cases op with
  | eventually => exact .eventually window
  | always => exact .always window

theorem Linkage.spelled_withWindow (op : Linkage) {w : Interval} {text : List Char} (window : w.Spelled text) :
    (op.withWindow w).Spelled [(.word, [op.letter]), (.window, text)] := by
  cases op with
  | «until» => exact .until window
  | release => exact .release window

namespace Machine

variable {stack : List Frame} {m : Machine} {ts us : List Lexeme} {f : Formula}

theorem Stacked.completes (stacked : Stacked stack us) :
    (∀ vs f, Nonempty (Derivation .unary vs f) → ∃ g, Derives (us ++ (vs ++ closers stack)) g) ∧
    (Settled stack → ∀ vs f, Derives vs f → ∃ g, Derives (us ++ (vs ++ closers stack)) g) := by
  induction stacked with
  | nil =>
    constructor
    · intro vs f operand
      exact ⟨f, by simpa [closers] using Derives.operand operand⟩
    · intro _ vs f expr
      exact ⟨f, by simpa [closers] using expr⟩
  | @paren stack ts start below ih =>
    -- Once it is closed, the parenthesis is an operand of what stands below.
    have enclosed (vs : List Lexeme) (f : Formula) (expr : Derives vs f) :
        ∃ g, Derives (ts ++ [(.leftParen, ['('])] ++ (vs ++ closers (.paren start :: stack))) g := by
      obtain ⟨d⟩ := expr
      obtain ⟨g, whole⟩ := ih.1 _ f ⟨.paren d⟩
      exact ⟨g, by simpa [closers] using whole⟩
    exact ⟨fun vs f operand => enclosed vs f (.operand operand), fun _ => enclosed⟩
  | @unary stack ts os op below operator ih =>
    refine ⟨fun vs f ⟨d⟩ => ?_, nofun⟩
    obtain ⟨g, whole⟩ := ih.1 _ _ ⟨.unary operator d⟩
    exact ⟨g, by simpa [closers] using whole⟩
  | @binary stack ts ls os left op below settled operand operator ih =>
    refine ⟨fun vs f ⟨right⟩ => ?_, nofun⟩
    obtain ⟨l⟩ := operand
    obtain ⟨g, whole⟩ := ih.2 settled _ _ ⟨.binary l operator right⟩
    exact ⟨g, by simpa [closers] using whole⟩

/-- Whatever a machine has read is the beginning of an expression. -/
theorem Reads.completes (reads : m.Reads ts) : ∃ vs f, Derives (ts ++ vs) f := by
  obtain ⟨atom⟩ := derivation_spareAtom
  unfold Reads at reads
  split at reads
  · obtain ⟨f, whole⟩ := reads.completes.1 _ _ ⟨atom⟩
    exact ⟨_, f, whole⟩
  · obtain ⟨settled, us, vs, rfl, stacked, expr⟩ := reads
    obtain ⟨f, whole⟩ := stacked.completes.2 settled vs _ expr
    exact ⟨_, f, by simpa using whole⟩
  · rename_i op _ _
    obtain ⟨us, rfl, stacked⟩ := reads
    obtain ⟨f, whole⟩ := stacked.completes.1 _ _ ⟨.unary (op.spelled_withWindow spelled_spareWindow) atom⟩
    exact ⟨[(.window, spareWindow.print), spareAtom] ++ closers m.stack, f, by simpa using whole⟩
  · rename_i left op _
    obtain ⟨_, rfl, settled, us, vs, rfl, stacked, ⟨l⟩⟩ := reads
    obtain ⟨f, whole⟩ := stacked.completes.2 settled _ _
      ⟨.binary l (op.spelled_withWindow spelled_spareWindow) atom⟩
    exact ⟨[(.window, spareWindow.print), spareAtom] ++ closers m.stack, f, by simpa using whole⟩

theorem Reads.viable (reads : m.Reads ts) {before : List Char} (laid : Laid ts before) : Viable before := by
  obtain ⟨vs, f, ⟨d⟩⟩ := reads.completes
  exact ⟨_, f, d.need, fun limit enough => parse_of_laid d (laid.append (Laid.join vs)) enough⟩

end Machine

variable {limit : Nat} {source before : List Char} {token : Token} {m : Machine} {located : Located}

theorem reads_of_consume {front behind : List Token} (scanned : scan 0 source = front ++ behind)
    (run : Machine.consume front {} limit = .ok m) : m.Reads (front.map spelling) := by
  have shaped : ∀ token ∈ front, token.spelling.Shaped := fun token mem =>
    shaped_of_mem_scan (scanned ▸ List.mem_append_left behind mem)
  exact Machine.reads_of_consume shaped run

def ViableUpTo (source : List Char) (offset : Nat) : Prop :=
  ∃ before behind, source = before ++ behind ∧ byteLength before = offset ∧ Viable before

theorem start_of_windowOf {letter : Char} (refused : windowOf letter token = .error located) :
    located.span.start = token.start := by
  unfold windowOf at refused
  split_ifs at refused
  · cases refused
    rfl
  · cases refused
    rfl
  · split at refused
    · cases refused
      rfl
    · split_ifs at refused
      cases refused
      rfl

theorem viable_linkage {left : Node} {op : Linkage} {ts : List Lexeme} (reads : m.Reads ts)
    (phase : m.phase = .operator left) (laid : Laid ts before) : Viable (before ++ [op.letter]) := by
  unfold Machine.Reads at reads
  rw [phase] at reads
  have awaits : Machine.Reads { m with phase := .binaryWindow left op } (ts ++ [(.word, [op.letter])]) :=
    ⟨ts, rfl, reads⟩
  exact awaits.viable (laid.append (Laid.join [(.word, [op.letter])]))

theorem viable_of_refused {ts : List Lexeme} (reads : m.Reads ts) (laid : Laid ts before)
    (stands : token.Stands source before) (refused : Machine.Refused limit token m.phase located)
    (other : ∀ n, located.fault ≠ .nestingTooDeep n) : ViableUpTo source located.span.start := by
  have atToken : ViableUpTo source token.start :=
    ⟨before, token.rest, stands.split, stands.start.symm, reads.viable laid⟩
  generalize expected : m.phase = phase at refused
  cases refused with
  | operand => exact atToken
  | operator => exact atToken
  | linkage word letter longer =>
    -- The fault stands inside of the token: its letter alone would have been an operator.
    refine ⟨before ++ [token.head], token.tail ++ token.after, ?_, ?_, ?_⟩
    · rw [stands.split, rest, Token.text, List.append_assoc]
      rfl
    · simp [Span.ofChar, stands.start]
    · rw [letter]
      exact viable_linkage reads expected laid
  | unaryWindow refused =>
    rw [start_of_windowOf refused]
    exact atToken
  | binaryWindow refused =>
    rw [start_of_windowOf refused]
    exact atToken
  | tooDeep => exact absurd rfl (other limit)
  | tooDeepBefore => exact absurd rfl (other limit)

theorem viable_of_unfinished {ts : List Lexeme} (reads : m.Reads ts) (laid : Laid ts source)
    (anchored : m.Anchored source Viable) (unfinished : Machine.Unfinished (byteLength source) m located) :
    ViableUpTo source located.span.start := by
  have atEnd : ViableUpTo source (byteLength source) := ⟨source, [], by simp, rfl, reads.viable laid⟩
  cases unfinished with
  | operand => exact atEnd
  | window => exact atEnd
  | inside mem =>
    obtain ⟨before, behind, split, rfl, viable⟩ := anchored.parens _ mem
    exact ⟨before, _, split, rfl, viable⟩

/-- Apart from the nesting, a fault is reported at the earliest place: what stands in front of it is the
beginning of a text that is accepted, under the same limit or a higher one. -/
theorem parse_error_earliest {limit : Nat} {source : String} {d : Diagnostic}
    (failed : parse limit source = .error d) (other : ∀ n, d.fault ≠ .nestingTooDeep n) :
    ∃ before behind : String, source = before ++ behind ∧ before.utf8ByteSize = d.span.start ∧
      ∃ (rest : String) (limit' : Nat) (f : Formula),
        limit ≤ limit' ∧ parse limit' (before ++ rest) = .ok f := by
  have viable : ViableUpTo source.toList d.span.start := by
    rcases refusal_of_parse failed with ⟨front, token, behind, m, scanned, run, refused⟩ |
      ⟨m, run, unfinished⟩
    · obtain ⟨before, stands, laid⟩ := exists_stands scanned
      exact viable_of_refused (reads_of_consume scanned run) laid stands refused other
    · have whole := (List.append_nil (scan 0 source.toList)).symm
      have anchored := Machine.anchored_of_consume (fun _ _ _ _ _ scanned run _ laid =>
        (reads_of_consume scanned run).viable laid) whole run
      exact viable_of_unfinished (reads_of_consume whole run) (laid_spellings source.toList) anchored unfinished
  obtain ⟨before, behind, split, start, rest, f, need, accepted⟩ := viable
  refine ⟨.ofList before, .ofList behind, ?_, ?_, .ofList rest, max limit need, f, le_max_left .., ?_⟩
  · rw [← String.ofList_append, ← split, String.ofList_toList]
  · rw [utf8ByteSize_ofList, start]
  · rw [← String.ofList_append]
    exact accepted _ (le_max_right ..)

theorem parse_error_earliest_linkage :
    let source := "(a U[0,2] b Rc"
    ∃ d, parse 2 source = .error d ∧ d.fault = .missingWindow 'R' ∧
      ∃ before behind : String, source = before ++ behind ∧ before.utf8ByteSize = 13 ∧
        ∃ (rest : String) (limit : Nat) (f : Formula), 2 ≤ limit ∧ parse limit (before ++ rest) = .ok f := by
  intro source
  have told : (parse 2 source).mapError (fun d => (d.fault, d.span)) =
      .error (.missingWindow 'R', ⟨13, 14⟩) := by decide +kernel
  obtain ⟨d, failed, same⟩ := Runs.exists_error_of_mapError told
  obtain ⟨fault, span⟩ := Prod.mk.inj same
  have earliest := parse_error_earliest failed (by simp [fault])
  rw [span] at earliest
  exact ⟨d, failed, fault, earliest⟩

end MissionTime.Formula
