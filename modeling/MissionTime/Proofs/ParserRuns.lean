import MissionTime.Proofs.Grammar
import MissionTime.Proofs.ParsedWindows

/-! Runs of the parsing machine along a derivation. The machine reads the tokens of a derivation and ends
with its formula, provided that the limit admits what it has open at once and the nesting of what it
builds; under any smaller limit it reports the nesting and nothing else. -/
namespace MissionTime.Formula
open Text

/-- From `need` on a run ends with `result`, which no limit is to blame for; under a smaller limit it fails
for its nesting. -/
structure Cutoff {α : Type} (need : Nat) (run : Nat → Except Located α) (result : Except Located α) :
    Prop where
  unlimited : ∀ located limit, result = .error located → located.fault ≠ .nestingTooDeep limit
  enough : ∀ limit, need ≤ limit → run limit = result
  short : ∀ limit, limit < need → ∃ span, run limit = .error ⟨.nestingTooDeep limit, span⟩

namespace Cutoff

variable {α β : Type} {m n : Nat} {run : Nat → Except Located α} {result : Except Located α}

theorem bind {a : α} {next : Nat → α → Except Located β} {result : Except Located β}
    (first : Cutoff m run (.ok a)) (second : Cutoff n (next · a) result) :
    Cutoff (max m n) (fun limit => run limit >>= next limit) result := by
  refine ⟨second.unlimited, fun limit reached => ?_, fun limit below => ?_⟩
  · rw [first.enough limit (by omega)]
    exact second.enough limit (by omega)
  · by_cases reached : m ≤ limit
    · rw [first.enough limit reached]
      exact second.short limit (by omega)
    · obtain ⟨span, failed⟩ := first.short limit (by omega)
      exact ⟨span, by rw [failed]; rfl⟩

theorem guarded (m : Nat) (span : Span) (rest : Cutoff n run result) :
    Cutoff (max m n)
      (fun limit => if limit < m then .error ⟨.nestingTooDeep limit, span⟩ else run limit) result := by
  refine ⟨rest.unlimited, fun limit reached => ?_, fun limit below => ?_⟩
  · rw [if_neg (by omega)]
    exact rest.enough limit (by omega)
  · by_cases early : limit < m
    · exact ⟨span, if_pos early⟩
    · rw [if_neg early]
      exact rest.short limit (by omega)

end Cutoff

structure Threshold {α : Type} (need : Nat) (run : Nat → Except Located α) (a : α) : Prop where
  enough : ∀ limit, need ≤ limit → run limit = .ok a
  short : ∀ limit, limit < need → ∃ span, run limit = .error ⟨.nestingTooDeep limit, span⟩

namespace Threshold

variable {α β : Type} {m n : Nat} {run : Nat → Except Located α} {a : α} {b : β}

theorem iff_cutoff : Threshold n run a ↔ Cutoff n run (.ok a) :=
  ⟨fun h => ⟨nofun, h.enough, h.short⟩, fun h => ⟨h.enough, h.short⟩⟩

theorem ok (a : α) : Threshold 0 (fun _ => .ok a) a :=
  ⟨fun _ _ => rfl, fun _ h => absurd h (Nat.not_lt_zero _)⟩

theorem congr {run' : Nat → Except Located α} (same : ∀ limit, run' limit = run limit)
    (h : Threshold m run a) : Threshold m run' a := by
  rwa [funext same]

theorem of_eq (h : Threshold m run a) (same : m = n) : Threshold n run a := same ▸ h

theorem bind (next : Nat → α → Except Located β) (first : Threshold m run a)
    (second : Threshold n (next · a) b) : Threshold (max m n) (fun limit => run limit >>= next limit) b :=
  iff_cutoff.2 ((iff_cutoff.1 first).bind (iff_cutoff.1 second))

theorem guarded (span : Span) (rest : Threshold n run a) :
    Threshold (max m n)
      (fun limit => if limit < m then .error ⟨.nestingTooDeep limit, span⟩ else run limit) a :=
  iff_cutoff.2 ((iff_cutoff.1 rest).guarded m span)

end Threshold

def Node.ofFormula (f : Formula) : Node := ⟨f, f.nesting⟩

theorem Node.wrap_ofFormula (op : Unary) (f : Formula) :
    (ofFormula f).wrap op = ofFormula (op.apply f) := by
  cases op <;> rfl

theorem Node.join_ofFormula (op : Binary) (f g : Formula) :
    (ofFormula f).join op (ofFormula g) = ofFormula (op.apply f g) := by
  cases op <;> rfl

theorem nesting_lt_unary (op : Unary) (f : Formula) : f.nesting < (op.apply f).nesting := by
  cases op <;> exact Nat.lt_succ_self _

theorem nesting_le_binary (op : Binary) (f g : Formula) :
    f.nesting ≤ (op.apply f g).nesting ∧ g.nesting < (op.apply f g).nesting := by
  cases op <;> simp only [Binary.apply, nesting] <;> (try split_ifs) <;> omega

/-- The nesting that the limit is compared with: an atom is never too deep. -/
def compoundNesting : Formula → Nat
  | .atom _ => 0
  | f => f.nesting

theorem compoundNesting_le (f : Formula) : f.compoundNesting ≤ f.nesting := by
  cases f <;> simp [compoundNesting]

theorem compoundNesting_unary (op : Unary) (f : Formula) :
    (op.apply f).compoundNesting = (op.apply f).nesting := by
  cases op <;> rfl

theorem compoundNesting_binary (op : Binary) (f g : Formula) :
    (op.apply f g).compoundNesting = (op.apply f g).nesting := by
  cases op <;> rfl

namespace Machine

inductive Settled : List Frame → Prop
  | nil : Settled []
  | paren {start stack} : Settled (.paren start :: stack)

variable {stack : List Frame} {pending need : Nat} {m : Machine} {f : Formula}

theorem threshold_reduce_settled (settled : Settled stack) (pending : Nat) (node : Node) (span : Span) :
    Threshold 0 (fun limit => reduce limit span stack pending node) ⟨stack, pending, .operator node⟩ := by
  refine (Threshold.ok _).congr fun limit => ?_
  cases settled <;> rw [reduce] <;> nofun

theorem threshold_reduce_unary {span : Span} {op : Unary}
    (rest : Threshold need (fun limit => reduce limit span stack pending (.ofFormula (op.apply f))) m) :
    Threshold (max (op.apply f).nesting need)
      (fun limit => reduce limit span (.unary op :: stack) (pending + 1) (.ofFormula f)) m := by
  simp only [reduce, Node.wrap_ofFormula, Nat.add_sub_cancel]
  exact rest.guarded span

theorem threshold_reduce_binary {span : Span} {op : Binary} {g : Formula}
    (rest : Threshold need (fun limit => reduce limit span stack pending (.ofFormula (op.apply f g))) m) :
    Threshold (max (op.apply f g).nesting need)
      (fun limit => reduce limit span (.binary (.ofFormula f) op :: stack) pending (.ofFormula g)) m := by
  simp only [reduce, Node.join_ofFormula]
  exact rest.guarded span

theorem threshold_enter (span : Span) (frame : Frame) (m : Machine) :
    Threshold (m.pending + 1) (fun limit => m.enter limit span frame)
      ⟨frame :: m.stack, m.pending + 1, .operand⟩ := by
  have guarded := (Threshold.ok (⟨frame :: m.stack, m.pending + 1, .operand⟩ : Machine)).guarded
    (m := m.pending + 1) span
  simpa only [enter, Nat.lt_succ_iff, Nat.max_zero] using guarded

theorem threshold_append {left right : List Token} {m₁ m₂ m₃ : Machine} {need₁ need₂ : Nat}
    (first : Threshold need₁ (consume left m₁) m₂) (second : Threshold need₂ (consume right m₂) m₃) :
    Threshold (max need₁ need₂) (consume (left ++ right) m₁) m₃ :=
  (first.bind (fun limit next => consume right next limit) second).congr fun _ => List.foldlM_append

theorem windowOf_spelled {letter : Char} {token : Token} {w : Interval} {text : List Char}
    (spelling : token.spelling = (.window, text)) (window : w.Spelled text) :
    windowOf letter token = .ok w := by
  obtain ⟨kind, rfl⟩ := Prod.mk.inj spelling
  obtain ⟨⟨low, high, shape, -, -⟩, -⟩ := id window
  exact (windowOf_eq_ok_iff shape).2 ⟨kind, window⟩

theorem threshold_modality (op : Modality) {tokens : List Token} {w : Interval} {text : List Char}
    (spelled : tokens.map Token.spelling = [(.word, [op.letter]), (.window, text)])
    (window : w.Spelled text) :
    Threshold (pending + 1) (consume tokens ⟨stack, pending, .operand⟩)
      ⟨.unary (op.withWindow w) :: stack, pending + 1, .operand⟩ := by
  obtain ⟨letter, rest, rfl, spelling, spelled⟩ := List.map_eq_cons_iff.1 spelled
  obtain ⟨token, rfl, behind⟩ := List.map_eq_singleton_iff.1 spelled
  obtain ⟨kind, text⟩ := Prod.mk.inj spelling
  have first (limit : Nat) : step limit ⟨stack, pending, .operand⟩ letter =
      .ok ⟨stack, pending, .unaryWindow op letter.headSpan⟩ := by
    cases op <;> simp [step, readOperand, kind, text, Modality.letter]
  refine (threshold_enter letter.headSpan (.unary (op.withWindow w))
    ⟨stack, pending, .unaryWindow op letter.headSpan⟩).congr fun limit => ?_
  rw [consume_cons (first limit), consume_one, step]
  simp only [windowOf_spelled behind window]
  rfl

theorem consume_linkage (op : Linkage) {tokens : List Token} {w : Interval} {text : List Char}
    (spelled : tokens.map Token.spelling = [(.word, [op.letter]), (.window, text)])
    (window : w.Spelled text) (left : Node) (limit : Nat) :
    consume tokens ⟨stack, pending, .operator left⟩ limit =
      .ok ⟨.binary left (op.withWindow w) :: stack, pending, .operand⟩ := by
  obtain ⟨letter, rest, rfl, spelling, spelled⟩ := List.map_eq_cons_iff.1 spelled
  obtain ⟨token, rfl, behind⟩ := List.map_eq_singleton_iff.1 spelled
  obtain ⟨kind, text⟩ := Prod.mk.inj spelling
  obtain ⟨head, tail⟩ := List.cons.inj text
  have first : step limit ⟨stack, pending, .operator left⟩ letter =
      .ok ⟨stack, pending, .binaryWindow left op⟩ := by
    cases op <;> simp [step, readOperator, readLinkage, kind, head, tail, Linkage.letter]
  rw [consume_cons first, consume_one, step]
  simp only [windowOf_spelled behind window]
  rfl

theorem threshold_unary {op : Unary} {os : List Lexeme} {tokens : List Token} (operator : op.Spelled os)
    (spelled : tokens.map Token.spelling = os) :
    Threshold (pending + 1) (consume tokens ⟨stack, pending, .operand⟩)
      ⟨.unary op :: stack, pending + 1, .operand⟩ := by
  cases operator with
  | not =>
    obtain ⟨token, rfl, spelling⟩ := List.map_eq_singleton_iff.1 spelled
    obtain ⟨kind, text⟩ := Prod.mk.inj spelling
    refine (threshold_enter token.headSpan (.unary .not) ⟨stack, pending, .operand⟩).congr fun limit => ?_
    simp only [consume_one, step, readOperand, kind]
  | eventually window => exact threshold_modality .eventually spelled window
  | always window => exact threshold_modality .always spelled window

theorem consume_binary {op : Binary} {os : List Lexeme} {tokens : List Token} (operator : op.Spelled os)
    (spelled : tokens.map Token.spelling = os) (left : Node) (limit : Nat) :
    consume tokens ⟨stack, pending, .operator left⟩ limit =
      .ok ⟨.binary left op :: stack, pending, .operand⟩ := by
  cases operator with
  | and =>
    obtain ⟨token, rfl, spelling⟩ := List.map_eq_singleton_iff.1 spelled
    simp only [consume_one, step, readOperator, (Prod.mk.inj spelling).1, await]
  | or =>
    obtain ⟨token, rfl, spelling⟩ := List.map_eq_singleton_iff.1 spelled
    simp only [consume_one, step, readOperator, (Prod.mk.inj spelling).1, await]
  | «until» window => exact consume_linkage .until spelled window left limit
  | release window => exact consume_linkage .release spelled window left limit

theorem consume_atom {name : List Char} {token : Token} (named : AtomName name)
    (spelling : token.spelling = (.word, name)) (limit : Nat) :
    consume [token] ⟨stack, pending, .operand⟩ limit =
      reduce limit token.headSpan stack pending (.ofFormula (.atom (String.ofList name))) := by
  obtain ⟨kind, rfl⟩ := Prod.mk.inj spelling
  simp only [consume_one, step, readOperand, kind]
  split
  · exact absurd ‹_› named.2.1
  · exact absurd ‹_› named.2.2
  · rfl

theorem threshold_derivation {category : Category} {ts : List Lexeme} (d : Derivation category ts f)
    {tokens : List Token} (spelled : tokens.map Token.spelling = ts)
    (settled : category = .expr → Settled stack)
    (rest : ∀ span, Threshold need (fun limit => reduce limit span stack pending (.ofFormula f)) m) :
    Threshold (max (max (d.peak pending) f.compoundNesting) need)
      (consume tokens ⟨stack, pending, .operand⟩) m := by
  -- What the machine does behind the last token is left to the stack: `rest` applies what waits there.
  induction d generalizing tokens stack pending need m with
  | operand d ih => exact ih spelled nofun rest
  | @binary _ _ _ op f g left operator right ihl ihr =>
    obtain ⟨ls, rs, rfl, spelledLeft, spelled⟩ := List.map_eq_append_iff.1 spelled
    obtain ⟨os, rs, rfl, spelledOperator, spelledRight⟩ := List.map_eq_append_iff.1 spelled
    have runLeft := ihl spelledLeft settled (threshold_reduce_settled (settled rfl) pending (.ofFormula f))
    have runOperator : Threshold 0 (consume os ⟨stack, pending, .operator (.ofFormula f)⟩)
        ⟨.binary (.ofFormula f) op :: stack, pending, .operand⟩ :=
      (Threshold.ok _).congr (consume_binary operator spelledOperator _)
    have runRight := ihr spelledRight nofun fun span => threshold_reduce_binary (rest span)
    have run := threshold_append runLeft (threshold_append runOperator runRight)
    have deeper := nesting_le_binary op f g
    have := f.compoundNesting_le
    have := g.compoundNesting_le
    refine run.of_eq (eq_of_forall_ge_iff fun limit => ?_)
    simp only [compoundNesting_binary, Derivation.peak, Nat.max_le]
    omega
  | @unary _ _ op f operator d ih =>
    obtain ⟨os, ts, rfl, spelledOperator, spelledOperand⟩ := List.map_eq_append_iff.1 spelled
    have runOperand := ih spelledOperand nofun fun span => threshold_reduce_unary (rest span)
    have run := threshold_append (threshold_unary operator spelledOperator) runOperand
    have deeper := nesting_lt_unary op f
    have := f.compoundNesting_le
    refine run.of_eq (eq_of_forall_ge_iff fun limit => ?_)
    simp only [compoundNesting_unary, Derivation.peak, Nat.max_le]
    omega
  | @paren _ f d ih =>
    obtain ⟨opening, ts, rfl, spelling, spelled⟩ := List.map_eq_cons_iff.1 spelled
    obtain ⟨inner, closing, rfl, spelledInner, spelled⟩ := List.map_eq_append_iff.1 spelled
    obtain ⟨closing, rfl, spelling'⟩ := List.map_eq_singleton_iff.1 spelled
    have runOpening : Threshold (pending + 1) (consume [opening] ⟨stack, pending, .operand⟩)
        ⟨.paren opening.start :: stack, pending + 1, .operand⟩ := by
      refine (threshold_enter opening.headSpan (.paren opening.start) ⟨stack, pending, .operand⟩).congr
        fun limit => ?_
      simp only [consume_one, step, readOperand, (Prod.mk.inj spelling).1]
    have inside : Settled (.paren opening.start :: stack) := .paren
    have runInner := ih spelledInner (fun _ => inside)
      (threshold_reduce_settled inside (pending + 1) (.ofFormula f))
    have runClosing : Threshold need
        (consume [closing] ⟨.paren opening.start :: stack, pending + 1, .operator (.ofFormula f)⟩) m := by
      refine (rest closing.headSpan).congr fun limit => ?_
      simp only [consume_one, step, readOperator, (Prod.mk.inj spelling').1, Nat.add_sub_cancel]
    have run := threshold_append runOpening (threshold_append runInner runClosing)
    refine run.of_eq (eq_of_forall_ge_iff fun limit => ?_)
    simp only [Derivation.peak, Nat.max_le]
    omega
  | atom named =>
    obtain ⟨token, rfl, spelling⟩ := List.map_eq_singleton_iff.1 spelled
    have run := (rest token.headSpan).congr fun limit => consume_atom named spelling limit
    simpa only [Derivation.peak, compoundNesting, Nat.zero_max] using run

end Machine

def Derivation.need {ts : List Lexeme} {f : Formula} (d : Derivation .expr ts f) : Nat :=
  max (d.peak 0) f.compoundNesting

theorem threshold_readTokens {ts : List Lexeme} {f : Formula} (d : Derivation .expr ts f)
    {tokens : List Token} (spelled : tokens.map Token.spelling = ts) (stop : Nat) :
    Threshold d.need (fun limit => readTokens limit stop tokens) f := by
  have run := Machine.threshold_derivation d spelled (fun _ => .nil)
    (Machine.threshold_reduce_settled .nil 0 (.ofFormula f))
  have finish := run.bind (fun _ m => m.finish stop) (Threshold.ok f)
  simp only [Nat.max_zero] at finish
  exact finish

theorem parse_of_need_le {source : String} {f : Formula}
    (d : Derivation .expr (Token.spellings source.toList) f) {limit : Nat} (h : d.need ≤ limit) :
    parse limit source = .ok f := by
  rw [parse, (threshold_readTokens d rfl _).enough limit h]

theorem parse_of_lt_need {source : String} {f : Formula}
    (d : Derivation .expr (Token.spellings source.toList) f) {limit : Nat} (h : limit < d.need) :
    ∃ span, parse limit source = .error { fault := .nestingTooDeep limit, span, source } := by
  obtain ⟨span, failed⟩ := (threshold_readTokens d rfl (byteLength source.toList)).short limit h
  exact ⟨span, by rw [parse, failed]⟩

theorem need_le_of_parse {source : String} {f g : Formula}
    (d : Derivation .expr (Token.spellings source.toList) f) {limit : Nat}
    (run : parse limit source = .ok g) : d.need ≤ limit := by
  by_contra short
  obtain ⟨span, failed⟩ := parse_of_lt_need d (Nat.lt_of_not_le short)
  rw [failed] at run
  cases run

end MissionTime.Formula
