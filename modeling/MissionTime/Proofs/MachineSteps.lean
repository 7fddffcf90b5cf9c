import MissionTime.Formula.Parser
import MissionTime.Proofs.Runs
import Mathlib.Data.List.Induction

/-! What a successful step of the parsing machine can do. An invariant of its runs is proved by cases on
`Moves` and does not open the step itself. -/
namespace MissionTime.Formula
open Text Runs

namespace Machine

/-- The machine takes a token: what it does is decided by the kind of the token and by what is expected. -/
inductive Moves (limit : Nat) (token : Token) : Machine → Machine → Prop
  | negation {stack pending} (kind : token.kind = .bang) (room : pending < limit) :
    Moves limit token ⟨stack, pending, .operand⟩ ⟨.unary .not :: stack, pending + 1, .operand⟩
  | opening {stack pending} (kind : token.kind = .leftParen) (room : pending < limit) :
    Moves limit token ⟨stack, pending, .operand⟩ ⟨.paren token.start :: stack, pending + 1, .operand⟩
  | modality {stack pending} (op : Modality) (kind : token.kind = .word) (text : token.text = [op.letter]) :
    Moves limit token ⟨stack, pending, .operand⟩ ⟨stack, pending, .unaryWindow op token.headSpan⟩
  | name {stack pending m'} (kind : token.kind = .word) (notF : token.text ≠ ['F'])
    (notG : token.text ≠ ['G'])
    (run : reduce limit token.headSpan stack pending (.atom (String.ofList token.text)) = .ok m') :
    Moves limit token ⟨stack, pending, .operand⟩ m'
  | and {stack pending left} (kind : token.kind = .amp) :
    Moves limit token ⟨stack, pending, .operator left⟩ ⟨.binary left .and :: stack, pending, .operand⟩
  | or {stack pending left} (kind : token.kind = .bar) :
    Moves limit token ⟨stack, pending, .operator left⟩ ⟨.binary left .or :: stack, pending, .operand⟩
  | linkage {stack pending left} (op : Linkage) (kind : token.kind = .word)
    (text : token.text = [op.letter]) :
    Moves limit token ⟨stack, pending, .operator left⟩ ⟨stack, pending, .binaryWindow left op⟩
  | closing {start stack pending left m'} (kind : token.kind = .rightParen)
    (run : reduce limit token.headSpan stack (pending - 1) left = .ok m') :
    Moves limit token ⟨.paren start :: stack, pending, .operator left⟩ m'
  | unaryWindow {stack pending op place w} (window : windowOf op.letter token = .ok w)
    (room : pending < limit) :
    Moves limit token ⟨stack, pending, .unaryWindow op place⟩
      ⟨.unary (op.withWindow w) :: stack, pending + 1, .operand⟩
  | binaryWindow {stack pending left op w} (window : windowOf op.letter token = .ok w) :
    Moves limit token ⟨stack, pending, .binaryWindow left op⟩
      ⟨.binary left (op.withWindow w) :: stack, pending, .operand⟩

variable {limit : Nat} {token : Token} {m m' : Machine}

theorem enter_eq_ok {span : Span} {frame : Frame} (run : m.enter limit span frame = .ok m') :
    m.pending < limit ∧ m' = ⟨frame :: m.stack, m.pending + 1, .operand⟩ := by
  unfold enter at run
  split_ifs at run with full
  cases run
  exact ⟨Nat.lt_of_not_le full, rfl⟩

theorem moves_of_readOperand {stack : List Frame} {pending : Nat}
    (run : readOperand limit ⟨stack, pending, .operand⟩ token = .ok m') :
    Moves limit token ⟨stack, pending, .operand⟩ m' := by
  unfold readOperand at run
  split at run
  · obtain ⟨room, rfl⟩ := enter_eq_ok run
    exact .negation ‹_› room
  · obtain ⟨room, rfl⟩ := enter_eq_ok run
    exact .opening ‹_› room
  · rename_i kind
    split at run
    · cases run
      exact .modality .eventually kind ‹_›
    · cases run
      exact .modality .always kind ‹_›
    · exact .name kind ‹_› ‹_› run
  · cases run

theorem moves_of_readOperator {stack : List Frame} {pending : Nat} {left : Node}
    (run : readOperator limit ⟨stack, pending, .operator left⟩ left token = .ok m') :
    Moves limit token ⟨stack, pending, .operator left⟩ m' := by
  have linkage {op : Linkage} (kind : token.kind = .word) (head : token.head = op.letter)
      (run : readLinkage ⟨stack, pending, .operator left⟩ left op token = .ok m') :
      Moves limit token ⟨stack, pending, .operator left⟩ m' := by
    unfold readLinkage at run
    split at run
    · rename_i tail
      cases run
      exact .linkage op kind (by rw [Token.text, head, tail])
    · cases run
  unfold readOperator at run
  split at run
  · cases run
    exact .and ‹_›
  · cases run
    exact .or ‹_›
  · split at run
    · rename_i kind _ start stack same
      cases same
      exact .closing kind run
    · cases run
  · rename_i kind
    split at run
    · exact linkage kind ‹_› run
    · exact linkage kind ‹_› run
    · cases run
  · cases run

theorem moves_of_step (run : m.step limit token = .ok m') : Moves limit token m m' := by
  obtain ⟨stack, pending, phase⟩ := m
  cases phase with
  | operand => exact moves_of_readOperand run
  | operator left => exact moves_of_readOperator run
  | unaryWindow op place =>
    obtain ⟨w, window, run⟩ := exists_of_bind_eq_ok run
    obtain ⟨room, rfl⟩ := enter_eq_ok run
    exact .unaryWindow window room
  | binaryWindow left op =>
    obtain ⟨w, window, run⟩ := exists_of_bind_eq_ok run
    cases run
    exact .binaryWindow window

def consume (tokens : List Token) (m : Machine) (limit : Nat) : Except Located Machine :=
  tokens.foldlM (step limit) m

theorem consume_one (token : Token) (m : Machine) (limit : Nat) :
    consume [token] m limit = m.step limit token := by
  rw [consume, List.foldlM_cons]
  exact bind_pure _

theorem consume_cons (first : m.step limit token = .ok m') (tokens : List Token) :
    consume (token :: tokens) m limit = consume tokens m' limit := by
  rw [consume, List.foldlM_cons, first]
  rfl

theorem consume_append {front : List Token} (first : consume front m limit = .ok m') (tokens : List Token) :
    consume (front ++ tokens) m limit = consume tokens m' limit := by
  rw [consume, List.foldlM_append, ← consume, first]
  rfl

theorem exists_of_consume_concat {tokens : List Token} (run : consume (tokens ++ [token]) m limit = .ok m') :
    ∃ next, consume tokens m limit = .ok next ∧ next.step limit token = .ok m' := by
  rw [consume, List.foldlM_append] at run
  obtain ⟨next, first, last⟩ := exists_of_bind_eq_ok run
  exact ⟨next, first, (consume_one token next limit).symm.trans last⟩

/-- What a run keeps is what every step keeps. The invariant knows the tokens that have been taken. -/
theorem consume_keeps {P : List Token → Machine → Prop} {tokens : List Token} (start : P [] m)
    (step : ∀ ⦃taken token m m'⦄, token ∈ tokens → Moves limit token m m' → P taken m →
      P (taken ++ [token]) m')
    (run : consume tokens m limit = .ok m') : P tokens m' := by
  -- On the last token: what the invariant knows grows at the end.
  induction tokens using List.reverseRecOn generalizing m' with
  | nil =>
    cases run
    exact start
  | append_singleton tokens token ih =>
    obtain ⟨next, first, last⟩ := exists_of_consume_concat run
    have front := ih (fun _ _ _ _ mem => step (List.mem_append_left _ mem)) first
    exact step (by simp) (moves_of_step last) front

end Machine

theorem exists_run_of_parse {limit : Nat} {source : String} {f : Formula} (run : parse limit source = .ok f) :
    ∃ m, Machine.consume (Token.scan 0 source.toList) {} limit = .ok m ∧
      m.finish (byteLength source.toList) = .ok f := by
  unfold parse at run
  split at run
  · rename_i read
    cases run
    exact exists_of_bind_eq_ok read
  · cases run

end MissionTime.Formula
