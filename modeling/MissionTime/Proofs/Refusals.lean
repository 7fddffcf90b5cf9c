import MissionTime.Proofs.ParserRuns
import MissionTime.Proofs.Runs

/-! How a text is refused. A run of the machine fails at the first token that it refuses, or at the end of the
text; what it complains about is told by what it expects there. -/
namespace MissionTime.Formula
open Text Token Runs

variable {limit : Nat} {token : Token}

namespace Machine

variable {m : Machine} {located : Located}

inductive Refused (limit : Nat) (token : Token) : Phase → Located → Prop
  | operand : Refused limit token .operand ⟨.unexpectedChar token.head, token.headSpan⟩
  | operator {left} : Refused limit token (.operator left) (trailing token)
  | linkage {left} {op : Linkage} {c cs} (word : token.kind = .word) (letter : token.head = op.letter)
    (longer : token.tail = c :: cs) :
    Refused limit token (.operator left)
      ⟨.missingWindow op.letter, .ofChar (token.start + token.head.utf8Size) c⟩
  | unaryWindow {op place located} (refused : windowOf op.letter token = .error located) :
    Refused limit token (.unaryWindow op place) located
  | binaryWindow {left op located} (refused : windowOf op.letter token = .error located) :
    Refused limit token (.binaryWindow left op) located
  | tooDeep {phase} : Refused limit token phase ⟨.nestingTooDeep limit, token.headSpan⟩
  | tooDeepBefore {op place} : Refused limit token (.unaryWindow op place) ⟨.nestingTooDeep limit, place⟩

theorem enter_error {span : Span} {frame : Frame} (failed : m.enter limit span frame = .error located) :
    located = ⟨.nestingTooDeep limit, span⟩ := by
  unfold enter at failed
  split_ifs at failed
  cases failed
  rfl

theorem reduce_error {span : Span} {stack : List Frame} {pending : Nat} {node : Node}
    (failed : reduce limit span stack pending node = .error located) :
    located = ⟨.nestingTooDeep limit, span⟩ := by
  fun_induction reduce limit span stack pending node with
  | case1 | case3 =>
    cases failed
    rfl
  | case2 pending node op stack _ ih => exact ih failed
  | case4 pending node left op stack _ ih => exact ih failed
  | case5 => cases failed

theorem refused_readOperand (failed : m.readOperand limit token = .error located) :
    Refused limit token .operand located := by
  unfold readOperand at failed
  split at failed
  · rw [enter_error failed]
    exact .tooDeep
  · rw [enter_error failed]
    exact .tooDeep
  · split at failed
    · cases failed
    · cases failed
    · rw [reduce_error failed]
      exact .tooDeep
  · cases failed
    exact .operand

theorem refused_readLinkage {left : Node} {op : Linkage} (word : token.kind = .word)
    (letter : token.head = op.letter) (failed : m.readLinkage left op token = .error located) :
    Refused limit token (.operator left) located := by
  unfold readLinkage at failed
  split at failed
  · cases failed
  · cases failed
    exact .linkage word letter ‹_›

theorem refused_readOperator {left : Node} (failed : m.readOperator limit left token = .error located) :
    Refused limit token (.operator left) located := by
  unfold readOperator at failed
  split at failed
  · cases failed
  · cases failed
  · split at failed
    · rw [reduce_error failed]
      exact .tooDeep
    · cases failed
      exact .operator
  · rename_i word
    split at failed
    · exact refused_readLinkage word ‹_› failed
    · exact refused_readLinkage word ‹_› failed
    · cases failed
      exact .operator
  · cases failed
    exact .operator

theorem refused_step (failed : m.step limit token = .error located) :
    Refused limit token m.phase located := by
  unfold step at failed
  split at failed
  · rename_i phase
    rw [phase]
    exact refused_readOperand failed
  · rename_i left phase
    rw [phase]
    exact refused_readOperator failed
  · rename_i op place phase
    rw [phase]
    rcases of_bind_eq_error failed with refused | ⟨w, -, failed⟩
    · exact .unaryWindow refused
    · rw [enter_error failed]
      exact .tooDeepBefore
  · rename_i left op phase
    rw [phase]
    rcases of_bind_eq_error failed with refused | ⟨w, -, failed⟩
    · exact .binaryWindow refused
    · cases failed

inductive Unfinished (stop : Nat) (m : Machine) : Located → Prop
  | operand : Unfinished stop m ⟨.unexpectedEnd, .point stop⟩
  | window {letter : Char} : Unfinished stop m ⟨.missingWindow letter, .point stop⟩
  | inside {start : Nat} (mem : .paren start ∈ m.stack) :
    Unfinished stop m ⟨.unclosedParen, .ofChar start '('⟩

theorem unfinished_finish {stop : Nat} (failed : m.finish stop = .error located) :
    Unfinished stop m located := by
  unfold finish at failed
  split at failed
  · cases failed
    exact .operand
  · cases failed
    exact .window
  · cases failed
    exact .window
  · split at failed
    · rename_i start stack same
      cases failed
      exact .inside (by simp [same])
    · cases failed

theorem exists_of_consume_error {tokens : List Token} (failed : consume tokens m limit = .error located) :
    ∃ front token behind next, tokens = front ++ token :: behind ∧ consume front m limit = .ok next ∧
      next.step limit token = .error located := by
  induction tokens generalizing m with
  | nil => cases failed
  | cons token tokens ih =>
    rw [consume, List.foldlM_cons] at failed
    rcases of_bind_eq_error failed with refused | ⟨next, first, failed⟩
    · exact ⟨[], token, tokens, m, rfl, rfl, refused⟩
    · obtain ⟨front, token', behind, next', rfl, run, refused⟩ := ih failed
      exact ⟨token :: front, token', behind, next', rfl, by rw [consume_cons first, run], refused⟩

end Machine

/-- A text is refused at one of its tokens or at its end. -/
theorem refusal_of_parse {source : String} {d : Diagnostic} (failed : parse limit source = .error d) :
    (∃ front token behind m, scan 0 source.toList = front ++ token :: behind ∧
      Machine.consume front {} limit = .ok m ∧ Machine.Refused limit token m.phase d.toLocated) ∨
    ∃ m, Machine.consume (scan 0 source.toList) {} limit = .ok m ∧
      Machine.Unfinished (byteLength source.toList) m d.toLocated := by
  have refused : readTokens limit (byteLength source.toList) (scan 0 source.toList) = .error d.toLocated := by
    unfold parse at failed
    split at failed
    · cases failed
    · cases failed
      assumption
  rcases of_bind_eq_error refused with failed | ⟨m, run, last⟩
  · obtain ⟨front, token, behind, m, scanned, run, refused⟩ := Machine.exists_of_consume_error failed
    exact .inl ⟨front, token, behind, m, scanned, run, Machine.refused_step refused⟩
  · exact .inr ⟨m, run, Machine.unfinished_finish last⟩

end MissionTime.Formula
