import MissionTime.Formula.Operator
import MissionTime.Token
import MissionTime.Diagnostic

/-! Reading formulas. A machine with one stack of open parentheses and operators consumes the tokens
one at a time. Its nesting limit bounds the open parentheses and unary operators while it reads, and
the nesting of every compound that it builds; a chain of one connective adds one level and no more. -/
namespace MissionTime.Formula
open Text

structure Node where
  formula : Formula
  nesting : Nat

namespace Node

def atom (name : String) : Node := ⟨.atom name, 1⟩

def wrap (op : Unary) (node : Node) : Node := ⟨op.apply node.formula, node.nesting + 1⟩

def join (left : Node) (op : Binary) (right : Node) : Node where
  formula := op.apply left.formula right.formula
  nesting :=
    if op.continues left.formula then max left.nesting (right.nesting + 1)
    else max left.nesting right.nesting + 1

end Node

inductive Frame
  | paren (start : Nat)
  | unary (op : Unary)
  | binary (left : Node) (op : Binary)

/-- What the machine expects next: an operand, an operator behind a finished operand, or the window
of a temporal operator that it has just read. -/
inductive Phase
  | operand
  | operator (left : Node)
  | unaryWindow (op : Modality) (place : Span)
  | binaryWindow (left : Node) (op : Linkage)

structure Machine where
  stack : List Frame := []
  pending : Nat := 0
  phase : Phase := .operand

def windowOf (operator : Char) (token : Token) : Except Located Interval :=
  if token.kind ≠ .window then .error ⟨.missingWindow operator, token.headSpan⟩
  else if token.tail.getLast? ≠ some ']' then .error ⟨.unterminatedWindow, token.span⟩
  else
    match Interval.ofBody? token.tail.dropLast with
    | none => .error ⟨.malformedWindow (String.ofList token.tail.dropLast), token.span⟩
    | some window =>
      if window.WellFormed then .ok window
      else .error ⟨.invertedWindow window.low window.high, token.span⟩

def trailing (token : Token) : Located where
  fault := .trailingInput (String.ofList (trimEnd token.rest))
  span := ⟨token.start, token.stop + byteLength token.after⟩

namespace Machine

/-- Puts a parenthesis or a unary operator on the stack, within the limit. -/
def enter (limit : Nat) (span : Span) (frame : Frame) (m : Machine) : Except Located Machine :=
  if limit ≤ m.pending then .error ⟨.nestingTooDeep limit, span⟩
  else .ok { stack := frame :: m.stack, pending := m.pending + 1, phase := .operand }

def await (left : Node) (op : Binary) (m : Machine) : Machine :=
  { m with stack := .binary left op :: m.stack, phase := .operand }

/-- Applies the operators that wait for `node`, down to the innermost parenthesis. -/
def reduce (limit : Nat) (span : Span) : List Frame → Nat → Node → Except Located Machine
  | .unary op :: stack, pending, node =>
    if limit < (node.wrap op).nesting then .error ⟨.nestingTooDeep limit, span⟩
    else reduce limit span stack (pending - 1) (node.wrap op)
  | .binary left op :: stack, pending, node =>
    if limit < (left.join op node).nesting then .error ⟨.nestingTooDeep limit, span⟩
    else reduce limit span stack pending (left.join op node)
  | stack, pending, node => .ok ⟨stack, pending, .operator node⟩

def readOperand (limit : Nat) (m : Machine) (token : Token) : Except Located Machine :=
  match token.kind with
  | .bang => m.enter limit token.headSpan (.unary .not)
  | .leftParen => m.enter limit token.headSpan (.paren token.start)
  | .word =>
    match token.text with
    | ['F'] => .ok { m with phase := .unaryWindow .eventually token.headSpan }
    | ['G'] => .ok { m with phase := .unaryWindow .always token.headSpan }
    | name => reduce limit token.headSpan m.stack m.pending (.atom (String.ofList name))
  | _ => .error ⟨.unexpectedChar token.head, token.headSpan⟩

/-- A longer word that begins with the letter of an operator is that operator without its window. -/
def readLinkage (m : Machine) (left : Node) (op : Linkage) (token : Token) : Except Located Machine :=
  match token.tail with
  | [] => .ok { m with phase := .binaryWindow left op }
  | c :: _ => .error ⟨.missingWindow op.letter, .ofChar (token.start + token.head.utf8Size) c⟩

def readOperator (limit : Nat) (m : Machine) (left : Node) (token : Token) : Except Located Machine :=
  match token.kind with
  | .amp => .ok (m.await left .and)
  | .bar => .ok (m.await left .or)
  | .rightParen =>
    match m.stack with
    | .paren _ :: stack => reduce limit token.headSpan stack (m.pending - 1) left
    | _ => .error (trailing token)
  | .word =>
    match token.head with
    | 'U' => m.readLinkage left .until token
    | 'R' => m.readLinkage left .release token
    | _ => .error (trailing token)
  | _ => .error (trailing token)

def step (limit : Nat) (m : Machine) (token : Token) : Except Located Machine :=
  match m.phase with
  | .operand => m.readOperand limit token
  | .operator left => m.readOperator limit left token
  | .unaryWindow op place => do
    let window ← windowOf op.letter token
    m.enter limit place (.unary (op.withWindow window))
  | .binaryWindow left op => do
    let window ← windowOf op.letter token
    return m.await left (op.withWindow window)

def finish (stop : Nat) (m : Machine) : Except Located Formula :=
  match m.phase with
  | .operand => .error ⟨.unexpectedEnd, .point stop⟩
  | .unaryWindow op _ => .error ⟨.missingWindow op.letter, .point stop⟩
  | .binaryWindow _ op => .error ⟨.missingWindow op.letter, .point stop⟩
  | .operator node =>
    match m.stack with
    | .paren start :: _ => .error ⟨.unclosedParen, ⟨start, start + 1⟩⟩
    | _ => .ok node.formula

end Machine

def readTokens (limit stop : Nat) (tokens : List Token) : Except Located Formula := do
  let m ← tokens.foldlM (Machine.step limit) {}
  m.finish stop

def defaultNesting : Nat := 512

def parse (limit : Nat) (source : String) : Except Diagnostic Formula :=
  match readTokens limit (byteLength source.toList) (Token.scan 0 source.toList) with
  | .ok f => .ok f
  | .error located => .error { located with source }

end MissionTime.Formula
