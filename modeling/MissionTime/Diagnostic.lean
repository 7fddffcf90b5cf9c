import MissionTime.Text.Span

/-! What is wrong with a formula text, where, and how it is told. -/
namespace MissionTime
open Text

inductive SyntaxFault
  | unclosedParen
  | missingWindow (operator : Char)
  | unterminatedWindow
  | malformedWindow (body : String)
  | invertedWindow (low high : Nat)
  | unexpectedChar (found : Char)
  | unexpectedEnd
  | trailingInput (rest : String)
  | nestingTooDeep (limit : Nat)
deriving DecidableEq

namespace SyntaxFault

def expectedOperand : String := "an atom, '!', '(', 'F[..]' or 'G[..]'"

def message : SyntaxFault → String
  | .unclosedParen => "Missing closing parenthesis"
  | .missingWindow operator => s!"Expected '[' after temporal operator {operator}"
  | .unterminatedWindow => "Unclosed interval"
  | .malformedWindow body => s!"Malformed interval '[{body}]'"
  | .invertedWindow low high => s!"Interval lower bound {low} exceeds upper bound {high}"
  | .unexpectedChar found => s!"Unexpected character '{found}': expected {expectedOperand}"
  | .unexpectedEnd => s!"Unexpected end of input: expected {expectedOperand}"
  | .trailingInput rest => s!"Unexpected extra input: {rest}"
  | .nestingTooDeep limit => s!"Formula nesting exceeds the limit of {limit}"

/-- The stable name of the kind of fault. -/
def code : SyntaxFault → String
  | .unclosedParen => "mltl::parse::unclosed_paren"
  | .missingWindow _ => "mltl::parse::missing_interval"
  | .unterminatedWindow => "mltl::parse::unterminated_interval"
  | .malformedWindow _ => "mltl::parse::malformed_interval"
  | .invertedWindow _ _ => "mltl::parse::inverted_interval"
  | .unexpectedChar _ => "mltl::parse::unexpected_char"
  | .unexpectedEnd => "mltl::parse::unexpected_end"
  | .trailingInput _ => "mltl::parse::trailing_input"
  | .nestingTooDeep _ => "mltl::parse::nesting_too_deep"

def help? : SyntaxFault → Option String
  | .missingWindow _ => some "temporal operators take a window, e.g. F[0,3] or U[1,4]"
  | .malformedWindow _ =>
    some "an interval is two non-negative integers separated by a comma, e.g. [0,3]"
  | .trailingInput _ => some "join formulas with '&' or '|', or pass them as separate formulas"
  | _ => none

def label : SyntaxFault → String
  | .unclosedParen => "parenthesis opened here is never closed"
  | .missingWindow _ => "interval expected here"
  | .unterminatedWindow => "no matching ']'"
  | .malformedWindow _ => "expected low,high"
  | .invertedWindow _ _ => "empty window"
  | .unexpectedChar _ => "unexpected character"
  | .unexpectedEnd => "input ends here"
  | .trailingInput _ => "not part of the formula"
  | .nestingTooDeep _ => "limit reached here"

end SyntaxFault

structure Located where
  fault : SyntaxFault
  span : Span

structure Diagnostic extends Located where
  source : String
  sourceName : String := "formula"

/-- Attaches another text to a diagnostic; the span stays. -/
def Diagnostic.attach (source name : String) (diagnostic : Diagnostic) : Diagnostic :=
  { diagnostic with source := source, sourceName := name }

end MissionTime
