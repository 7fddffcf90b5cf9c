import MissionTime.Text.Span

/-! Tokens of the formula language. Spaces, tabs, carriage returns and line feeds divide tokens and
nothing else does. The first character that starts no token begins a `junk` token, which runs to the
end of the text, so every text has a token sequence. -/
namespace MissionTime

inductive Token.Kind
  | leftParen
  | rightParen
  | bang
  | amp
  | bar
  | window
  | word
  | junk
deriving DecidableEq

/-- A token and where it stands. The text of a token is never empty, so its first character has a
field of its own; `after` is the source behind the token. -/
structure Token where
  kind : Token.Kind
  start : Nat
  head : Char
  tail : List Char
  after : List Char

namespace Token
open Text

def text (token : Token) : List Char := token.head :: token.tail

def stop (token : Token) : Nat := token.start + byteLength token.text

def span (token : Token) : Span := ⟨token.start, token.stop⟩

def headSpan (token : Token) : Span := .ofChar token.start token.head

def rest (token : Token) : List Char := token.text ++ token.after

def isSpace (c : Char) : Bool := c == ' ' || c == '\t' || c == '\r' || c == '\n'

/-- A letter of a word that is read as a binary temporal operator instead: a window follows. -/
def opensWindow (c : Char) (after : List Char) : Bool :=
  (c == 'U' || c == 'R') && (after.dropWhile isSpace).head? == some '['

def wordTail : List Char → List Char
  | [] => []
  | c :: after => if c.isAlphanum && !opensWindow c after then c :: wordTail after else []

def endsWindow (c : Char) : Bool :=
  c == ']' || c == '[' || c == '(' || c == ')' || c == '!' || c == '&' || c == '|'

/-- What continues a window: everything up to the closing bracket, which is part of the window, or up
to another delimiter, which is not. -/
def windowTail (source : List Char) : List Char :=
  let body := source.takeWhile (!endsWindow ·)
  match source.drop body.length with
  | ']' :: _ => body ++ [']']
  | _ => body

def lexeme (c : Char) (after : List Char) : Kind × List Char :=
  match c with
  | '(' => (.leftParen, [])
  | ')' => (.rightParen, [])
  | '!' => (.bang, [])
  | '&' => (.amp, [])
  | '|' => (.bar, [])
  | '[' => (.window, windowTail after)
  | c => if c.isAlpha then (.word, wordTail after) else (.junk, after)

def scan (start : Nat) : List Char → List Token
  | [] => []
  | c :: source =>
    if isSpace c then scan (start + 1) source
    else
      let (kind, tail) := lexeme c source
      let token : Token := ⟨kind, start, c, tail, source.drop tail.length⟩
      token :: scan token.stop token.after
termination_by source => source.length
decreasing_by all_goals simp; try omega

end Token
end MissionTime
