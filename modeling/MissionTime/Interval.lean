import MissionTime.Text.Blank

/-! Windows of time steps, as written behind a temporal operator. A window may be inverted when it is
built by hand; the parser refuses such a one and the unrolling reports it. -/
namespace MissionTime

def maxTime : Nat := 4294967295

structure Interval where
  low : Nat
  high : Nat
deriving DecidableEq

namespace Interval

def WellFormed (window : Interval) : Prop := window.low ≤ window.high

instance (window : Interval) : Decidable window.WellFormed :=
  inferInstanceAs (Decidable (window.low ≤ window.high))

def print (window : Interval) : List Char :=
  '[' :: (Nat.toDigits 10 window.low ++ ',' :: (Nat.toDigits 10 window.high ++ [']']))

def text (window : Interval) : String := String.ofList window.print

/-- Reads one bound: decimal digits between blanks, at most `maxTime`. Eleven significant digits are
enough to tell a larger number. -/
def bound? (source : List Char) : Option Nat :=
  let digits := Text.trim source
  let value := Nat.ofDigitChars 10 ((digits.dropWhile (· == '0')).take 11) 0
  if digits ≠ [] ∧ digits.all Char.isDigit ∧ value ≤ maxTime then some value else none

def ofBody? (body : List Char) : Option Interval :=
  match body.splitOn ',' with
  | [low, high] => do return ⟨← bound? low, ← bound? high⟩
  | _ => none

end Interval
end MissionTime
