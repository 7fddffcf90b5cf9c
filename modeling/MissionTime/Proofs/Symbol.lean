import MissionTime.Formula.Semantics
import MissionTime.TimedAtom
import Mathlib.Logic.Function.Basic

/-! Symbols of timed atoms. The digits of a time contain no `@`, so the last `@` of a symbol divides it
into name and time again, whatever the name is made of. A trace is therefore the same thing as an
assignment of truth values to symbols. -/
namespace MissionTime

namespace TimedAtom

/-- Reads a symbol: the name stands before the last `@` and the time behind it. -/
def ofSymbol (symbol : String) : TimedAtom where
  name := String.ofList ((symbol.toList.reverse.dropWhile (· != '@')).tail.reverse)
  time := Nat.ofDigitChars 10 (symbol.toList.reverse.takeWhile (· != '@')).reverse 0

theorem toList_symbol (atom : TimedAtom) :
    atom.symbol.toList = atom.name.toList ++ '@' :: Nat.toDigits 10 atom.time := by
  have text : atom.symbol = atom.name ++ "@" ++ toString atom.time := rfl
  simp [text]

theorem ne_at_of_mem_toDigits {c : Char} {n : Nat} (mem : c ∈ Nat.toDigits 10 n) :
    (c != '@') = true := by
  have digit := Nat.isDigit_of_mem_toDigits (by decide) (by decide) mem
  rw [bne_iff_ne]
  rintro rfl
  exact absurd digit (by decide)

@[simp] theorem ofSymbol_symbol (atom : TimedAtom) : ofSymbol atom.symbol = atom := by
  have digits : ∀ c ∈ (Nat.toDigits 10 atom.time).reverse, (c != '@') = true := by
    intro c mem
    exact ne_at_of_mem_toDigits (List.mem_reverse.1 mem)
  have text : atom.symbol.toList.reverse =
      (Nat.toDigits 10 atom.time).reverse ++ '@' :: atom.name.toList.reverse := by
    simp [toList_symbol]
  rw [ofSymbol, text, List.takeWhile_append_of_pos digits, List.dropWhile_append_of_pos digits]
  simp

theorem symbol_injective : Function.Injective symbol :=
  Function.LeftInverse.injective ofSymbol_symbol

end TimedAtom

namespace Trace

def assignment (trace : Trace) (symbol : String) : Bool :=
  trace (TimedAtom.ofSymbol symbol).name (TimedAtom.ofSymbol symbol).time

def ofAssignment (value : String → Bool) : Trace := fun name time => value (TimedAtom.symbol ⟨name, time⟩)

@[simp] theorem assignment_symbol (trace : Trace) (name : String) (time : Nat) :
    trace.assignment (TimedAtom.symbol ⟨name, time⟩) = trace name time := by
  rw [assignment, TimedAtom.ofSymbol_symbol]

@[simp] theorem ofAssignment_assignment (trace : Trace) : ofAssignment trace.assignment = trace := by
  funext name time
  exact trace.assignment_symbol name time

end Trace
end MissionTime
