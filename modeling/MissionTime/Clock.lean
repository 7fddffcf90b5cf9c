/-! The clock of an analysis. What it shows is given, look by look, in nanoseconds; a limit on the time of an
analysis sets a deadline when the analysis begins. -/
namespace MissionTime

/-- A clock that has been looked at some times and does not go back. -/
structure Clock where
  reading : Nat → Nat
  forward : ∀ n, reading n ≤ reading (n + 1)
  looks : Nat := 0

namespace Clock

def still (time : Nat) : Clock where
  reading _ := time
  forward _ := Nat.le_refl time

def second : Nat := 1000000000

/-- The time that a clock does not reach. It counts its seconds in 64 bits with a sign. -/
def endOfTime : Nat := 9223372036854775808 * second

def look : StateM Clock Nat :=
  modifyGet fun c => (c.reading c.looks, { c with looks := c.looks + 1 })

/-- The deadline that a limit in seconds sets; 0 sets none, and neither does a limit beyond the end of
time. -/
def deadlineAfter (timeout : Nat) : StateM Clock (Option Nat) := do
  if timeout = 0 then return none
  let deadline := (← look) + timeout * second
  return if deadline < endOfTime then some deadline else none

def exceeded : Option Nat → StateM Clock Bool
  | none => return false
  | some deadline => return deadline ≤ (← look)

def secondsUntil (deadline now : Nat) : Nat :=
  if deadline ≤ now then 0
  else
    let left := deadline - now
    max (if 0 < left % second then left / second + 1 else left / second) 1

def remaining : Option Nat → StateM Clock (Option Nat)
  | none => return none
  | some deadline => return some (secondsUntil deadline (← look))

end Clock
end MissionTime
