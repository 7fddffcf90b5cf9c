import MissionTime.OrderedMap

/-! Atoms at time steps, and the table of those that an unrolling has met. -/
namespace MissionTime

structure TimedAtom where
  name : String
  time : Nat
deriving DecidableEq

namespace TimedAtom

def symbol (atom : TimedAtom) : String := s!"{atom.name}@{atom.time}"

instance : Ord TimedAtom := ⟨compareLex (compareOn time) (compareOn name)⟩

instance : Std.TransOrd TimedAtom :=
  inferInstanceAs (Std.TransCmp (compareLex (compareOn time) (compareOn name)))

instance : Std.LawfulEqOrd TimedAtom where
  eq_of_compare {a b} h := by
    obtain ⟨name, time⟩ := a
    obtain ⟨name', time'⟩ := b
    have h := compareLex_eq_eq.1 h
    simp only [compareOn, Std.LawfulEqOrd.compare_eq_iff_eq] at h
    simp [h.1, h.2]

end TimedAtom

/-- The registered atoms with their variables, in the order of their registration. -/
structure AtomTable where
  vars : OrderedMap TimedAtom String
  named : ∀ entry ∈ vars.entries, entry.2 = entry.1.symbol

namespace AtomTable

instance : EmptyCollection AtomTable where
  emptyCollection := {
    vars := ∅
    named := fun _ mem => absurd mem (Array.not_mem_empty _) }

def size (table : AtomTable) : Nat := table.vars.size

def isEmpty (table : AtomTable) : Bool := table.vars.isEmpty

def toList (table : AtomTable) : List TimedAtom := table.vars.keys

def symbols (table : AtomTable) : List String := table.vars.values

def get? (table : AtomTable) (atom : TimedAtom) : Option String := table.vars.get? atom

theorem named_entry (table : AtomTable) (atom : TimedAtom) :
    ∀ entry ∈ (table.vars.entry atom atom.symbol).2.entries, entry.2 = entry.1.symbol := by
  cases found : table.vars.get? atom with
  | some symbol =>
    rw [OrderedMap.entry_of_get? found]
    exact table.named
  | none =>
    rw [(OrderedMap.entry_of_get?_eq_none found _).2]
    intro entry mem
    rcases Array.mem_push.1 mem with old | rfl
    · exact table.named entry old
    · rfl

def var (table : AtomTable) (atom : TimedAtom) : String × AtomTable :=
  ((table.vars.entry atom atom.symbol).1,
    { vars := (table.vars.entry atom atom.symbol).2
      named := table.named_entry atom })

end AtomTable
end MissionTime
