import Std.Data.TreeMap

/-! Maps that keep their keys in the order of arrival. -/
namespace MissionTime

/-- Values under distinct keys, in the order in which the keys were first entered. The index finds them
without going through them all. -/
structure OrderedMap (α β : Type) [Ord α] where
  entries : Array (α × β)
  index : Std.TreeMap α β
  getElem?_index : ∀ a b, index[a]? = some b ↔ (a, b) ∈ entries
  distinct : (entries.toList.map Prod.fst).Nodup

namespace OrderedMap

variable {α β : Type} [Ord α]

instance [Std.TransOrd α] : EmptyCollection (OrderedMap α β) where
  emptyCollection := {
    entries := #[]
    index := ∅
    getElem?_index := fun a b => by
      rw [Std.TreeMap.getElem?_emptyc]
      exact iff_of_false (Option.some_ne_none b).symm (Array.not_mem_empty _)
    distinct := .nil }

def size (m : OrderedMap α β) : Nat := m.entries.size

def isEmpty (m : OrderedMap α β) : Bool := m.entries.isEmpty

def keys (m : OrderedMap α β) : List α := m.entries.toList.map Prod.fst

def values (m : OrderedMap α β) : List β := m.entries.toList.map Prod.snd

def get? (m : OrderedMap α β) (a : α) : Option β := m.index[a]?

theorem get?_eq_some_iff (m : OrderedMap α β) (a : α) (b : β) :
    m.get? a = some b ↔ (a, b) ∈ m.entries := m.getElem?_index a b

theorem get?_eq_none_iff (m : OrderedMap α β) (a : α) : m.get? a = none ↔ a ∉ m.keys := by
  rw [Option.eq_none_iff_forall_ne_some]
  simp [get?_eq_some_iff, keys]

section Entry
variable [Std.TransOrd α] [Std.LawfulEqOrd α]

/-- The value under a key. If there is none, `value` is put there, behind all that was entered before. -/
def entry (m : OrderedMap α β) (a : α) (value : β) : β × OrderedMap α β :=
  match found : m.get? a with
  | some b => (b, m)
  | none => (value, {
      entries := m.entries.push (a, value)
      index := m.index.insert a value
      getElem?_index := by
        have absent : ∀ b, (a, b) ∉ m.entries := by simpa [keys] using (m.get?_eq_none_iff a).1 found
        intro a' b
        rw [Std.TreeMap.getElem?_insert, Array.mem_push, ← m.getElem?_index]
        split
        · rename_i same
          obtain rfl := Std.LawfulEqOrd.eq_of_compare same
          simp [m.getElem?_index, absent, eq_comm]
        · rename_i other
          have : a' ≠ a := by
            rintro rfl
            exact other Std.ReflOrd.compare_self
          simp [this]
      distinct := by
        have absent := (m.get?_eq_none_iff a).1 found
        rw [Array.toList_push, List.map_append, List.map_singleton, List.nodup_append]
        refine ⟨m.distinct, by simp, fun b mem c hc => ?_⟩
        rw [List.mem_singleton.1 hc]
        rintro rfl
        exact absent mem })

theorem entry_of_get? {m : OrderedMap α β} {a : α} {b : β} (found : m.get? a = some b) (value : β) :
    m.entry a value = (b, m) := by
  unfold entry
  split <;> simp_all

theorem entry_of_get?_eq_none {m : OrderedMap α β} {a : α} (absent : m.get? a = none) (value : β) :
    (m.entry a value).1 = value ∧ (m.entry a value).2.entries = m.entries.push (a, value) := by
  unfold entry
  split <;> simp_all

end Entry
end OrderedMap

abbrev OrderedSet (α : Type) [Ord α] := OrderedMap α Unit

namespace OrderedSet

variable {α : Type} [Ord α] [Std.TransOrd α] [Std.LawfulEqOrd α]

def toList (s : OrderedSet α) : List α := s.keys

def insert (s : OrderedSet α) (a : α) : OrderedSet α := (s.entry a ()).2

end OrderedSet
end MissionTime
