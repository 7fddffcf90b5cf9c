import MissionTime.Proofs.Symbol
import Mathlib.Data.List.Nodup

/-! Insertion in the order of arrival. What is inserted comes behind what is there, unless it is there
already; so no element moves, and none stands twice. An atom comes with its variable, which is made of its
name and its time and is kept from then on. -/
namespace MissionTime

theorem eraseDups_of_nodup {α : Type} [BEq α] [LawfulBEq α] {as : List α} (distinct : as.Nodup) :
    as.eraseDups = as := by
  induction as with
  | nil => rfl
  | cons a as ih =>
    obtain ⟨fresh, distinct⟩ := List.nodup_cons.1 distinct
    have others : as.filter (fun b => !b == a) = as := by
      refine List.filter_eq_self.2 fun b mem => ?_
      have : b ≠ a := fun same => fresh (same ▸ mem)
      simpa using this
    rw [List.eraseDups_cons, others, ih distinct]

/-- If each step shows its key behind what is shown before, unless it is shown already, then all steps
together show their keys in the order of first arrival. -/
theorem foldl_eq_eraseDups {σ α β : Type} [BEq β] [LawfulBEq β] {shown : σ → List β} {key : α → β}
    {step : σ → α → σ}
    (shows : ∀ s a, shown (step s a) = if key a ∈ shown s then shown s else shown s ++ [key a])
    (as : List α) {s : σ} {seen : List β} (first : shown s = seen.eraseDups) :
    shown (as.foldl step s) = (seen ++ as.map key).eraseDups := by
  induction as generalizing s seen with
  | nil => rw [List.foldl_nil, List.map_nil, List.append_nil, first]
  | cons a as ih =>
    have next : shown (step s a) = (seen ++ [key a]).eraseDups := by
      rw [shows, first, List.eraseDups_append]
      by_cases mem : key a ∈ seen <;> simp [List.removeAll, mem, List.eraseDups_cons]
    rw [List.foldl_cons, ih next, List.map_cons, List.append_assoc, List.singleton_append]

namespace OrderedMap

variable {α β : Type} [Ord α] [Std.TransOrd α] [Std.LawfulEqOrd α]

theorem keys_entry [DecidableEq α] (m : OrderedMap α β) (a : α) (value : β) :
    (m.entry a value).2.keys = if a ∈ m.keys then m.keys else m.keys ++ [a] := by
  cases found : m.get? a with
  | some b =>
    have mem : a ∈ m.keys := by
      by_contra absent
      simp [(m.get?_eq_none_iff a).2 absent] at found
    rw [entry_of_get? found, if_pos mem]
  | none =>
    rw [if_neg ((m.get?_eq_none_iff a).1 found), keys, (entry_of_get?_eq_none found value).2]
    simp [keys]

end OrderedMap

theorem OrderedSet.toList_foldl_insert (as : List String) :
    toList (as.foldl insert ({} : OrderedSet String)) = as.eraseDups := by
  have shows (s : OrderedSet String) (a : String) :
      toList (s.insert a) = if id a ∈ toList s then toList s else toList s ++ [id a] := s.keys_entry a ()
  have empty : toList ({} : OrderedSet String) = [].eraseDups := rfl
  simpa using foldl_eq_eraseDups shows as empty

namespace AtomTable

def insert (table : AtomTable) (atom : TimedAtom) : AtomTable := (table.var atom).2

variable (table : AtomTable) (atom : TimedAtom) (log : List TimedAtom)

theorem symbols_eq : table.symbols = table.toList.map TimedAtom.symbol := by
  rw [symbols, toList, OrderedMap.values, OrderedMap.keys, List.map_map]
  refine List.map_congr_left fun entry mem => ?_
  exact table.named entry (Array.mem_toList_iff.1 mem)

theorem get?_eq_some_iff (symbol : String) :
    table.get? atom = some symbol ↔ atom ∈ table.toList ∧ symbol = atom.symbol := by
  rw [get?, OrderedMap.get?_eq_some_iff]
  constructor
  · intro mem
    exact ⟨List.mem_map.2 ⟨_, Array.mem_toList_iff.2 mem, rfl⟩, table.named _ mem⟩
  · rintro ⟨mem, rfl⟩
    obtain ⟨entry, stored, rfl⟩ := List.mem_map.1 mem
    rw [Array.mem_toList_iff] at stored
    rwa [← table.named entry stored]

theorem var_eq : table.var atom = (atom.symbol, table.insert atom) := by
  refine Prod.ext ?_ rfl
  show (table.vars.entry atom atom.symbol).1 = atom.symbol
  cases found : table.vars.get? atom with
  | some symbol =>
    rw [OrderedMap.entry_of_get? found]
    exact ((table.get?_eq_some_iff atom symbol).1 found).2
  | none => exact (OrderedMap.entry_of_get?_eq_none found _).1

theorem toList_insert :
    (table.insert atom).toList = if atom ∈ table.toList then table.toList else table.toList ++ [atom] :=
  table.vars.keys_entry atom atom.symbol

theorem insert_of_mem (mem : atom ∈ table.toList) : table.insert atom = table := by
  have found := (table.get?_eq_some_iff atom atom.symbol).2 ⟨mem, rfl⟩
  simp only [insert, var, OrderedMap.entry_of_get? found]

theorem nodup_toList : table.toList.Nodup := table.vars.distinct

theorem nodup_symbols : table.symbols.Nodup := by
  rw [symbols_eq]
  exact List.Nodup.map TimedAtom.symbol_injective table.nodup_toList

theorem toList_foldl_insert : (log.foldl insert table).toList = (table.toList ++ log).eraseDups := by
  have shows (table : AtomTable) (atom : TimedAtom) :
      (table.insert atom).toList = if id atom ∈ table.toList then table.toList else table.toList ++ [id atom] :=
    table.toList_insert atom
  simpa using foldl_eq_eraseDups shows log (eraseDups_of_nodup table.nodup_toList).symm

theorem mem_toList_foldl_insert (b : TimedAtom) :
    b ∈ (log.foldl insert table).toList ↔ b ∈ table.toList ∨ b ∈ log := by
  rw [toList_foldl_insert, List.mem_eraseDups, List.mem_append]

theorem toList_prefix_foldl_insert : table.toList <+: (log.foldl insert table).toList := by
  rw [toList_foldl_insert, List.eraseDups_append, eraseDups_of_nodup table.nodup_toList]
  exact List.prefix_append _ _

theorem symbols_foldl_insert {names : List String} (first : table.symbols = names.eraseDups) :
    (log.foldl insert table).symbols = (names ++ log.map TimedAtom.symbol).eraseDups := by
  refine foldl_eq_eraseDups (fun table atom => ?_) log first
  simp only [symbols_eq, toList_insert, List.mem_map_of_injective TimedAtom.symbol_injective]
  split_ifs <;> simp

end AtomTable
end MissionTime
