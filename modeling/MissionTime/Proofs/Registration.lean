import MissionTime.Proofs.Consistency
import MissionTime.Proofs.RoundTrip

/-! What an unrolling registers: atoms of the formula only, at steps between the first and the furthest
that the formula looks to. So the declarations of an encoding are symbols of such atoms, and they cover the
assertions. -/
namespace MissionTime
open Runs

namespace Formula

variable {P : List Char → Prop}

theorem atom_of_visit {f : Formula} (atoms : f.AllAtoms P) {time : Nat} {atom : TimedAtom}
    (visited : .atom atom ∈ f.visits time) :
    P atom.name.toList ∧ time ≤ atom.time ∧ atom.time ≤ time + f.reach := by
  induction f generalizing time with
  | atom name =>
    cases List.mem_singleton.1 visited
    exact ⟨atoms, Nat.le.refl, Nat.le_add_right ..⟩
  | not f ih => exact ih atoms visited
  | and f g ihf ihg | or f g ihf ihg =>
    rw [reach]
    rcases List.mem_append.1 visited with left | right
    · obtain ⟨named, low, high⟩ := ihf atoms.1 left
      exact ⟨named, low, by omega⟩
    · obtain ⟨named, low, high⟩ := ihg atoms.2 right
      exact ⟨named, low, by omega⟩
  | eventually w f ih | always w f ih =>
    rw [reach]
    obtain ⟨k, le, inner⟩ := Visit.mem_within visited
    obtain ⟨named, low, high⟩ := ih atoms (Visit.mem_later inner)
    exact ⟨named, by omega, by omega⟩
  | «until» w f g ihf ihg =>
    rw [reach]
    obtain ⟨k, le, inner⟩ := Visit.mem_within visited
    rcases List.mem_append.1 inner with before | goal
    · obtain ⟨j, lt, left⟩ := Visit.mem_before before
      obtain ⟨named, low, high⟩ := ihf atoms.1 left
      exact ⟨named, by omega, by omega⟩
    · obtain ⟨named, low, high⟩ := ihg atoms.2 (Visit.mem_later goal)
      exact ⟨named, by omega, by omega⟩
  | release w f g ihf ihg =>
    rw [reach]
    have right {count : Nat} (le : count ≤ w.high + 1)
        (upto : .atom atom ∈ Visit.before time count g.visits) :
        P atom.name.toList ∧ time ≤ atom.time ∧ atom.time ≤ time + (w.high + max f.reach g.reach) := by
      obtain ⟨j, lt, right⟩ := Visit.mem_before upto
      obtain ⟨named, low, high⟩ := ihg atoms.2 right
      exact ⟨named, by omega, by omega⟩
    rcases List.mem_append.1 visited with windowed | throughout
    · obtain ⟨k, le, inner⟩ := Visit.mem_within windowed
      rcases List.mem_append.1 inner with upto | goal
      · exact right (by omega) upto
      · obtain ⟨named, low, high⟩ := ihf atoms.1 (Visit.mem_later goal)
        exact ⟨named, by omega, by omega⟩
    · exact right Nat.le.refl throughout

theorem allAtoms_true (f : Formula) : f.AllAtoms fun _ => True := by
  induction f with
  | atom name => trivial
  | not f ih | eventually w f ih | always w f ih => exact ih
  | and f g ihf ihg | or f g ihf ihg | «until» w f g ihf ihg | release w f g ihf ihg =>
    exact ⟨ihf, ihg⟩

end Formula

namespace Encoding

variable {encoding encoding' : Encoding} {P : List Char → Prop} {limit : Nat}

/-- The declarations are symbols of atoms with `P`, and they cover the assertions. -/
structure Loadable (P : List Char → Prop) (encoding : Encoding) : Prop where
  atoms : ∀ atom ∈ encoding.table.toList, P atom.name.toList
  declared : ∀ t ∈ encoding.assertions.toList, t.names ⊆ encoding.declarations

theorem loadable_empty : Loadable P {} := ⟨nofun, nofun⟩

theorem declarations_prefix_push (limit : Nat) (f : Formula) (encoding : Encoding) :
    encoding.declarations <+: (encoding.push limit f).2.declarations := by
  have behind : encoding.declarations <+: (f.registrations.foldl AtomTable.insert encoding.table).symbols := by
    rw [AtomTable.symbols_eq, declarations, AtomTable.symbols_eq]
    exact (encoding.table.toList_prefix_foldl_insert f.registrations).map TimedAtom.symbol
  rcases push_cases limit f encoding with ⟨_, pushed⟩ | ⟨_, ⟨term, _, pushed⟩ | ⟨e, _, pushed⟩⟩
  · rewrite [pushed]
    exact List.prefix_rfl
  · rw [pushed]
    exact behind
  · rw [pushed]
    exact behind

theorem Loadable.push (h : encoding.Loadable P) (limit : Nat) {f : Formula} (atoms : f.AllAtoms P) :
    (encoding.push limit f).2.Loadable P := by
  have registered : ∀ atom ∈ (f.registrations.foldl AtomTable.insert encoding.table).toList,
      P atom.name.toList := by
    intro atom mem
    rcases (AtomTable.mem_toList_foldl_insert ..).1 mem with old | new
    · exact h.atoms atom old
    · exact (Formula.atom_of_visit atoms (Visit.mem_of_mem_reached new)).1
  have kept := declarations_prefix_push limit f encoding
  rcases push_cases limit f encoding with ⟨_, pushed⟩ | ⟨_, ⟨term, yields, pushed⟩ | ⟨e, _, pushed⟩⟩ <;>
    rw [pushed] at kept ⊢
  · exact h
  · exact ⟨registered, declared_push h.declared yields⟩
  · exact ⟨registered, fun t mem => List.Subset.trans (h.declared t mem) kept.subset⟩

theorem Loadable.ofItems {α ε : Type} {formula : α → Formula} {fault : α → EncodingError → ε}
    {items : List α} (atoms : ∀ item ∈ items, (formula item).AllAtoms P) (h : encoding.Loadable P)
    (run : ofItems limit formula fault encoding items = .ok encoding') : encoding'.Loadable P := by
  induction items generalizing encoding with
  | nil =>
    cases run
    exact h
  | cons item items ih =>
    obtain ⟨first, atoms⟩ := List.forall_mem_cons.1 atoms
    have next := h.push limit first
    rcases pushed : encoding.push limit (formula item) with ⟨e | ⟨⟩, encoding₁⟩ <;> rw [pushed] at next
    · rw [ofItems_cons_error pushed] at run
      cases run
    · rw [ofItems_cons_ok pushed] at run
      exact ih atoms next run

end Encoding

theorem Requirement.loadable_of_encodeAll {P : List Char → Prop} {limit : Nat}
    {requirements : List Requirement} {encoding : Encoding}
    (atoms : ∀ r ∈ requirements, r.formula.AllAtoms P)
    (encoded : encodeAll limit requirements = .ok encoding) : encoding.Loadable P := by
  rw [encodeAll_eq] at encoded
  exact Encoding.loadable_empty.ofItems atoms encoded

end MissionTime
