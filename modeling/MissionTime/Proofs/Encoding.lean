import MissionTime.Proofs.Horizon
import MissionTime.Proofs.Meaning

/-! Encodings of batches. An encoding of formulas has one term for each of them and declares all
variables of its terms; its terms are true together under some assignment exactly if the formulas
hold together on some trace. -/
namespace MissionTime
open Runs

def Formula.registrations (f : Formula) : List TimedAtom := Visit.reached (f.visits 0)

theorem AtomTable.mem_symbols_foldl_insert (log : List TimedAtom) (table : AtomTable) (name : String) :
    name ∈ (log.foldl insert table).symbols ↔ name ∈ table.symbols ∨ name ∈ log.map TimedAtom.symbol := by
  simp only [symbols_eq, List.mem_map, mem_toList_foldl_insert, or_and_right, exists_or]

namespace Encoding

variable {encoding : Encoding} {formulas : List Formula} {limit : Nat}

/-- All that an addition can do. -/
theorem push_cases (limit : Nat) (f : Formula) (encoding : Encoding) :
    (limit < f.horizon ∧ encoding.push limit f = (.error (.horizonExceeded f.horizon limit), encoding)) ∨
    (f.horizon ≤ limit ∧ ((∃ term, Yields (f.unroll 0) term ∧ encoding.push limit f =
        (.ok (), ⟨f.registrations.foldl AtomTable.insert encoding.table, encoding.assertions.push term⟩)) ∨
      ∃ e, Visit.firstFault (f.visits 0) = some e ∧ encoding.push limit f =
        (.error e, { encoding with table := f.registrations.foldl AtomTable.insert encoding.table }))) := by
  by_cases far : limit < f.horizon
  · exact .inl ⟨far, by rw [push, checkHorizon, if_pos far]⟩
  · refine .inr ⟨Nat.not_lt.1 far, ?_⟩
    rw [push, checkHorizon, if_neg far]
    rcases f.unroll_cases 0 with ⟨term, -, -, run⟩ | ⟨e, stopped, run⟩
    · refine .inl ⟨term, ⟨{}, _, run {}⟩, ?_⟩
      simp only [run]
      rfl
    · refine .inr ⟨e, stopped, ?_⟩
      simp only [run]
      rfl

theorem declared_push {f : Formula} {term : Term}
    (declared : ∀ t ∈ encoding.assertions.toList, t.names ⊆ encoding.declarations)
    (yields : Yields (f.unroll 0) term) :
    ∀ t ∈ (encoding.assertions.push term).toList,
      t.names ⊆ (f.registrations.foldl AtomTable.insert encoding.table).symbols := by
  intro t mem name hn
  rw [AtomTable.mem_symbols_foldl_insert]
  rw [Array.toList_push, List.mem_append, List.mem_singleton] at mem
  rcases mem with old | rfl
  · exact .inl (declared t old hn)
  · exact .inr (Formula.names_of_yields yields ▸ hn)

/-- An encoding holds one term for each formula, and every variable of a term is declared. -/
structure Encodes (encoding : Encoding) (formulas : List Formula) : Prop where
  terms : List.Forall₂ (fun f term => Yields (f.unroll 0) term) formulas encoding.assertions.toList
  declared : ∀ term ∈ encoding.assertions.toList, ∀ name ∈ term.names, name ∈ encoding.declarations

theorem encodes_empty : Encodes {} [] := ⟨.nil, nofun⟩

theorem Encodes.push (h : encoding.Encodes formulas) {f : Formula} (fits : f.Fits 0)
    (within : f.horizon ≤ limit) :
    ∃ encoding', encoding.push limit f = (.ok (), encoding') ∧ encoding'.Encodes (formulas ++ [f]) := by
  rcases push_cases limit f encoding with ⟨far, _⟩ | ⟨_, ⟨term, yields, pushed⟩ | ⟨e, stopped, _⟩⟩
  · exact absurd within (Nat.not_le.2 far)
  · refine ⟨_, pushed, ?_, declared_push h.declared yields⟩
    rw [Array.toList_push]
    exact List.rel_append h.terms (.cons yields .nil)
  · rw [(f.exists_yields_iff 0).1 fits.exists_yields] at stopped
    cases stopped

section Items
variable {α ε : Type} {formula : α → Formula} {fault : α → EncodingError → ε} {item : α}

def ofItems (limit : Nat) (formula : α → Formula) (fault : α → EncodingError → ε) (encoding : Encoding)
    (items : List α) : Except ε Encoding :=
  items.foldlM (fun encoding item => (encoding.extend limit (formula item)).mapError (fault item)) encoding

theorem ofItems_cons_ok {next : Encoding} (pushed : encoding.push limit (formula item) = (.ok (), next))
    (items : List α) :
    ofItems limit formula fault encoding (item :: items) = ofItems limit formula fault next items := by
  rw [ofItems, List.foldlM_cons, extend, pushed]
  rfl

theorem ofItems_cons_error {e : EncodingError} {next : Encoding}
    (pushed : encoding.push limit (formula item) = (.error e, next)) (items : List α) :
    ofItems limit formula fault encoding (item :: items) = .error (fault item e) := by
  rw [ofItems, List.foldlM_cons, extend, pushed]
  rfl

theorem fault_of_ofItems {items : List α} {failure : ε}
    (failed : ofItems limit formula fault encoding items = .error failure) :
    ∃ item e, failure = fault item e := by
  induction items generalizing encoding with
  | nil => cases failed
  | cons item items ih =>
    rcases pushed : encoding.push limit (formula item) with ⟨e | ⟨⟩, next⟩
    · rw [ofItems_cons_error pushed] at failed
      exact ⟨item, e, (Except.error.inj failed).symm⟩
    · rw [ofItems_cons_ok pushed] at failed
      exact ih failed

theorem Encodes.ofItems (fault : α → EncodingError → ε) {items : List α}
    (fits : ∀ item ∈ items, (formula item).Fits 0)
    (within : ∀ item ∈ items, (formula item).horizon ≤ limit) (h : encoding.Encodes formulas) :
    ∃ encoding', ofItems limit formula fault encoding items = .ok encoding' ∧
      encoding'.Encodes (formulas ++ items.map formula) := by
  induction items generalizing encoding formulas with
  | nil => exact ⟨encoding, rfl, by simpa using h⟩
  | cons item items ih =>
    obtain ⟨fits_item, fits⟩ := List.forall_mem_cons.1 fits
    obtain ⟨within_item, within⟩ := List.forall_mem_cons.1 within
    obtain ⟨next, pushed, h⟩ := h.push fits_item within_item
    obtain ⟨encoding', run, h⟩ := ih fits within h
    exact ⟨encoding', (ofItems_cons_ok pushed items).trans run, by simpa using h⟩

end Items

theorem Encodes.eval_iff (h : encoding.Encodes formulas) (value : String → Bool) :
    (∀ term ∈ encoding.assertions.toList, term.eval value = true) ↔
      ∀ f ∈ formulas, f.Holds (Trace.ofAssignment value) 0 := by
  rw [← List.all_eq_true]
  exact all_iff_of_forall₂ h.terms fun f _ term yields => f.meant value yields

/-- The terms are satisfiable exactly if the formulas are. -/
theorem Encodes.satisfiable_iff (h : encoding.Encodes formulas) :
    (∃ value, ∀ term ∈ encoding.assertions.toList, term.eval value = true) ↔
      Formula.JointlySatisfiable formulas := by
  simp only [h.eval_iff]
  constructor
  · rintro ⟨value, holds⟩
    exact ⟨Trace.ofAssignment value, holds⟩
  · rintro ⟨trace, holds⟩
    refine ⟨trace.assignment, ?_⟩
    rwa [Trace.ofAssignment_assignment]

end Encoding
end MissionTime
