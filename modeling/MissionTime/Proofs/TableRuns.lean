import MissionTime.Proofs.Unrolling

/-! Requests to one table of atoms, one after the other, whether or not they fail. What a request registers
does not depend on the table, and the table holds what was registered in the order of the first time. So
each registered atom has a variable of its own, which it keeps together with its place. -/
namespace MissionTime.AtomTable

inductive Request
  | register (atom : TimedAtom)
  | unroll (f : Formula) (time : Nat)

namespace Request

def computation : Request → Unroll Term
  | .register atom => Unroll.register atom
  | .unroll f time => f.unroll time

def visits : Request → List Visit
  | .register atom => [.atom atom]
  | .unroll f time => f.visits time

end Request

def perform (table : AtomTable) (request : Request) : AtomTable := (request.computation.run table).2

/-- The table after a run of requests, which goes on after failures. -/
def after (table : AtomTable) (requests : List Request) : AtomTable := requests.foldl perform table

/-- The atoms that requests come to, each request up to its first fault. -/
def registered (requests : List Request) : List TimedAtom :=
  requests.flatMap fun request => Visit.reached request.visits

section Runs
variable (table : AtomTable) (requests : List Request)

theorem perform_eq (request : Request) :
    table.perform request = (Visit.reached request.visits).foldl insert table := by
  cases request with
  | register atom => exact congrArg Prod.snd (Unroll.register_run atom table)
  | unroll f time => exact f.unroll_snd time table

theorem after_eq : table.after requests = (registered requests).foldl insert table := by
  induction requests generalizing table with
  | nil => rfl
  | cons request requests ih =>
    rw [registered, List.flatMap_cons, List.foldl_append, ← perform_eq]
    exact ih (table.perform request)

theorem after_append (more : List Request) :
    table.after (requests ++ more) = (table.after requests).after more := List.foldl_append

theorem toList_after : (after {} requests).toList = (registered requests).eraseDups := by
  rw [after_eq, toList_foldl_insert]
  rfl

theorem mem_toList_after {atom : TimedAtom} :
    atom ∈ (after {} requests).toList ↔ atom ∈ registered requests := by
  rw [toList_after, List.mem_eraseDups]

theorem getElem?_toList_after {place : Nat} {atom : TimedAtom} (stands : table.toList[place]? = some atom) :
    (table.after requests).toList[place]? = some atom := by
  obtain ⟨behind, all⟩ := table.toList_prefix_foldl_insert (registered requests)
  obtain ⟨lt, -⟩ := List.getElem?_eq_some_iff.1 stands
  rw [after_eq, ← all, List.getElem?_append_left lt, stands]

end Runs

/-- Variables never collide. Atoms that differ in name or time have different variables, whatever characters
the names are made of. After any run of requests to a table, failed ones included, the variables are pairwise
distinct, and the registered atoms, and no others, have one, which is made of name and time. To register
such an atom again gives that variable and changes nothing. The atoms stand in the order in which they were
first registered, and whatever is requested later, each keeps its place and its variable. -/
theorem variables_never_collide (requests : List Request) :
    (∀ name name' time time',
      TimedAtom.symbol ⟨name, time⟩ = TimedAtom.symbol ⟨name', time'⟩ → name = name' ∧ time = time') ∧
    (after {} requests).symbols.Nodup ∧
    (∀ atom symbol, (after {} requests).get? atom = some symbol ↔
      atom ∈ registered requests ∧ symbol = atom.symbol) ∧
    (∀ atom ∈ registered requests,
      (Unroll.register atom).run (after {} requests) = (.ok (.var atom.symbol), after {} requests)) ∧
    (after {} requests).toList = (registered requests).eraseDups ∧
    ∀ (place : Nat) atom, (after {} requests).toList[place]? = some atom → ∀ more,
      (after {} (requests ++ more)).toList[place]? = some atom ∧
      (after {} (requests ++ more)).symbols[place]? = some atom.symbol ∧
      (after {} (requests ++ more)).get? atom = some atom.symbol := by
  refine ⟨fun name name' time time' same => ?_, nodup_symbols _, fun atom symbol => ?_,
    fun atom mem => ?_, toList_after requests, fun place atom stands more => ?_⟩
  · exact TimedAtom.mk.inj (TimedAtom.symbol_injective same)
  · rw [get?_eq_some_iff, mem_toList_after]
  · rw [Unroll.register_run, insert_of_mem _ _ ((mem_toList_after requests).2 mem)]
  · have kept := getElem?_toList_after _ more stands
    rw [← after_append] at kept
    refine ⟨kept, ?_, ?_⟩
    · rw [symbols_eq, List.getElem?_map, kept, Option.map_some]
    · exact (get?_eq_some_iff _ atom _).2 ⟨List.mem_of_getElem? kept, rfl⟩

theorem variables_never_collide_half_finished :
    let inverted := Formula.and (.atom "a@1") (.eventually ⟨2, 1⟩ (.atom "b"))
    let late := Formula.eventually ⟨0, 1⟩ (.atom "a")
    let requests : List Request :=
      [.register ⟨"a", 10⟩, .unroll inverted 0, .register ⟨"a1", 0⟩, .unroll late maxTime]
    let more : List Request := [.register ⟨"a", 1⟩, .unroll inverted 10, .register ⟨"a@1", 0⟩]
    ((inverted.unroll 0).run {}).1.isOk = false ∧ ((late.unroll maxTime).run {}).1.isOk = false ∧
      (after {} requests).symbols = ["a@10", "a@1@0", "a1@0", "a@4294967295"] ∧
      (after {} requests).toList[1]? = some ⟨"a@1", 0⟩ ∧
      (after {} requests).get? ⟨"b", 2⟩ = none ∧
      (after {} (requests ++ more)).symbols =
        ["a@10", "a@1@0", "a1@0", "a@4294967295", "a@1", "a@1@10"] ∧
      (after {} (requests ++ more)).symbols.Nodup ∧
      (after {} (requests ++ more)).toList[1]? = some ⟨"a@1", 0⟩ ∧
      (after {} (requests ++ more)).get? ⟨"a@1", 0⟩ = some "a@1@0" := by
  intro inverted late requests more
  have failed : ((inverted.unroll 0).run {}).1.isOk = false ∧
      ((late.unroll maxTime).run {}).1.isOk = false := by decide +kernel
  have before : (after {} requests).symbols = ["a@10", "a@1@0", "a1@0", "a@4294967295"] ∧
      (after {} requests).toList[1]? = some ⟨"a@1", 0⟩ ∧
      (after {} requests).get? ⟨"b", 2⟩ = none := by decide +kernel
  have behind : (after {} (requests ++ more)).symbols =
      ["a@10", "a@1@0", "a1@0", "a@4294967295", "a@1", "a@1@10"] := by decide +kernel
  obtain ⟨-, -, -, -, -, keeps⟩ := variables_never_collide requests
  obtain ⟨-, distinct, -⟩ := variables_never_collide (requests ++ more)
  obtain ⟨place, -, kept⟩ := keeps 1 _ before.2.1 more
  exact ⟨failed.1, failed.2, before.1, before.2.1, before.2.2, behind, distinct, place, kept⟩

end MissionTime.AtomTable
