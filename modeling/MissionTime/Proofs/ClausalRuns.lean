import MissionTime.Proofs.Gates
import Mathlib.Data.List.TakeWhile

/-! Whole runs of the internal oracle. A ledger keeps the declared names and the accepted conjuncts of
every run of declarations, assertions and resets, failed assertions included; the clauses of the
oracle say exactly what the ledger says. -/
namespace MissionTime.Clausal
open Runs

variable {s s' : Clausal} {accepted : List Term} {extension : (String → Bool) → Nat → Bool}

def declares (s : Clausal) (t : Term) : Bool := t.names.all s.names.contains

theorem declares_eq_true {t : Term} : s.declares t = true ↔ ∀ name ∈ t.names, name ∈ s.names := by
  simp [declares]

def assertConjunct (t : Term) : Call Clausal Unit := do
  let l ← gate t
  addClause [l]

theorem assertTerm_eq (t : Term) : assertTerm t = t.conjuncts.forM assertConjunct := by
  have single (u : Term) : [u].forM assertConjunct = assertConjunct u := by
    rw [List.forM_eq_forM, List.forM_cons, List.forM_nil]
    exact bind_pure (assertConjunct u)
  induction t using Term.operandInduction with
  | and ts ih =>
    rw [assertTerm, Term.conjuncts_and]
    induction ts with
    | nil => rfl
    | cons t ts ihs =>
      rw [assertAll, ih t (by simp), ihs fun u mem => ih u (List.mem_cons_of_mem t mem)]
      simp only [List.forM_eq_forM, List.flatMap_cons, List.forM_append]
  | _ =>
    rw [assertTerm, Term.conjuncts, single]
    · rfl
    all_goals simp

theorem Represents.accept (h : Represents s accepted extension) {l : Literal} {t : Term}
    (stands : Stands s extension l t) :
    Represents { s with clauses := [l] :: s.clauses } (accepted ++ [t]) extension where
  names := h.names
  truth := h.truth
  bounded := by
    intro c hc m hm
    rcases List.mem_cons.1 hc with rfl | hc
    · rw [List.mem_singleton.1 hm]
      exact stands.1
    · exact h.bounded c hc m hm
  clauses := by
    intro a value agrees
    have old := h.clauses agrees
    have unit : ClauseSet.eval value ([l] :: s.clauses) =
        (l.eval value && s.clauses.eval value) := by
      simp [ClauseSet.eval, Clause.eval]
    rw [unit, Bool.and_eq_true, old, List.forall_mem_append, List.forall_mem_singleton]
    have same (h : ∀ index < s.next, value index = extension a index) : l.eval value = t.eval a := by
      rw [Literal.eval_congr (h _ stands.1), stands.2]
    constructor
    · rintro ⟨hl, values, holds⟩
      exact ⟨values, holds, same values ▸ hl⟩
    · rintro ⟨values, holds, ht⟩
      exact ⟨(same values).trans ht, values, holds⟩

theorem assertConjunct_run (t : Term) (h : Represents s accepted extension) :
    ∃ s' extension', s'.names = s.names ∧
      if s.declares t then
        (assertConjunct t).run s = (.ok (), s') ∧ Represents s' (accepted ++ [t]) extension'
      else (∃ name ∈ t.names, name ∉ s.names ∧
          (assertConjunct t).run s = (.error (.unknownVariable name), s')) ∧
        Represents s' accepted extension' := by
  obtain ⟨s', extension', h', le, ⟨l, run, declared, stands⟩ | ⟨name, mem, undeclared, run⟩⟩ :=
    keeps_gate t h
  · refine ⟨{ s' with clauses := [l] :: s'.clauses }, extension', le.names, ?_⟩
    rw [if_pos (declares_eq_true.2 declared), assertConjunct, run_bind_ok run, addClause_run]
    exact ⟨rfl, h'.accept stands⟩
  · refine ⟨s', extension', le.names, ?_⟩
    have refused : ¬ s.declares t = true := fun all => undeclared (declares_eq_true.1 all name mem)
    rw [if_neg refused, assertConjunct]
    exact ⟨⟨name, mem, undeclared, run_bind_error run⟩, h'⟩

theorem declares_congr (names : s'.names = s.names) : s'.declares = s.declares := by
  funext t
  rw [declares, declares, names]

/-- Conjuncts are accepted up to the first that mentions a name that is not declared; if there is one,
such a name is reported. -/
theorem assertConjuncts_run (ts : List Term) (h : Represents s accepted extension) :
    ∃ result s' extension', (ts.forM assertConjunct).run s = (result, s') ∧ s'.names = s.names ∧
      Represents s' (accepted ++ ts.takeWhile s.declares) extension' ∧
      ((∀ t ∈ ts, s.declares t = true) ∧ result = .ok () ∨
        ∃ t ∈ ts, ∃ name ∈ t.names, name ∉ s.names ∧ result = .error (.unknownVariable name)) := by
  induction ts generalizing s accepted extension with
  | nil => exact ⟨.ok (), s, extension, rfl, rfl, by simpa using h, .inl ⟨nofun, rfl⟩⟩
  | cons t ts ih =>
    obtain ⟨s₁, e₁, names₁, step⟩ := assertConjunct_run t h
    rw [List.forM]
    split_ifs at step with declared
    · obtain ⟨run₁, h₁⟩ := step
      obtain ⟨result, s₂, e₂, run₂, names₂, h₂, outcome⟩ := ih h₁
      rw [declares_congr names₁] at h₂ outcome
      refine ⟨result, s₂, e₂, ?_, names₂.trans names₁, ?_, ?_⟩
      · rw [run_bind_ok run₁, run₂]
      · rw [List.takeWhile_cons_of_pos declared]
        simpa using h₂
      · rcases outcome with ⟨all, ok⟩ | ⟨u, mem, name, hn, undeclared, refused⟩
        · exact .inl ⟨List.forall_mem_cons.2 ⟨declared, all⟩, ok⟩
        · exact .inr ⟨u, List.mem_cons_of_mem t mem, name, hn, names₁ ▸ undeclared, refused⟩
    · obtain ⟨⟨name, hn, undeclared, run₁⟩, h₁⟩ := step
      refine ⟨.error (.unknownVariable name), s₁, e₁, run_bind_error run₁, names₁, ?_, ?_⟩
      · rw [List.takeWhile_cons_of_neg declared]
        simpa using h₁
      · exact .inr ⟨t, List.mem_cons_self, name, hn, undeclared, rfl⟩

theorem declare_run (name : String) (s : Clausal) :
    (declare name).run s = (.ok (), if name ∈ s.names then s
      else { s with names := s.names.insert name s.next, next := s.next + 1 }) := by
  rw [declare, run_get_bind]
  by_cases mem : name ∈ s.names
  · have contained : s.names.contains name = true := Std.TreeMap.contains_iff_mem.2 mem
    rw [contained, if_pos mem]
    rfl
  · have absent : s.names.contains name = false := by
      rwa [← Bool.not_eq_true, Std.TreeMap.contains_iff_mem]
    rw [absent, if_neg mem]
    rfl

theorem represents_declare (name : String) (h : Represents s accepted extension) :
    ∃ s' extension', (declare name).run s = (.ok (), s') ∧ Represents s' accepted extension' ∧
      ∀ other, other ∈ s'.names ↔ other = name ∨ other ∈ s.names := by
  rw [declare_run]
  by_cases mem : name ∈ s.names
  · refine ⟨s, extension, by rw [if_pos mem], h, fun other => ?_⟩
    constructor
    · exact .inr
    · rintro (rfl | old)
      · exact mem
      · exact old
  · let s' : Clausal := { s with names := s.names.insert name s.next, next := s.next + 1 }
    have lookup (other : String) :
        s'.names[other]? = if name = other then some s.next else s.names[other]? := by
      rw [Std.TreeMap.getElem?_insert]
      simp only [Std.LawfulEqCmp.compare_eq_iff_eq]
    have absent : s.names[name]? = none := by
      rwa [← Option.not_isSome_iff_eq_none, ← Std.TreeMap.mem_iff_isSome_getElem?]
    have represents : Represents s' accepted (addValue extension s.next fun a => a name) := by
      refine h.define rfl (List.nil_append _).symm nofun ?_ ?_ (fun _ hl => .inl hl) ?_
      · intro other index old
        rw [lookup, if_neg, old]
        rintro rfl
        simp [absent] at old
      · intro other index found
        rw [lookup] at found
        split_ifs at found with same
        · exact .inr ⟨(Option.some.inj found).symm, fun a => by rw [same]⟩
        · exact .inl found
      · intro a value agrees _
        have new : value s.next = a name := agrees (by rw [lookup, if_pos rfl])
        simp [new, ClauseSet.eval]
    refine ⟨s', _, by rw [if_neg mem], represents, fun other => ?_⟩
    rw [Std.TreeMap.mem_insert, Std.LawfulEqCmp.compare_eq_iff_eq, eq_comm]

inductive Request
  | declare (name : String)
  | assertTerm (term : Term)
  | check
  | reset

namespace Request

def perform (s : Clausal) : Request → Clausal
  | .declare name => ((Oracle.declare name : Call Clausal Unit).run s).2
  | .assertTerm term => ((Oracle.assertTerm term : Call Clausal Unit).run s).2
  | .check => ((Oracle.check : Call Clausal Verdict).run s).2
  | .reset => ((Oracle.reset : Call Clausal Unit).run s).2

end Request

structure Ledger where
  declared : List String := []
  accepted : List Term := []

namespace Ledger

def declares (ledger : Ledger) (t : Term) : Bool := t.names.all ledger.declared.contains

/-- An assertion adds its conjuncts up to the first with a variable that is not declared. -/
def record (ledger : Ledger) : Request → Ledger
  | .declare name => { ledger with declared := ledger.declared ++ [name] }
  | .assertTerm term =>
    { ledger with accepted := ledger.accepted ++ term.conjuncts.takeWhile ledger.declares }
  | .check => ledger
  | .reset => {}

def ofRun (requests : List Request) : Ledger := requests.foldl record {}

def Matches (ledger : Ledger) (s : Clausal) : Prop :=
  (∃ extension, Represents s ledger.accepted extension) ∧
    ∀ name, name ∈ s.names ↔ name ∈ ledger.declared

variable {ledger : Ledger}

theorem Matches.declares_eq (h : ledger.Matches s) : s.declares = ledger.declares := by
  funext t
  rw [Bool.eq_iff_iff, declares_eq_true, declares, List.all_eq_true]
  exact forall₂_congr fun name _ => by rw [h.2, List.contains_iff_mem]

theorem matches_empty : Matches {} {} :=
  ⟨⟨_, represents_empty⟩, fun name => by simp⟩

theorem Matches.declare (h : ledger.Matches s) (name : String) :
    ∃ s', (Clausal.declare name).run s = (.ok (), s') ∧ (ledger.record (.declare name)).Matches s' := by
  obtain ⟨⟨extension, represents⟩, names⟩ := h
  obtain ⟨s', extension', run, represents', names'⟩ := represents_declare name represents
  refine ⟨s', run, ⟨extension', represents'⟩, fun other => ?_⟩
  rw [names', names, record, List.mem_append, List.mem_singleton, or_comm]

theorem declares_eq_all_conjuncts (ledger : Ledger) (t : Term) :
    ledger.declares t = t.conjuncts.all ledger.declares := by
  rw [declares, ← Term.names_conjuncts, List.all_flatMap]
  rfl

theorem Matches.assertTerm (h : ledger.Matches s) (t : Term) :
    ∃ result s', (Clausal.assertTerm t).run s = (result, s') ∧
      (ledger.record (.assertTerm t)).Matches s' ∧
      (ledger.declares t = true ∧ result = .ok () ∨
        ∃ name ∈ t.names, name ∉ ledger.declared ∧ result = .error (.unknownVariable name)) := by
  have same := h.declares_eq
  obtain ⟨⟨extension, represents⟩, names⟩ := h
  obtain ⟨result, s', extension', run, names', represents', outcome⟩ :=
    assertConjuncts_run t.conjuncts represents
  rw [← assertTerm_eq] at run
  rw [same] at represents' outcome
  refine ⟨result, s', run, ⟨⟨extension', represents'⟩, fun other => ?_⟩, ?_⟩
  · rw [names', names, record]
  · rcases outcome with ⟨all, ok⟩ | ⟨u, mem, name, hn, undeclared, refused⟩
    · rw [declares_eq_all_conjuncts]
      exact .inl ⟨List.all_eq_true.2 all, ok⟩
    · refine .inr ⟨name, ?_, mt (names name).2 undeclared, refused⟩
      rw [← Term.names_conjuncts]
      exact List.mem_flatMap.2 ⟨u, mem, hn⟩

theorem Matches.perform (h : ledger.Matches s) (request : Request) :
    (ledger.record request).Matches (request.perform s) := by
  cases request with
  | declare name =>
    obtain ⟨s', run, h'⟩ := h.declare name
    have state : Request.perform s (.declare name) = s' := congrArg Prod.snd run
    rwa [state]
  | assertTerm t =>
    obtain ⟨result, s', run, h', _⟩ := h.assertTerm t
    have state : Request.perform s (.assertTerm t) = s' := congrArg Prod.snd run
    rwa [state]
  | check => exact h
  | reset => exact matches_empty

end Ledger

def ofRun (requests : List Request) : Clausal := requests.foldl Request.perform {}

theorem matches_ofRun (requests : List Request) : (Ledger.ofRun requests).Matches (ofRun requests) := by
  have run (ledger : Ledger) (s : Clausal) (h : ledger.Matches s) :
      (requests.foldl Ledger.record ledger).Matches (requests.foldl Request.perform s) := by
    induction requests generalizing ledger s with
    | nil => exact h
    | cons request requests ih => exact ih _ _ (h.perform request)
  exact run {} {} Ledger.matches_empty

/-- The values of the declared names under an assignment of the variables. -/
def nameValues (s : Clausal) (value : Nat → Bool) (name : String) : Bool :=
  match s.names[name]? with
  | some index => value index
  | none => false

theorem agrees_nameValues (s : Clausal) (value : Nat → Bool) : s.Agrees (s.nameValues value) value := by
  intro name index found
  rw [nameValues, found]

theorem Represents.model_iff (h : Represents s accepted extension) (a : String → Bool) :
    (∃ value, s.Agrees a value ∧ s.clauses.eval value = true) ↔ ∀ t ∈ accepted, t.eval a = true := by
  constructor
  · rintro ⟨value, agrees, holds⟩
    exact ((h.clauses agrees).1 holds).2
  · intro holds
    have agrees := h.agrees_extension a
    exact ⟨extension a, agrees, (h.clauses agrees).2 ⟨fun _ _ => rfl, holds⟩⟩

theorem Represents.model_unique (h : Represents s accepted extension) {a : String → Bool}
    {value value' : Nat → Bool} (agrees : s.Agrees a value) (agrees' : s.Agrees a value')
    (holds : s.clauses.eval value = true) (holds' : s.clauses.eval value' = true) :
    ∀ index < s.next, value index = value' index := by
  intro index lt
  rw [((h.clauses agrees).1 holds).1 index lt, ((h.clauses agrees').1 holds').1 index lt]

theorem Represents.satisfiable_iff (h : Represents s accepted extension) :
    s.clauses.satisfiable = true ↔ ∃ a, ∀ t ∈ accepted, t.eval a = true := by
  rw [ClauseSet.satisfiable_iff]
  constructor
  · rintro ⟨value, holds⟩
    exact ⟨s.nameValues value, (h.model_iff _).1 ⟨value, s.agrees_nameValues value, holds⟩⟩
  · rintro ⟨a, holds⟩
    obtain ⟨value, _, satisfied⟩ := (h.model_iff a).2 holds
    exact ⟨value, satisfied⟩

theorem check_run (s : Clausal) :
    check.run s = (.ok (if s.clauses.satisfiable then .sat else .unsat), s) := rfl

/-- After every run, the clauses say exactly that the accepted conjuncts are true: the assignments of
the declared names that some model of the clauses extends are those that make all of them true, each
of them has one extension to the variables of the clauses, and a check tells whether there is any. The
next assertion fails exactly if it has a variable that is not declared. -/
theorem clauses_say_what_was_accepted (requests : List Request) :
    (∀ name, name ∈ (ofRun requests).names ↔ name ∈ (Ledger.ofRun requests).declared) ∧
    (∀ c ∈ (ofRun requests).clauses, ∀ l ∈ c, l.index < (ofRun requests).next) ∧
    (∀ a, (∃ value, (ofRun requests).Agrees a value ∧ (ofRun requests).clauses.eval value = true) ↔
      ∀ t ∈ (Ledger.ofRun requests).accepted, t.eval a = true) ∧
    (∀ a, (∀ t ∈ (Ledger.ofRun requests).accepted, t.eval a = true) →
      ∃ value, (ofRun requests).Agrees a value ∧ (ofRun requests).clauses.eval value = true ∧
        ∀ value', (ofRun requests).Agrees a value' → (ofRun requests).clauses.eval value' = true →
          ∀ index < (ofRun requests).next, value' index = value index) ∧
    (∃ verdict, (Oracle.check : Call Clausal Verdict).run (ofRun requests) =
        (.ok verdict, ofRun requests) ∧
      (verdict = .sat ↔ ∃ a, ∀ t ∈ (Ledger.ofRun requests).accepted, t.eval a = true) ∧
      (verdict = .unsat ↔ ¬ ∃ a, ∀ t ∈ (Ledger.ofRun requests).accepted, t.eval a = true)) ∧
    ∀ term, ∃ result s', (Oracle.assertTerm term : Call Clausal Unit).run (ofRun requests) = (result, s') ∧
      ((Ledger.ofRun requests).declares term = true ∧ result = .ok () ∨
        ∃ name ∈ term.names, name ∉ (Ledger.ofRun requests).declared ∧
          result = .error (.unknownVariable name)) := by
  obtain ⟨⟨extension, h⟩, names⟩ := matches_ofRun requests
  refine ⟨names, h.bounded, h.model_iff, fun a holds => ?_, ⟨_, check_run _, ?_⟩, fun term => ?_⟩
  · obtain ⟨value, agrees, satisfied⟩ := (h.model_iff a).2 holds
    exact ⟨value, agrees, satisfied, fun value' agrees' satisfied' =>
      h.model_unique agrees' agrees satisfied' satisfied⟩
  · rw [← h.satisfiable_iff]
    split_ifs with satisfiable <;> simp [satisfiable]
  · obtain ⟨result, s', run, _, outcome⟩ := (matches_ofRun requests).assertTerm term
    exact ⟨result, s', run, outcome⟩

example :
    (Ledger.ofRun [.declare "p",
      .assertTerm (.and [.var "p", .and [.var "ghost"], .not (.var "p")])]).accepted = [.var "p"] := by rfl

end MissionTime.Clausal
