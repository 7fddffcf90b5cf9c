import MissionTime.Analysis.Outcome
import MissionTime.Proofs.Conversation
import MissionTime.Proofs.ExplanationCost
import MissionTime.Proofs.Registration
import Mathlib.Data.List.Sublists

/-! Backends can be exchanged. An analysis declares plain symbols only, each once and before it is used,
and a solver process that decides understands all of that. So the process and the internal oracle give the
same answers to the same queries, and an analysis comes to the same end on both. -/
namespace MissionTime
open Runs SolverLanguage

namespace Term

theorem satisfiable_iff_exists_sublist (terms : List Term) :
    Satisfiable terms ↔ ∃ chosen ∈ (terms.flatMap names).sublists,
      ∀ t ∈ terms, t.eval (fun name => decide (name ∈ chosen)) = true := by
  -- Only the values of the names matter, so that finitely many assignments are to be tried.
  constructor
  · rintro ⟨value, holds⟩
    refine ⟨(terms.flatMap names).filter value, List.mem_sublists.2 List.filter_sublist, fun t mem => ?_⟩
    rw [← holds t mem]
    refine eval_congr fun name hn => ?_
    have known : name ∈ terms.flatMap names := List.mem_flatMap.2 ⟨t, mem, hn⟩
    simp [known]
  · rintro ⟨chosen, -, holds⟩
    exact ⟨_, holds⟩

instance (terms : List Term) : Decidable (Satisfiable terms) :=
  decidable_of_iff' _ (satisfiable_iff_exists_sublist terms)

theorem satisfiable_map_norm (terms : List Term) : Satisfiable (terms.map norm) ↔ Satisfiable terms := by
  simp [Satisfiable]

end Term

structure Utterable (name : String) : Prop where
  quotable : ∀ c ∈ name.toList, isQuotable c = true
  free : declarable name = true

theorem SolverLanguage.isQuotable_of_isAlphanum {c : Char} (h : c.isAlphanum = true) :
    isQuotable c = true := by
  have bounds : 48 ≤ c.toNat ∧ c.toNat ≤ 122 ∧ c.toNat ≠ 92 := by
    have ranges : (c.isUpper || c.isLower || c.isDigit) = true := h
    rw [Bool.or_eq_true, Bool.or_eq_true] at ranges
    rcases ranges with (upper | lower) | digit
    · have inside : 65 ≤ c.toNat ∧ c.toNat ≤ 90 := of_decide_eq_true upper
      omega
    · have inside : 97 ≤ c.toNat ∧ c.toNat ≤ 122 :=
        (Bool.and_eq_true_iff.1 lower).imp of_decide_eq_true of_decide_eq_true
      omega
    · have inside : 48 ≤ c.toNat ∧ c.toNat ≤ 57 := Char.isDigit_iff_toNat.1 digit
      omega
  have notBar : c ≠ '|' := by
    rintro rfl
    exact absurd bounds.2.1 (by decide)
  have notSlash : c ≠ '\\' := by
    rintro rfl
    exact absurd bounds.2.2 (by decide)
  have low : ' ' ≤ c := show 32 ≤ c.toNat by omega
  have high : c ≤ '~' := show c.toNat ≤ 126 by omega
  simp [isQuotable, notBar, notSlash, low, high]

theorem TimedAtom.utterable_symbol {atom : TimedAtom} (named : Formula.AtomName atom.name.toList) :
    Utterable atom.symbol := by
  have letters := Formula.isAlphanum_of_isName named.1
  constructor
  · intro c mem
    rw [toList_symbol, List.mem_append, List.mem_cons] at mem
    rcases mem with mem | rfl | mem
    · exact isQuotable_of_isAlphanum (letters c mem)
    · rfl
    · have digit := Nat.isDigit_of_mem_toDigits (by decide) le_rfl mem
      exact isQuotable_of_isAlphanum (by simp [Char.isAlphanum, digit])
  · have sign : '@' ∈ atom.symbol.toList := by simp [toList_symbol]
    have plain : ∀ word ∈ coreFunctions, '@' ∉ word.toList := by decide
    have ordinary : atom.symbol ∉ coreFunctions := fun mem => plain _ mem sign
    cases text : atom.name.toList with
    | nil =>
      rw [text] at named
      cases named.1
    | cons c cs =>
      have letter : c.isAlphanum = true := letters c (by simp [text])
      have first : atom.symbol.toList.head? = some c := by simp [toList_symbol, text]
      have notSign : c ≠ '@' := by
        rintro rfl
        cases letter
      have notDot : c ≠ '.' := by
        rintro rfl
        cases letter
      simp [declarable, first, notSign, notDot, ordinary]

/-- The laws of an oracle that decides what an analysis asks: utterable names are declared, each once, and
then terms about them are asserted. `Ready` and `Holds` are as for an oracle that decides. -/
structure Oracle.Answers {σ : Type} [Oracle σ] (Ready : σ → Prop)
    (Holds : List String → List Term → σ → Prop) : Prop where
  reset : ∀ ⦃s : σ⦄, Ready s → ∃ s', (Oracle.reset : Call σ Unit).run s = (.ok (), s') ∧ Holds [] [] s'
  declare : ∀ ⦃s : σ⦄ ⦃names terms⦄, Holds names terms s → ∀ name, Utterable name → name ∉ names →
    ∃ s', (Oracle.declare name : Call σ Unit).run s = (.ok (), s') ∧ Holds (names ++ [name]) terms s'
  assertTerm : ∀ ⦃s : σ⦄ ⦃names terms⦄, Holds names terms s → ∀ t : Term, t.names ⊆ names →
    ∃ s', (Oracle.assertTerm t : Call σ Unit).run s = (.ok (), s') ∧ Holds names (terms ++ [t]) s'
  check : ∀ ⦃s : σ⦄ ⦃names terms⦄, Holds names terms s →
    ∃ verdict s', (Oracle.check : Call σ Verdict).run s = (.ok verdict, s') ∧ Ready s' ∧
      (verdict = .sat ∧ Term.Satisfiable terms ∨ verdict = .unsat ∧ ¬ Term.Satisfiable terms)

theorem Oracle.Decides.answers {σ : Type} [Oracle σ] {Ready : σ → Prop}
    {Holds : List String → List Term → σ → Prop} (decides : Oracle.Decides Ready Holds) :
    Oracle.Answers Ready Holds :=
  ⟨decides.reset, fun _ _ _ h name _ _ => decides.declare h name, decides.assertTerm, decides.check⟩

namespace Session

def Attentive (s : Session) : Prop := ∃ context, s.Understands context

def HoldsTerms (names : List String) (terms : List Term) (s : Session) : Prop :=
  s.Understands ⟨true, names, terms.map Term.norm⟩ ∧ ∀ name ∈ names, Utterable name

theorem answers : Oracle.Answers Attentive HoldsTerms where
  reset := by
    rintro s ⟨context, h⟩
    obtain ⟨s', run, h'⟩ := reset_run h
    exact ⟨s', run, h', nofun⟩
  declare := by
    rintro s names terms ⟨h, utterable⟩ name new fresh
    obtain ⟨s', run, h'⟩ := declare_run h new.quotable new.free fresh
    refine ⟨s', run, h', ?_⟩
    rw [List.forall_mem_append, List.forall_mem_singleton]
    exact ⟨utterable, new⟩
  assertTerm := by
    rintro s names terms ⟨h, utterable⟩ t declared
    obtain ⟨s', run, h'⟩ :=
      assertTerm_run h (fun name mem => (utterable name (declared mem)).quotable) declared
    refine ⟨s', run, ?_, utterable⟩
    rwa [List.map_append, List.map_singleton]
  check := by
    rintro s names terms ⟨h, utterable⟩
    obtain ⟨verdict, s', run, h', answer⟩ := check_run h rfl
    rw [Term.satisfiable_map_norm] at answer
    exact ⟨verdict, s', run, ⟨_, h'⟩, answer⟩

end Session

namespace Backend

def OnSession (P : Session → Prop) (b : Backend) : Prop := ∃ s, b = .process s ∧ P s

theorem dispatch_run_process {α : Type} (onClausal : Call Clausal α) {onSession : Call Session α}
    {s s' : Session} {result : Except OracleError α} (run : onSession.run s = (result, s')) :
    (dispatch onClausal onSession).run (.process s) = (result, .process s') := by
  rw [dispatch, run_modifyGet_bind, run_ofExcept]
  simp only [run]

theorem answers : Oracle.Answers (OnSession Session.Attentive)
    (fun names terms => OnSession (Session.HoldsTerms names terms)) where
  reset := by
    rintro _ ⟨s, rfl, ready⟩
    obtain ⟨s', run, h⟩ := Session.answers.reset ready
    exact ⟨.process s', dispatch_run_process _ run, s', rfl, h⟩
  declare := by
    rintro _ names terms ⟨s, rfl, h⟩ name new fresh
    obtain ⟨s', run, h⟩ := Session.answers.declare h name new fresh
    exact ⟨.process s', dispatch_run_process _ run, s', rfl, h⟩
  assertTerm := by
    rintro _ names terms ⟨s, rfl, h⟩ t declared
    obtain ⟨s', run, h⟩ := Session.answers.assertTerm h t declared
    exact ⟨.process s', dispatch_run_process _ run, s', rfl, h⟩
  check := by
    rintro _ names terms ⟨s, rfl, h⟩
    obtain ⟨verdict, s', run, ready, answer⟩ := Session.answers.check h
    exact ⟨verdict, .process s', dispatch_run_process _ run, ⟨s', rfl, ready⟩, answer⟩

end Backend

theorem Encoding.Loadable.utterable {encoding : Encoding} (loadable : encoding.Loadable Formula.AtomName) :
    ∀ name ∈ encoding.declarations, Utterable name := by
  intro name mem
  rw [declarations, AtomTable.symbols_eq] at mem
  obtain ⟨atom, registered, rfl⟩ := List.mem_map.1 mem
  exact TimedAtom.utterable_symbol (loadable.atoms atom registered)

theorem Oracle.Answers.load {σ : Type} [Oracle σ] {Ready : σ → Prop}
    {Holds : List String → List Term → σ → Prop} (answers : Oracle.Answers Ready Holds) {s : σ}
    (h : Holds [] [] s) {encoding : Encoding} (loadable : encoding.Loadable Formula.AtomName) :
    ∃ s', (encoding.load : Call σ Unit).run s = (.ok (), s') ∧
      Holds encoding.declarations encoding.assertions.toList s' := by
  have distinct : encoding.declarations.Nodup := encoding.table.nodup_symbols
  obtain ⟨s₁, run₁, h₁⟩ : ∃ s', (encoding.declarations.forM Oracle.declare : Call σ Unit).run s =
      (.ok (), s') ∧ Holds encoding.declarations [] s' := by
    apply run_forM (I := fun done => Holds done []) (fun done name rest s all h => ?_) h
    have fresh : name ∉ done := by
      rw [all] at distinct
      exact fun mem => (List.nodup_append.1 distinct).2.2 name mem name List.mem_cons_self rfl
    exact answers.declare h name (loadable.utterable name (by simp [all])) fresh
  obtain ⟨s₂, run₂, h₂⟩ : ∃ s', (encoding.assertions.toList.forM Oracle.assertTerm : Call σ Unit).run s₁ =
      (.ok (), s') ∧ Holds encoding.declarations encoding.assertions.toList s' := by
    apply run_forM (I := Holds encoding.declarations) (fun done t rest s all h => ?_) h₁
    exact answers.assertTerm h t (loadable.declared t (by simp [all]))
  exact ⟨s₂, by rw [Encoding.load, run_bind_ok run₁, run₂], h₂⟩

theorem Requirement.allAtoms_of_readAll {maxNesting : Nat} {sources : List String}
    {requirements : List Requirement} (read : readAll maxNesting sources = .ok requirements) :
    ∀ r ∈ requirements, r.formula.AllAtoms Formula.AtomName := by
  intro r mem
  obtain ⟨i, lt, rfl⟩ := List.mem_iff_getElem.1 mem
  have related := forall₂_of_readAll read
  have parsed := (List.forall₂_iff_get.1 related).2 i (by rw [related.length_eq]; exact lt) lt
  obtain ⟨d⟩ := Formula.derives_of_parse parsed.2
  exact d.allAtoms

namespace Analysis

section
variable {σ : Type} [Oracle σ] {Ready : σ → Prop} {Holds : List String → List Term → σ → Prop}

theorem consistent_run_of_answers (answers : Oracle.Answers Ready Holds) {options : Options}
    {requirements : List Requirement} {encoding : Encoding}
    (encoded : Requirement.encodeAll options.maxHorizon requirements = .ok encoding)
    (loadable : encoding.Loadable Formula.AtomName) {p : Progress σ} (ready : Ready p.oracle)
    (unset : p.deadline = none) :
    ∃ s, Ready s ∧ (consistent options requirements).run p =
      (.ok (decide (Term.Satisfiable encoding.assertions.toList)),
        { p with oracle := s, queries := p.queries + 1 }) := by
  obtain ⟨s₁, reset, h₁⟩ := answers.reset ready
  obtain ⟨s₂, load, h₂⟩ := answers.load h₁ loadable
  obtain ⟨verdict, s₃, check, ready, answer⟩ := answers.check h₂
  have unlimited : (limitCheck (Oracle.backend p.oracle)).run { p with oracle := s₁ } = _ :=
    limitCheck_none unset
  refine ⟨s₃, ready, ?_⟩
  rw [consistent_eq, run_bind_ok (checkDeadline_none unset), encoded, run_bind_ok (run_ofExcept _ p),
    run_get_bind, run_bind_ok (ask_run p reset), run_bind_ok unlimited, query, run_bind_ok (ask_run _ load),
    run_bind_ok (ask_run _ check), run_modify_bind]
  rcases answer with ⟨rfl, yes⟩ | ⟨rfl, no⟩
  · rw [decide_eq_true yes]
    rfl
  · rw [decide_eq_false no]
    rfl

end

section
variable {σ τ : Type} [Oracle σ] [Oracle τ]

structure Abreast (Ready : σ → Prop) (Ready' : τ → Prop) (p : Progress σ) (q : Progress τ) : Prop where
  left : Ready p.oracle
  right : Ready' q.oracle
  unset : p.deadline = none ∧ q.deadline = none
  queries : p.queries = q.queries
  script : p.script = q.script

variable {Ready : σ → Prop} {Holds : List String → List Term → σ → Prop}
  {Ready' : τ → Prop} {Holds' : List String → List Term → τ → Prop} {options : Options}

omit [Oracle σ] [Oracle τ] in
theorem lockstep_prepare (sources : List String) :
    Lockstep (Abreast Ready Ready') (prepare options sources) (prepare options sources) := by
  refine .prepare options sources fun p q abreast script => ?_
  exact ⟨abreast.left, abreast.right, abreast.unset, abreast.queries, rfl⟩

omit [Oracle σ] [Oracle τ] in
theorem lockstep_setDeadline (unlimited : options.timeout = 0) :
    Lockstep (Abreast Ready Ready') (setDeadline options) (setDeadline options) := by
  intro p q abreast
  rw [setDeadline_unlimited unlimited, setDeadline_unlimited unlimited]
  exact ⟨rfl, abreast.left, abreast.right, ⟨rfl, rfl⟩, abreast.queries, abreast.script⟩

omit [Oracle σ] in
theorem allAtoms_of_yields_prepare {sources : List String} {requirements : List Requirement}
    (yields : Yields (prepare options sources : Analysis σ _) requirements) :
    ∀ r ∈ requirements, r.formula.AllAtoms Formula.AtomName := by
  obtain ⟨p, p', run⟩ := yields
  exact Requirement.allAtoms_of_readAll (prepare_ok run).1

variable (answers : Oracle.Answers Ready Holds) (answers' : Oracle.Answers Ready' Holds')
include answers answers'

theorem lockstep_consistent {requirements : List Requirement}
    (atoms : ∀ r ∈ requirements, r.formula.AllAtoms Formula.AtomName) :
    Lockstep (Abreast Ready Ready') (consistent options requirements) (consistent options requirements) := by
  intro p q abreast
  obtain ⟨unset, unset'⟩ := abreast.unset
  cases encoded : Requirement.encodeAll options.maxHorizon requirements with
  | error e =>
    rw [consistent_eq, consistent_eq, run_bind_ok (checkDeadline_none unset),
      run_bind_ok (checkDeadline_none unset'), encoded, run_bind_error (run_ofExcept _ p),
      run_bind_error (run_ofExcept _ q)]
    exact ⟨rfl, abreast⟩
  | ok encoding =>
    have loadable := Requirement.loadable_of_encodeAll atoms encoded
    obtain ⟨s, ready, run⟩ := consistent_run_of_answers answers encoded loadable abreast.left unset
    obtain ⟨t, ready', run'⟩ := consistent_run_of_answers answers' encoded loadable abreast.right unset'
    rw [run, run']
    exact ⟨rfl, ready, ready', ⟨unset, unset'⟩, congrArg (· + 1) abreast.queries, abreast.script⟩

theorem lockstep_check (unlimited : options.timeout = 0) (sources : List String) :
    Lockstep (Abreast Ready Ready') (check options sources) (check options sources) := by
  refine .check (lockstep_prepare sources) (lockstep_setDeadline unlimited) fun requirements yields => ?_
  exact lockstep_consistent answers answers' (allAtoms_of_yields_prepare yields)

theorem lockstep_explain (unlimited : options.timeout = 0) (sources : List String) :
    Lockstep (Abreast Ready Ready') (explain options sources) (explain options sources) := by
  refine .explain (lockstep_prepare sources) (lockstep_setDeadline unlimited)
    fun requirements yields part sub => ?_
  have atoms := allAtoms_of_yields_prepare yields
  exact lockstep_consistent answers answers' fun r mem => atoms r (sub mem)

end

end Analysis

namespace SolverChoice

variable {choice : SolverChoice} {host : Host}

theorem start_eq_process (external : choice ≠ .internal) (timeout : Nat) :
    ∃ label arguments limitOption, choice.start host timeout =
      match Session.start host choice.name arguments limitOption with
      | .ok session => .ok (.process session)
      | .error e => .error (.oracle label (.failed e)) := by
  cases choice with
  | internal => exact absurd rfl external
  | z3 | cvc5 | external => exact ⟨_, _, _, rfl⟩

theorem start_attentive (external : choice ≠ .internal) {responder : Responder}
    (installed : host choice.name = some responder) (decides : responder.Decides) (timeout : Nat) :
    ∃ s, choice.start host timeout = .ok (.process s) ∧ s.Attentive := by
  obtain ⟨label, arguments, limitOption, process⟩ := start_eq_process external timeout
  obtain ⟨s, started, h⟩ := Session.start_understands installed decides arguments limitOption
  refine ⟨s, ?_, _, h⟩
  rw [process, started]

end SolverChoice

/-- A process that decides: it tries all assignments. -/
def Responder.exhaustive : Responder where
  reply heard :=
    match read heard.dropLast with
    | some context => .print (if Term.Satisfiable context.asserted then "sat" else "unsat")
    | none => .exit ""

theorem Responder.exhaustive_decides : exhaustive.Decides := by
  intro heard context understood _
  simp only [exhaustive, List.dropLast_concat, understood]
  constructor
  · intro satisfiable
    rw [if_pos satisfiable]
  · intro unsatisfiable
    rw [if_neg unsatisfiable]

namespace Outcome

variable {α : Type} {choice : SolverChoice} {host : Host} {clock : Clock} {responder : Responder}
  {options : Options}

/-- What an analysis tells, as against the backend that it leaves. -/
def report (outcome : Outcome α) : Except AnalysisError α × Nat × Option String :=
  (outcome.result, outcome.queries, outcome.script)

theorem report_of_start {analysis : Analysis Backend α} {backend : Backend}
    (started : choice.start host options.timeout = .ok backend) :
    (ofAnalysis host clock choice options analysis).report =
      let (result, p) := analysis.run { oracle := backend, clock }
      (result, p.queries, p.script) := by
  rw [ofAnalysis, started]
  rfl

theorem report_ofAnalysis (external : choice ≠ .internal)
    (installed : host choice.name = some responder) (decides : responder.Decides)
    {analysis : Analysis Backend α}
    (lockstep : Lockstep (Analysis.Abreast (Backend.OnSession Session.Attentive)
      (Backend.OnClausal fun _ => True)) analysis analysis) :
    (ofAnalysis host clock choice options analysis).report =
      (ofAnalysis host clock .internal options analysis).report := by
  obtain ⟨s, started, attentive⟩ :=
    SolverChoice.start_attentive external installed decides options.timeout
  have internal : SolverChoice.internal.start host options.timeout = .ok (.clausal {}) := rfl
  obtain ⟨result, abreast⟩ := lockstep (s := { oracle := .process s, clock })
    (t := { oracle := .clausal {}, clock })
    ⟨⟨s, rfl, attentive⟩, ⟨_, rfl, trivial⟩, ⟨rfl, rfl⟩, rfl, rfl⟩
  rw [report_of_start started, report_of_start internal]
  exact Prod.ext result (Prod.ext abreast.queries abreast.script)

/-- An analysis on a solver process that decides tells what it tells on the internal oracle. -/
theorem report_process_eq_internal (external : choice ≠ .internal)
    (installed : host choice.name = some responder) (decides : responder.Decides)
    (unlimited : options.timeout = 0) (sources : List String) :
    (check host clock choice options sources).report = (check host clock .internal options sources).report ∧
    (explain host clock choice options sources).report =
      (explain host clock .internal options sources).report := by
  have lockstep_check := Analysis.lockstep_check Backend.answers Backend.decides.answers unlimited sources
  have lockstep_explain := Analysis.lockstep_explain Backend.answers Backend.decides.answers unlimited sources
  refine ⟨report_ofAnalysis external installed decides lockstep_check, ?_⟩
  unfold explain
  split_ifs
  · rfl
  · exact report_ofAnalysis external installed decides lockstep_explain

theorem report_process_eq_internal_window :
    let host : Host := fun program => if program = "z3" then some .exhaustive else none
    let sources := ["a", "F[1,1] b", "G[0,1] !b"]
    SolverChoice.z3 ≠ .internal ∧ host "z3" = some .exhaustive ∧ Responder.exhaustive.Decides ∧
      (check host (.still 0) .internal {} sources).result.toOption = some false ∧
      (check host (.still 0) .internal {} sources).queries = 1 ∧
      (explain host (.still 0) .internal {} sources).result.toOption.bind Analysis.coreTexts? =
        some ["F[1,1] b", "G[0,1] !b"] ∧
      (explain host (.still 0) .internal {} sources).queries = 5 := by
  intro host sources
  have external : SolverChoice.z3 ≠ .internal := nofun
  have installed : host "z3" = some .exhaustive := rfl
  have evaluated : (check host (.still 0) .z3 {} sources).result.toOption = some false ∧
      (check host (.still 0) .z3 {} sources).queries = 1 ∧
      (explain host (.still 0) .z3 {} sources).result.toOption.bind Analysis.coreTexts? =
        some ["F[1,1] b", "G[0,1] !b"] ∧
      (explain host (.still 0) .z3 {} sources).queries = 5 := by decide +kernel
  have unlimited : ({} : Options).timeout = 0 := rfl
  obtain ⟨same_check, same_explain⟩ :=
    report_process_eq_internal external installed Responder.exhaustive_decides unlimited sources
  simp only [report, Prod.mk.injEq] at same_check same_explain
  rw [← same_check.1, ← same_check.2.1, ← same_explain.1, ← same_explain.2.1]
  exact ⟨external, installed, Responder.exhaustive_decides, evaluated⟩

end Outcome

end MissionTime
