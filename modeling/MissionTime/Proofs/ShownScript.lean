import MissionTime.CommandLine.Run
import MissionTime.Proofs.BackendParity
import MissionTime.Proofs.InputErrors
import MissionTime.Proofs.SessionRuns

/-! The script that is shown is the query that is run. A solver process is sent the commands of the script
of a batch, so what is printed of the batch, what a check of it keeps and what the process hears from the
choice of the logic up to the question are one text. A batch with an error is refused by all three, and for
the same error. -/
namespace MissionTime
open Runs SolverLanguage Text

def Text.unlines (lines : List String) : String := String.join (lines.map (· ++ "\n"))

def Text.upTo (line : String) (lines : List String) : List String := lines.take (lines.idxOf line + 1)

theorem Text.upTo_append {line : String} {before : List String} (first : line ∉ before)
    (after : List String) : upTo line (before ++ line :: after) = before ++ [line] := by
  rw [upTo, List.idxOf_append_of_notMem first, List.idxOf_cons_self]
  simp [List.take_append]

/-- What a process has heard from the last choice of the logic in front of the first question up to that
question. -/
def Session.firstQuery (heard : List String) : List String :=
  (upTo Command.setLogic.text (upTo Command.checkSat.text heard).reverse).reverse

theorem Session.firstQuery_eq {before body : List String}
    (question : Command.checkSat.text ∉ before ++ Command.setLogic.text :: body)
    (logic : Command.setLogic.text ∉ body) (after : List String) :
    firstQuery (before ++ Command.setLogic.text :: (body ++ Command.checkSat.text :: after)) =
      Command.setLogic.text :: (body ++ [Command.checkSat.text]) := by
  have other : Command.setLogic.text ≠ Command.checkSat.text := by decide
  have heard : upTo Command.checkSat.text
      (before ++ Command.setLogic.text :: (body ++ Command.checkSat.text :: after)) =
      before ++ Command.setLogic.text :: (body ++ [Command.checkSat.text]) := by
    simpa using upTo_append question after
  have backwards : Command.setLogic.text ∉ Command.checkSat.text :: body.reverse := by
    simp [other, logic]
  rw [firstQuery, heard]
  simpa using congrArg List.reverse (upTo_append backwards before.reverse)

theorem Text.foldl_append_eq_unlines {α : Type} (line : α → String) (items : List α) (text : String) :
    items.foldl (fun text item => text ++ (line item ++ "\n")) text = text ++ unlines (items.map line) := by
  induction items generalizing text with
  | nil => exact (String.append_empty).symm
  | cons item items ih =>
    rw [List.foldl_cons, ih, List.map_cons, unlines, unlines, List.map_cons, String.join_cons,
      String.append_assoc]

theorem Text.unlines_append (first last : List String) :
    unlines (first ++ last) = unlines first ++ unlines last := by
  rw [unlines, List.map_append, String.join_append, ← unlines, ← unlines]

def Command.Loads (command : Command) : Prop :=
  ∃ meaning, command? command.text = some meaning ∧ meaning ≠ .setLogic ∧ meaning ≠ .checkSat

namespace Encoding

variable {encoding : Encoding}

def commands (encoding : Encoding) : List Command :=
  encoding.declarations.map .declare ++ encoding.assertions.toList.map .assert

theorem Loadable.loads (loadable : encoding.Loadable Formula.AtomName) :
    ∀ command ∈ encoding.commands, command.Loads := by
  have quotable : ∀ name ∈ encoding.declarations, ∀ c ∈ name.toList, isQuotable c = true :=
    fun name mem => (loadable.utterable name mem).quotable
  simp only [commands, List.forall_mem_append, List.forall_mem_map]
  constructor
  · intro name mem
    exact ⟨_, command?_declare (quotable name mem), nofun, nofun⟩
  · intro t mem
    have declared := loadable.declared t mem
    exact ⟨_, command?_assert fun name hn => quotable name (declared hn), nofun, nofun⟩

theorem Loadable.text_notMem (loadable : encoding.Loadable Formula.AtomName) {command : Command}
    (understood : command? command.text = some command) (outer : command = .setLogic ∨ command = .checkSat) :
    command.text ∉ encoding.commands.map Command.text := by
  rw [List.mem_map]
  rintro ⟨said, mem, same⟩
  obtain ⟨meaning, meant, notLogic, notCheck⟩ := loadable.loads said mem
  refine text_ne_of_command? meant understood ?_ same
  rcases outer with rfl | rfl
  · exact notLogic
  · exact notCheck

theorem script_eq (encoding : Encoding) : encoding.script =
    unlines (Command.setLogic.text :: (encoding.commands.map Command.text ++ [Command.checkSat.text])) := by
  have declare (name : String) :
      s!"(declare-const {Term.quote name} Bool)\n" = (Command.declare name).text ++ "\n" := by
    change _ ++ (" Bool)" ++ "\n") = _
    rw [← String.append_assoc]
    rfl
  have assert (t : Term) : s!"(assert {t.text})\n" = (Command.assert t).text ++ "\n" := by
    change _ ++ (")" ++ "\n") = _
    rw [← String.append_assoc]
    rfl
  rw [← List.singleton_append, unlines_append, unlines_append, commands, List.map_append, unlines_append,
    List.map_map, List.map_map]
  simp only [script, Script.text, declare, assert, foldl_append_eq_unlines, String.append_assoc]
  rfl

/-- The lines of a query that begins with a reset, cut out of all that a process has heard, are the
script. -/
theorem unlines_firstQuery (loadable : encoding.Loadable Formula.AtomName) {heard : List String}
    (all : heard = [Command.setLogic.text, Command.reset.text, Command.setLogic.text] ++
      encoding.commands.map Command.text ++ [Command.checkSat.text]) :
    unlines (Session.firstQuery heard) = encoding.script := by
  have logic := loadable.text_notMem command?_setLogic (.inl rfl)
  have question := loadable.text_notMem command?_checkSat (.inr rfl)
  have first : Command.checkSat.text ∉ [Command.setLogic.text, Command.reset.text] ++
      Command.setLogic.text :: encoding.commands.map Command.text := by
    have others : Command.checkSat.text ∉
        [Command.setLogic.text, Command.reset.text, Command.setLogic.text] := by decide
    rw [List.append_cons, List.mem_append, not_or]
    exact ⟨others, question⟩
  have query := Session.firstQuery_eq first logic []
  rw [script_eq, ← query, all]
  simp

end Encoding

namespace Session

structure Listens (lines : List String) (s : Session) : Prop where
  running : s.running = true
  unlimited : s.limit = none
  heard : s.heard.toList = lines

variable {lines : List String} {s : Session}

theorem Listens.send (h : s.Listens lines) {command meaning : Command}
    (understood : command? command.text = some meaning) (silent : meaning ≠ .checkSat) :
    ∃ s', (send command.text).run s = (.ok (), s') ∧ s'.Listens (lines ++ [command.text]) := by
  refine ⟨_, send_run_silent h.running understood silent, h.running, h.unlimited, ?_⟩
  rw [Array.toList_push, h.heard]

theorem Listens.reset (h : s.Listens lines) :
    ∃ s', (Oracle.reset : Call Session Unit).run s = (.ok (), s') ∧
      s'.Listens (lines ++ [Command.reset.text, Command.setLogic.text]) := by
  obtain ⟨s₁, run₁, h₁⟩ := h.send command?_reset nofun
  obtain ⟨s₂, run₂, h₂⟩ := h₁.send command?_setLogic nofun
  refine ⟨s₂, ?_, by simpa using h₂⟩
  change Session.reset.run s = _
  rw [reset_eq, run_bind_ok run₁, run_bind_ok (sendLimit_run h₁.unlimited), run₂]

theorem Listens.load (h : s.Listens lines) {encoding : Encoding}
    (loads : ∀ command ∈ encoding.commands, command.Loads) :
    ∃ s', (encoding.load : Call Session Unit).run s = (.ok (), s') ∧
      s'.Listens (lines ++ encoding.commands.map Command.text) := by
  have sends : (encoding.load : Call Session Unit) =
      encoding.commands.forM fun command => Session.send command.text := by
    rw [Encoding.commands, List.forM_eq_forM, List.forM_append, List.forM_map, List.forM_map]
    rfl
  rw [sends]
  apply run_forM (I := fun done => Listens (lines ++ done.map Command.text))
    (fun done command rest s all h => ?_) (by simpa using h)
  obtain ⟨meaning, understood, -, silent⟩ := loads command (by simp [all])
  simpa using h.send understood silent

theorem Listens.check (h : s.Listens lines) :
    ((Oracle.check : Call Session Verdict).run s).2.heard.toList = lines ++ [Command.checkSat.text] := by
  rw [← h.heard]
  exact heard_check h.running

theorem start_listens {host : Host} {program : String} {responder : Responder}
    (installed : host program = some responder) (arguments : List String) (limitOption : Option String) :
    ∃ s, start host program arguments limitOption = .ok s ∧ s.Listens [Command.setLogic.text] := by
  have silent : Listens [] { program, arguments, responder, limitOption } := ⟨rfl, rfl, rfl⟩
  obtain ⟨s, run, h⟩ := silent.send command?_setLogic nofun
  exact ⟨s, start_of_setLogic installed run, h⟩

end Session

namespace Backend

theorem lockstep_dispatch {α : Type} (onClausal : Call Clausal α) (onSession : Call Session α) :
    Lockstep (fun b s => b = process s) (dispatch onClausal onSession) onSession := by
  rintro _ s rfl
  rcases run : onSession.run s with ⟨result, s'⟩
  rw [dispatch_run_process onClausal run]
  exact ⟨rfl, rfl⟩

theorem load_run_process {encoding : Encoding} {s s' : Session}
    (run : (encoding.load : Call Session Unit).run s = (.ok (), s')) :
    (encoding.load : Call Backend Unit).run (.process s) = (.ok (), .process s') := by
  have lockstep : Lockstep (fun b s => b = process s) (encoding.load : Call Backend Unit) encoding.load := by
    refine .bind (.forM (fun name => lockstep_dispatch _ _) _) fun _ _ => ?_
    exact .forM (fun term => lockstep_dispatch _ _) _
  obtain ⟨result, process⟩ := lockstep (show Backend.process s = .process s from rfl)
  rw [run] at result process
  exact Prod.ext result process

end Backend

namespace Analysis

variable {σ : Type} [Oracle σ] {options : Options}

omit [Oracle σ] in
theorem oracle_checkDeadline (options : Options) (p : Progress σ) :
    ((checkDeadline options).run p).2.oracle = p.oracle := by
  rcases checkDeadline_cases options p with ⟨looks, run⟩ | ⟨d, -, -, run⟩ <;> rw [run]

theorem oracle_query {encoding : Encoding} {p : Progress σ} {s : σ}
    (load : encoding.load.run p.oracle = (.ok (), s)) (backend : String) :
    ((query options backend encoding).run p).2.oracle = ((Oracle.check : Call σ Verdict).run s).2 := by
  rw [query, run_bind_ok (ask_run p load)]
  rcases asked : (Oracle.check : Call σ Verdict).run s with ⟨e | verdict, s'⟩
  · rw [run_bind_error (by rw [ask_run_eq, asked]; rfl)]
  · rw [run_bind_ok (ask_run _ asked), run_modify_bind]
    cases verdict with
    | sat | unsat => rfl
    | unknown reason =>
      have kept := oracle_checkDeadline options
        { p with oracle := s', queries := p.queries + 1 }
      rcases run : (checkDeadline options).run { p with oracle := s', queries := p.queries + 1 } with
        ⟨e | ⟨⟩, p'⟩ <;> rw [run] at kept
      · rw [run_bind_error run]
        exact kept
      · rw [run_bind_ok run]
        exact kept

theorem heard_consistent {requirements : List Requirement} {encoding : Encoding}
    (encoded : Requirement.encodeAll options.maxHorizon requirements = .ok encoding)
    (loads : ∀ command ∈ encoding.commands, command.Loads) {lines : List String} {s : Session}
    (listens : s.Listens lines) {p : Progress Backend} (process : p.oracle = .process s)
    (unset : p.deadline = none) :
    ∃ s', ((consistent options requirements).run p).2.oracle = .process s' ∧
      s'.heard.toList = lines ++ [Command.reset.text, Command.setLogic.text] ++
        encoding.commands.map Command.text ++ [Command.checkSat.text] := by
  obtain ⟨s₁, reset, listens⟩ := listens.reset
  obtain ⟨s₂, load, listens⟩ := listens.load loads
  have reset : (Oracle.reset : Call Backend Unit).run p.oracle = (.ok (), .process s₁) := by
    rw [process]
    exact Backend.dispatch_run_process _ reset
  have unlimited : (limitCheck (Oracle.backend p.oracle)).run { p with oracle := Backend.process s₁ } = _ :=
    limitCheck_none unset
  refine ⟨((Oracle.check : Call Session Verdict).run s₂).2, ?_, listens.check⟩
  rw [consistent_eq, run_bind_ok (checkDeadline_none unset), encoded, run_bind_ok (run_ofExcept _ _),
    run_get_bind, run_bind_ok (ask_run _ reset), run_bind_ok unlimited]
  refine (oracle_query (Backend.load_run_process load) _).trans ?_
  exact (Backend.lockstep_dispatch Oracle.check Oracle.check rfl).2

theorem outlasts_script (text : Option String) :
    Outlasts options (fun p : Progress σ => p.script = text) fun _ p => p.script = text := by
  refine .ofAsk (fun backend call p kept => ?_) ?_ (fun _ _ => id) (fun _ => id) fun _ _ _ => id
  · rw [ask_run_eq]
    rcases call.run p.oracle with ⟨e | a, s⟩ <;> exact kept
  · exact ensures_checkDeadline (fun _ _ => id) fun _ _ kept _ _ => kept

theorem script_consistent (options : Options) (requirements : List Requirement) (p : Progress σ) :
    ((consistent options requirements).run p).2.script = p.script := by
  have ends : Ends _ _ ((consistent options requirements).run p) :=
    (outlasts_script p.script).consistent (fun _ _ _ => id) rfl
  rcases run : (consistent options requirements).run p with ⟨e | a, p'⟩ <;> rw [run] at ends <;> exact ends

end Analysis

def AnalysisError.OfInput : AnalysisError → Prop
  | .unreadable _ _ | .unencodable _ _ => True
  | .oracle _ _ | .deadline _ => False

theorem Requirement.readAndEncode_eq_ok {options : Options} {sources : List String} {encoding : Encoding}
    (accepted : readAndEncode options sources = .ok encoding) :
    ∃ requirements, readAll options.maxNesting sources = .ok requirements ∧
      encodeAll options.maxHorizon requirements = .ok encoding := by
  cases read : readAll options.maxNesting sources with
  | error e =>
    rw [readAndEncode, read] at accepted
    cases accepted
  | ok requirements =>
    rw [readAndEncode, read] at accepted
    exact ⟨requirements, rfl, accepted⟩

theorem Requirement.ofInput_of_readAndEncode {options : Options} {sources : List String} {e : AnalysisError}
    (refused : readAndEncode options sources = .error e) : e.OfInput := by
  cases read : readAll options.maxNesting sources with
  | error e' =>
    obtain ⟨index, diagnostic, rfl⟩ := unreadable_of_readAll read
    rw [readAndEncode, read] at refused
    cases refused
    trivial
  | ok requirements =>
    rw [readAndEncode, read] at refused
    obtain ⟨index, error, rfl⟩ := unencodable_of_encodeAll refused
    trivial

namespace CommandLine

theorem parseAll_eq (maxNesting : Nat) (sources : List String) :
    parseAll maxNesting sources =
      (Requirement.readAll maxNesting sources).map (List.map Requirement.formula) := by
  rw [Requirement.readAll, ← mapM_map_result, parseAll]
  congr 1
  funext position
  obtain ⟨source, index⟩ := position
  dsimp only
  cases Formula.parse maxNesting source <;> rfl

theorem encodeScript_eq (options : Options) (sources : List String) :
    encodeScript options sources = (Requirement.readAndEncode options sources).map Encoding.script := by
  rw [encodeScript, Requirement.readAndEncode, parseAll_eq]
  cases read : Requirement.readAll options.maxNesting sources with
  | error e => rfl
  | ok requirements =>
    -- What was read is numbered by its positions, as the fold over the formulas numbers them.
    change (List.foldlM _ _ (requirements.map Requirement.formula).zipIdx >>= _) =
      (Requirement.encodeAll options.maxHorizon requirements).map Encoding.script
    rw [Requirement.zipIdx_map_formula read, List.foldlM_map]
    change (Requirement.encodeAll options.maxHorizon requirements >>= _) = _
    cases Requirement.encodeAll options.maxHorizon requirements <;> rfl

end CommandLine

theorem SolverChoice.start_listens {choice : SolverChoice} {host : Host} {responder : Responder}
    (external : choice ≠ .internal) (installed : host choice.name = some responder) (timeout : Nat) :
    ∃ s, choice.start host timeout = .ok (.process s) ∧ s.Listens [Command.setLogic.text] := by
  obtain ⟨label, arguments, limitOption, process⟩ := start_eq_process external timeout
  obtain ⟨s, started, listens⟩ := Session.start_listens installed arguments limitOption
  refine ⟨s, ?_, listens⟩
  rw [process, started]

namespace Analysis

variable {σ : Type} [Oracle σ] {options : Options} {sources : List String} {encoding : Encoding}

omit [Oracle σ] in
theorem FailsByOracle.not_ofInput {α : Type} {x : Analysis σ α} (h : FailsByOracle options x)
    {p : Progress σ} {e : AnalysisError} (failed : (x.run p).1 = .error e)
    (timely : p.clock.Timely options.timeout p.deadline) : ¬ e.OfInput := by
  have ends : Ends _ _ (x.run p) := h timely
  rcases run : x.run p with ⟨e' | a, p'⟩ <;> rw [run] at ends failed <;> cases failed
  obtain ⟨backend, failure, rfl⟩ := ends
  exact id

theorem check_run_of_encodeAll {requirements : List Requirement}
    (read : Requirement.readAll options.maxNesting sources = .ok requirements)
    (encoded : Requirement.encodeAll options.maxHorizon requirements = .ok encoding) (p : Progress σ) :
    ∃ deadline looks, (check options sources).run p = (consistent options requirements).run
      { p with
        clock := p.clock.later looks
        deadline
        script := if options.keepScript then some encoding.script else p.script } ∧
      Clock.SetAt options.timeout (p.clock.reading p.clock.looks) deadline := by
  obtain ⟨deadline, looks, limited, set⟩ := setDeadline_run options
    { p with script := if options.keepScript then some encoding.script else p.script }
  refine ⟨deadline, looks, ?_, set⟩
  rw [check, run_bind_ok (prepare_run_of_encodeAll read encoded p), run_bind_ok limited]

theorem ofInput_check_iff (options : Options) (sources : List String) {p : Progress σ}
    (timely : p.clock.Timely options.timeout p.deadline) (e : AnalysisError) :
    Requirement.readAndEncode options sources = .error e ↔
      e.OfInput ∧ ((check options sources).run p).1 = .error e := by
  cases accepted : Requirement.readAndEncode options sources with
  | error e' =>
    have input := Requirement.ofInput_of_readAndEncode accepted
    obtain ⟨deadline, clock, refuses⟩ := check_refuses accepted timely
    rw [refuses]
    constructor
    · rintro ⟨⟩
      exact ⟨input, rfl⟩
    · rintro ⟨-, ⟨⟩⟩
      rfl
  | ok encoding =>
    obtain ⟨requirements, read, encoded⟩ := Requirement.readAndEncode_eq_ok accepted
    refine ⟨nofun, fun ⟨input, failed⟩ => ?_⟩
    rw [check, run_bind_ok (prepare_run_of_encodeAll read encoded p)] at failed
    have fails : FailsByOracle options
        (do setDeadline options; consistent options requirements : Analysis σ Bool) :=
      failsByOracle_setDeadline.bind fun _ => failsByOracle_of_encodeAll encoded
    exact absurd input (fails.not_ofInput failed timely)

theorem script_check (keep : options.keepScript = true) (sources : List String) (s : σ) {clock : Clock}
    (inTime : clock.InTime options.timeout) :
    ((check options sources).run { oracle := s, clock }).2.script =
      ((Requirement.readAndEncode options sources).map Encoding.script).toOption := by
  cases accepted : Requirement.readAndEncode options sources with
  | error e =>
    obtain ⟨deadline, clock', refuses⟩ := check_refuses accepted (p := { oracle := s, clock }) inTime.timely
    rw [refuses]
    rfl
  | ok encoding =>
    obtain ⟨requirements, read, encoded⟩ := Requirement.readAndEncode_eq_ok accepted
    obtain ⟨deadline, looks, run, -⟩ := check_run_of_encodeAll read encoded { oracle := s, clock }
    rw [run, script_consistent, keep]
    rfl

theorem heard_check (unlimited : options.timeout = 0)
    (accepted : Requirement.readAndEncode options sources = .ok encoding) {s : Session}
    (listens : s.Listens [Command.setLogic.text]) (clock : Clock) :
    ∃ s', ((check options sources).run { oracle := Backend.process s, clock }).2.oracle = .process s' ∧
      unlines (Session.firstQuery s'.heard.toList) = encoding.script := by
  obtain ⟨requirements, read, encoded⟩ := Requirement.readAndEncode_eq_ok accepted
  have loadable := Requirement.loadable_of_encodeAll (Requirement.allAtoms_of_readAll read) encoded
  obtain ⟨deadline, looks, run, set⟩ := check_run_of_encodeAll read encoded
    { oracle := Backend.process s, clock }
  rw [unlimited] at set
  obtain ⟨s', process, heard⟩ := heard_consistent encoded loadable.loads listens
    (p := { oracle := .process s, clock := clock.later looks, deadline, script := _ }) rfl set.eq_none
  exact ⟨s', run ▸ process, Encoding.unlines_firstQuery loadable heard⟩

end Analysis

namespace CommandLine

/-- The script that is printed of a batch, the script that a check of it keeps and the lines of its query
that a solver process hears are one text, whatever the oracle and the process answer. If a text cannot be
read or a formula cannot be encoded, then the printing and both checks stop at the same error. -/
theorem shown_script_is_query {σ : Type} [Oracle σ] {options : Options} (unlimited : options.timeout = 0)
    {host : Host} {choice : SolverChoice} {responder : Responder} (external : choice ≠ .internal)
    (installed : host choice.name = some responder) (sources : List String) (s : σ) (clock : Clock) :
    let shown := encodeScript options sources
    let kept := (Analysis.check { options with keepScript := true } sources).run { oracle := s, clock }
    let talk := Outcome.check host clock choice options sources
    kept.2.script = shown.toOption ∧
    (∀ text, shown = .ok text → ∃ session, talk.backend = some (.process session) ∧
      unlines (Session.firstQuery session.heard.toList) = text) ∧
    ∀ e, (shown = .error e ↔ e.OfInput ∧ kept.1 = .error e) ∧
      (shown = .error e ↔ e.OfInput ∧ talk.result = .error e) := by
  intro shown kept talk
  have inTime : clock.InTime options.timeout := unlimited ▸ clock.inTime_zero
  obtain ⟨session, started, listens⟩ := SolverChoice.start_listens external installed options.timeout
  have shown_eq : shown = (Requirement.readAndEncode options sources).map Encoding.script :=
    encodeScript_eq options sources
  have shown_error (e : AnalysisError) :
      shown = .error e ↔ Requirement.readAndEncode options sources = .error e := by
    rw [shown_eq]
    cases Requirement.readAndEncode options sources <;> simp [Except.map]
  have talk_eq : talk = Outcome.ofAnalysis host clock choice options (Analysis.check options sources) := rfl
  rw [Outcome.ofAnalysis, started] at talk_eq
  refine ⟨?_, fun text printed => ?_, fun e => ⟨?_, ?_⟩⟩
  · rw [shown_eq]
    exact Analysis.script_check rfl sources s inTime
  · cases accepted : Requirement.readAndEncode options sources with
    | error e =>
      rw [(shown_error e).2 accepted] at printed
      cases printed
    | ok encoding =>
      rw [shown_eq, accepted] at printed
      obtain ⟨session', process, same⟩ := Analysis.heard_check unlimited accepted listens clock
      refine ⟨session', ?_, same.trans (Except.ok.inj printed)⟩
      rw [talk_eq]
      exact congrArg some process
  · rw [shown_error]
    exact Analysis.ofInput_check_iff { options with keepScript := true } sources inTime.timely e
  · rw [shown_error, talk_eq]
    exact Analysis.ofInput_check_iff options sources inTime.timely e

theorem shown_script_is_query_unanswered :
    let host : Host := fun program => if program = "z3" then some (.ofReplies []) else none
    let options : Options := { maxHorizon := 5 }
    let sources := ["a U[0,1] b", "!a"]
    let text := "(set-logic QF_UF)\n(declare-const |b@0| Bool)\n(declare-const |a@0| Bool)\n" ++
      "(declare-const |b@1| Bool)\n(assert (or |b@0| (and |a@0| |b@1|)))\n(assert (not |a@0|))\n(check-sat)\n"
    SolverChoice.z3 ≠ .internal ∧ host SolverChoice.z3.name = some (.ofReplies []) ∧
      encodeScript options sources = .ok text ∧
      ((Analysis.check { options with keepScript := true } sources).run
        { oracle := ({} : Clausal), clock := .still 0 }).2.script = some text ∧
      (∃ session, (Outcome.check host (.still 0) .z3 options sources).backend = some (.process session) ∧
        unlines (Session.firstQuery session.heard.toList) = text) ∧
      ∃ e, encodeScript options ["a", "F[0,9] b"] = .error e ∧ e.OfInput ∧
        (Outcome.check host (.still 0) .z3 options ["a", "F[0,9] b"]).result = .error e := by
  intro host options sources text
  have unlimited : options.timeout = 0 := rfl
  have external : SolverChoice.z3 ≠ .internal := nofun
  have installed : host SolverChoice.z3.name = some (.ofReplies []) := rfl
  have printed : encodeScript options sources = .ok text := eq_ok_of_toOption (by decide +kernel)
  have refused : (encodeScript options ["a", "F[0,9] b"]).toOption = none := by decide +kernel
  obtain ⟨kept, heard, -⟩ := shown_script_is_query unlimited external installed sources ({} : Clausal)
    (.still 0)
  obtain ⟨-, -, errors⟩ := shown_script_is_query unlimited external installed ["a", "F[0,9] b"]
    ({} : Clausal) (.still 0)
  refine ⟨external, installed, printed, ?_, heard text printed, ?_⟩
  · rw [kept, printed]
    rfl
  · cases failed : encodeScript options ["a", "F[0,9] b"] with
    | ok text =>
      rw [failed] at refused
      cases refused
    | error e => exact ⟨e, rfl, (errors e).2.1 failed⟩

end CommandLine
end MissionTime
