import MissionTime.Oracle.Session
import MissionTime.Proofs.Consistency
import MissionTime.Proofs.PrintedTerms

/-! Conversations with a solver process that decides. Every command that an analysis sends is understood
by the process; from what it has understood follows what it answers. -/
namespace MissionTime
open Runs Text

namespace SolverLanguage

namespace Reading

theorem step_lineFeed (r : Reading) : r.step '\n' = none := by
  obtain ⟨mode, items, around⟩ := r
  cases mode <;> rfl

theorem lineFeed_notMem_of_run {text : List Char} {r r' : Reading} (h : run text r = some r') :
    '\n' ∉ text := by
  induction text generalizing r with
  | nil => exact List.not_mem_nil
  | cons c text ih =>
    cases first : r.step c with
    | none =>
      rw [run, List.foldlM_cons, first] at h
      cases h
    | some next =>
      rw [run_cons first] at h
      rw [List.mem_cons, not_or]
      refine ⟨?_, ih h⟩
      rintro rfl
      rw [step_lineFeed] at first
      cases first

theorem run_command (c : Char) (name : List Char) (letters : (c :: name).all isWordChar = true)
    {rest : List Char} (delimited : Delimited rest) :
    run ('(' :: c :: (name ++ rest)) {} =
      run rest ⟨.gap, [.word (String.ofList (c :: name))], [[]]⟩ := by
  rw [run_opening, run_word c name letters delimited]

end Reading

theorem command?_of_run {line : String} {e : Sexp}
    (h : Reading.run line.toList {} = some ⟨.gap, [e], []⟩) : command? line = e.command? := by
  have read : Sexp.ofLine? line.toList = some e := by
    rw [Sexp.ofLine?, ← Reading.run, h]
    rfl
  rw [command?, read]
  rfl

theorem lineFeed_notMem_of_command? {line : String} {command : Command}
    (h : command? line = some command) : '\n' ∉ line.toList := by
  unfold command? Sexp.ofLine? at h
  rw [← Reading.run] at h
  cases read : Reading.run line.toList {} with
  | none =>
    rw [read] at h
    cases h
  | some r => exact Reading.lineFeed_notMem_of_run read

theorem command?_setLogic : command? Command.setLogic.text = some .setLogic := by
  have read : Reading.run Command.setLogic.text.toList {} =
      some ⟨.gap, [.list [.word "set-logic", .word "QF_UF"]], []⟩ :=
    (Reading.run_command 's' "et-logic".toList (by decide) .space).trans rfl
  rw [command?_of_run read]
  rfl

theorem command?_checkSat : command? Command.checkSat.text = some .checkSat := by
  have read : Reading.run Command.checkSat.text.toList {} = some ⟨.gap, [.list [.word "check-sat"]], []⟩ :=
    Reading.run_command 'c' "heck-sat".toList (by decide) .closing
  rw [command?_of_run read]
  rfl

theorem command?_reset : command? Command.reset.text = some .reset := by
  have read : Reading.run Command.reset.text.toList {} = some ⟨.gap, [.list [.word "reset"]], []⟩ :=
    Reading.run_command 'r' "eset".toList (by decide) .closing
  rw [command?_of_run read]
  rfl

theorem command?_exit : command? Command.exit.text = none := by
  have read : Reading.run Command.exit.text.toList {} = some ⟨.gap, [.list [.word "exit"]], []⟩ :=
    Reading.run_command 'e' "xit".toList (by decide) .closing
  rw [command?_of_run read]
  rfl

theorem command?_declare {name : String} (quotable : ∀ c ∈ name.toList, isQuotable c = true) :
    command? (Command.declare name).text = some (.declare name) := by
  have text : (Command.declare name).text.toList =
      '(' :: 'd' :: ("eclare-const".toList ++ ' ' :: Term.quoteOnto name (' ' :: "Bool)".toList)) := by
    have parts : (Command.declare name).text = "(declare-const " ++ Term.quote name ++ " Bool)" := rfl
    simp [parts, Term.quote, Term.quoteOnto]
  have read : Reading.run (Command.declare name).text.toList {} =
      some ⟨.gap, [.list [.word "declare-const", .quoted name, .word "Bool"]], []⟩ := by
    rw [text, Reading.run_command 'd' _ (by decide) .space, Reading.run_space,
      Reading.run_quoteOnto quotable .space]
    rfl
  rw [command?_of_run read]
  rfl

theorem command?_assert {t : Term} (quotable : ∀ name ∈ t.names, ∀ c ∈ name.toList, isQuotable c = true) :
    command? (Command.assert t).text = some (.assert t.norm) := by
  have text : (Command.assert t).text.toList =
      '(' :: 'a' :: ("ssert".toList ++ ' ' :: t.printOnto [')']) := by
    have parts : (Command.assert t).text = "(assert " ++ t.text ++ ")" := rfl
    simpa [parts, Term.text, Term.print] using t.printOnto_append [] [')']
  have read : Reading.run (Command.assert t).text.toList {} =
      some ⟨.gap, [.list [.word "assert", .ofTerm t]], []⟩ := by
    rw [text, Reading.run_command 'a' _ (by decide) .space, Reading.run_space,
      Reading.readBack quotable .closing]
    rfl
  rw [command?_of_run read, Sexp.command?, Sexp.term?_ofTerm]
  rfl

theorem text_ne_of_command? {command other meaning : Command}
    (understood : command? command.text = some meaning) (known : command? other.text = some other)
    (differs : meaning ≠ other) : command.text ≠ other.text := by
  intro same
  rw [same, known] at understood
  exact differs (Option.some.inj understood).symm

theorem read_concat {heard : List String} {line : String} {context context' : Context} {command : Command}
    (before : read heard = some context) (understood : command? line = some command)
    (done : context.run command = some context') : read (heard ++ [line]) = some context' := by
  rw [read, List.foldlM_append, ← read, before]
  simp [understood, done]

end SolverLanguage

open SolverLanguage

theorem Text.lines_eq_singleton {text : String} (h : '\n' ∉ text.toList) : lines text = [text] := by
  rw [lines, List.splitOn_eq_singleton h, List.map_singleton, String.ofList_toList]

/-- Asked to check, the process prints one line: whether the terms asserted since the last reset can be
true together. This is said of a process that has understood all it has heard. -/
def Responder.Decides (responder : Responder) : Prop :=
  ∀ heard context, read heard = some context → context.logic = true →
    (Term.Satisfiable context.asserted →
      responder.reply (heard ++ [Command.checkSat.text]) = .print "sat") ∧
    (¬ Term.Satisfiable context.asserted →
      responder.reply (heard ++ [Command.checkSat.text]) = .print "unsat")

namespace Session

/-- A session without a time limit, with a process that decides and has understood all it has heard, and
whose answers have all been taken. -/
structure Understands (context : Context) (s : Session) : Prop where
  running : s.running = true
  taken : s.output = []
  unlimited : s.limit = none
  decides : s.responder.Decides
  understood : read s.heard.toList = some context

variable {context context' : Context} {s : Session} {command meaning : Command}

theorem declare_eq (name : String) :
    (Oracle.declare name : Call Session Unit) = send (Command.declare name).text := rfl

theorem assertTerm_eq (t : Term) :
    (Oracle.assertTerm t : Call Session Unit) = send (Command.assert t).text := rfl

theorem check_eq : Session.check = (do
    send Command.checkSat.text
    let line ← receive Command.checkSat.text
    MonadExcept.ofExcept (verdictOf (← get).program line)) := rfl

theorem reset_eq : Session.reset = (do
    send Command.reset.text
    sendLimit
    send Command.setLogic.text) := rfl

theorem start_of_setLogic {host : Host} {program : String} {responder : Responder} {arguments : List String}
    {limitOption : Option String} {s : Session} (installed : host program = some responder)
    (run : (send Command.setLogic.text).run { program, arguments, responder, limitOption } = (.ok (), s)) :
    start host program arguments limitOption = .ok s := by
  change (send "(set-logic QF_UF)").run _ = _ at run
  simp only [start, installed, run]
  rfl

theorem send_eq (running : s.running = true) (line : String) :
    (send line).run s = (.ok (), (lines line).foldl hear s) := by
  rw [send, run_get_bind, if_pos running]
  rfl

theorem send_run_silent (running : s.running = true) (understood : command? command.text = some meaning)
    (silent : meaning ≠ .checkSat) :
    (send command.text).run s = (.ok (), { s with heard := s.heard.push command.text }) := by
  have question : command.text ≠ "(check-sat)" := text_ne_of_command? understood command?_checkSat silent
  have farewell : command.text ≠ "(exit)" := by
    intro same
    rw [same] at understood
    cases command?_exit.symm.trans understood
  have heard : s.hear command.text = { s with heard := s.heard.push command.text } := by
    simp only [hear, running, if_true, if_neg question, if_neg farewell]
  rw [send_eq running, lines_eq_singleton (lineFeed_notMem_of_command? understood), List.foldl_cons,
    List.foldl_nil, heard]

theorem send_run (h : s.Understands context) (understood : command? command.text = some meaning)
    (done : context.run meaning = some context') (silent : meaning ≠ .checkSat) :
    ∃ s', (send command.text).run s = (.ok (), s') ∧ s'.Understands context' := by
  refine ⟨_, send_run_silent h.running understood silent, ?_⟩
  refine ⟨h.running, h.taken, h.unlimited, h.decides, ?_⟩
  rw [Array.toList_push]
  exact read_concat h.understood understood done

theorem sendLimit_run (unlimited : s.limit = none) : sendLimit.run s = (.ok (), s) := by
  rw [sendLimit, run_get_bind, run_get_bind, unlimited]
  cases s.limitOption <;> rfl

theorem reset_run (h : s.Understands context) :
    ∃ s', (Oracle.reset : Call Session Unit).run s = (.ok (), s') ∧ s'.Understands { logic := true } := by
  obtain ⟨s₁, run₁, h₁⟩ := send_run h command?_reset rfl nofun
  obtain ⟨s₂, run₂, h₂⟩ := send_run h₁ command?_setLogic rfl nofun
  refine ⟨s₂, ?_, h₂⟩
  change Session.reset.run s = _
  rw [reset_eq, run_bind_ok run₁, run_bind_ok (sendLimit_run h₁.unlimited), run₂]

theorem declare_run {names : List String} {terms : List Term} (h : s.Understands ⟨true, names, terms⟩)
    {name : String} (quotable : ∀ c ∈ name.toList, isQuotable c = true) (free : declarable name = true)
    (fresh : name ∉ names) :
    ∃ s', (Oracle.declare name : Call Session Unit).run s = (.ok (), s') ∧
      s'.Understands ⟨true, names ++ [name], terms⟩ := by
  rw [declare_eq]
  exact send_run h (command?_declare quotable) (if_pos ⟨rfl, free, fresh⟩) nofun

theorem assertTerm_run {names : List String} {terms : List Term} (h : s.Understands ⟨true, names, terms⟩)
    {t : Term} (quotable : ∀ name ∈ t.names, ∀ c ∈ name.toList, isQuotable c = true)
    (declared : t.names ⊆ names) :
    ∃ s', (Oracle.assertTerm t : Call Session Unit).run s = (.ok (), s') ∧
      s'.Understands ⟨true, names, terms ++ [t.norm]⟩ := by
  have known : ∀ name ∈ t.norm.names, name ∈ names := by
    rw [Term.names_norm]
    exact fun name mem => declared mem
  rw [assertTerm_eq]
  exact send_run h (command?_assert quotable) (if_pos ⟨rfl, known⟩) nofun

theorem check_run_of_reply (h : s.Understands context) (ready : context.logic = true) {answer : String}
    {verdict : Verdict} (single : lines answer = [answer])
    (reply : s.responder.reply (s.heard.toList ++ [Command.checkSat.text]) = .print answer)
    (means : verdictOf s.program answer = .ok verdict) :
    ∃ s', (Oracle.check : Call Session Verdict).run s = (.ok verdict, s') ∧ s'.Understands context := by
  set asked : Session := { s with heard := s.heard.push Command.checkSat.text } with asked_eq
  have heard : s.hear Command.checkSat.text = { asked with output := [answer] } := by
    have question : (Command.checkSat.text = "(check-sat)") = True := eq_true rfl
    simp only [hear, h.running, if_true, question, Array.toList_push, reply, h.taken, List.nil_append, single,
      asked_eq]
  have sent : (send Command.checkSat.text).run s = (.ok (), { asked with output := [answer] }) := by
    rw [send_eq h.running, lines_eq_singleton (lineFeed_notMem_of_command? command?_checkSat),
      List.foldl_cons, List.foldl_nil, heard]
  have received : (receive Command.checkSat.text).run { asked with output := [answer] } =
      (.ok answer, { asked with output := [] }) := rfl
  refine ⟨{ asked with output := [] }, ?_, h.running, rfl, h.unlimited, h.decides, ?_⟩
  · change Session.check.run s = _
    rw [check_eq, run_bind_ok sent, run_bind_ok received, run_get_bind, run_ofExcept, means]
  · rw [asked_eq, Array.toList_push]
    exact read_concat h.understood command?_checkSat (if_pos ready)

theorem check_run (h : s.Understands context) (ready : context.logic = true) :
    ∃ verdict s', (Oracle.check : Call Session Verdict).run s = (.ok verdict, s') ∧
      s'.Understands context ∧
      (verdict = .sat ∧ Term.Satisfiable context.asserted ∨
        verdict = .unsat ∧ ¬ Term.Satisfiable context.asserted) := by
  obtain ⟨sat, unsat⟩ := h.decides s.heard.toList context h.understood ready
  by_cases satisfiable : Term.Satisfiable context.asserted
  · have means : verdictOf s.program "sat" = .ok .sat := rfl
    obtain ⟨s', run, h'⟩ :=
      check_run_of_reply h ready (lines_eq_singleton (by decide)) (sat satisfiable) means
    exact ⟨.sat, s', run, h', .inl ⟨rfl, satisfiable⟩⟩
  · have means : verdictOf s.program "unsat" = .ok .unsat := rfl
    obtain ⟨s', run, h'⟩ :=
      check_run_of_reply h ready (lines_eq_singleton (by decide)) (unsat satisfiable) means
    exact ⟨.unsat, s', run, h', .inr ⟨rfl, satisfiable⟩⟩

theorem start_understands {host : Host} {program : String} {responder : Responder}
    (installed : host program = some responder) (decides : responder.Decides) (arguments : List String)
    (limitOption : Option String) :
    ∃ s, start host program arguments limitOption = .ok s ∧ s.Understands { logic := true } := by
  have silent : Understands {} { program, arguments, responder, limitOption } :=
    ⟨rfl, rfl, rfl, decides, rfl⟩
  obtain ⟨s, run, h⟩ := send_run silent command?_setLogic rfl nofun
  exact ⟨s, start_of_setLogic installed run, h⟩

end Session

end MissionTime
