import MissionTime.Proofs.Conversation

/-! Runs of calls on a session, whatever the process answers. Every call sends the commands that its session
makes of it, and a process that is still there afterwards has heard them all, line by line. A session keeps
the limit that was last asked for. -/
namespace MissionTime
open Runs Text

namespace Session

inductive Request
  | declare (name : String)
  | assertTerm (term : Term)
  | check
  | reset
  | setTimeout (seconds : Nat)

def perform (s : Session) : Request → Session
  | .declare name => ((Oracle.declare name : Call Session Unit).run s).2
  | .assertTerm term => ((Oracle.assertTerm term : Call Session Unit).run s).2
  | .check => ((Oracle.check : Call Session Verdict).run s).2
  | .reset => ((Oracle.reset : Call Session Unit).run s).2
  | .setTimeout seconds => ((Oracle.setTimeout seconds : Call Session Unit).run s).2

/-- The session after a run of calls, which goes on after failures. -/
def after (s : Session) (requests : List Request) : Session := requests.foldl perform s

def limitOf (seconds : Nat) : Option Nat := if 0 < seconds then some (milliseconds seconds) else none

def limitCommands (limitOption : Option String) (limit : Option Nat) : List Command :=
  match limitOption, limit with
  | some keyword, some milliseconds => [.setOption keyword milliseconds]
  | _, _ => []

def commandsOf (s : Session) : Request → List Command
  | .declare name => [.declare name]
  | .assertTerm term => [.assert term]
  | .check => [.checkSat]
  | .reset => .reset :: (limitCommands s.limitOption s.limit ++ [.setLogic])
  | .setTimeout seconds => limitCommands s.limitOption (limitOf seconds)

def sent (s : Session) : List Request → List Command
  | [] => []
  | request :: requests => s.commandsOf request ++ (s.perform request).sent requests

/-- Commands as the lines that a process hears. A command with line feeds in it is heard as several lines. -/
def linesOf (commands : List Command) : List String := commands.flatMap fun command => lines command.text

variable {s : Session}

theorem hear_cases (s : Session) (line : String) :
    s.running = false ∧ s.hear line = s ∨ s.running = true ∧ ∃ output errors running,
      s.hear line = { s with heard := s.heard.push line, output, errors, running } := by
  cases alive : s.running with
  | false => exact .inl ⟨rfl, by simp [hear, alive]⟩
  | true =>
    refine .inr ⟨rfl, ?_⟩
    simp only [hear, alive, if_true]
    split_ifs
    · split <;> exact ⟨_, _, _, rfl⟩
    · exact ⟨_, _, _, rfl⟩
    · exact ⟨_, _, _, rfl⟩

structure Passes (heard : List String) (s s' : Session) : Prop where
  limit : s'.limit = s.limit
  limitOption : s'.limitOption = s.limitOption
  heard : s'.running = true → s.running = true ∧ s'.heard.toList = s.heard.toList ++ heard

theorem Passes.refl (s : Session) : Passes [] s s :=
  ⟨rfl, rfl, fun running => ⟨running, (List.append_nil _).symm⟩⟩

theorem Passes.trans {heard heard' : List String} {s s' s'' : Session} (first : Passes heard s s')
    (next : Passes heard' s' s'') : Passes (heard ++ heard') s s'' := by
  refine ⟨next.limit.trans first.limit, next.limitOption.trans first.limitOption, fun running => ?_⟩
  obtain ⟨between, lines'⟩ := next.heard running
  obtain ⟨alive, lines₁⟩ := first.heard between
  exact ⟨alive, by rw [lines', lines₁, List.append_assoc]⟩

theorem passes_hear (s : Session) (line : String) : Passes [line] s (s.hear line) := by
  rcases hear_cases s line with ⟨dead, same⟩ | ⟨alive, output, errors, running, same⟩ <;> rw [same]
  · exact ⟨rfl, rfl, fun running => by rw [dead] at running; cases running⟩
  · exact ⟨rfl, rfl, fun _ => ⟨alive, Array.toList_push⟩⟩

theorem passes_foldl_hear (heard : List String) (s : Session) : Passes heard s (heard.foldl hear s) := by
  induction heard generalizing s with
  | nil => exact .refl s
  | cons line heard ih => exact (passes_hear s line).trans (ih (s.hear line))

/-- A call that writes these commands, and fails only if the process is gone. -/
structure Utters (x : Call Session Unit) (s : Session) (commands : List Command) : Prop
    extends Passes (linesOf commands) s (x.run s).2 where
  succeeds : (x.run s).2.running = true → (x.run s).1 = .ok ()

theorem utters_pure (s : Session) : Utters (pure ()) s [] := ⟨.refl s, fun _ => rfl⟩

theorem Utters.bind {x : Call Session Unit} {f : Unit → Call Session Unit} {commands commands' : List Command}
    (first : Utters x s commands) (next : Utters (f ()) (x.run s).2 commands') :
    Utters (x >>= f) s (commands ++ commands') := by
  obtain ⟨passes, succeeds⟩ := first
  obtain ⟨passes', succeeds'⟩ := next
  rcases run : x.run s with ⟨e | a, s'⟩ <;> rw [run] at passes succeeds passes' succeeds'
  · have gone : s'.running ≠ true := by
      intro running
      cases succeeds running
    constructor <;> rw [run_bind_error run]
    · exact ⟨passes.limit, passes.limitOption, fun running => absurd running gone⟩
    · exact fun running => absurd running gone
  · constructor <;> rw [run_bind_ok run]
    · rw [linesOf, List.flatMap_append]
      exact passes.trans passes'
    · exact succeeds'

theorem utters_send (command : Command) (s : Session) : Utters (send command.text) s [command] := by
  cases alive : s.running with
  | false =>
    have run : (send command.text).run s = (.error .brokenPipe, s) := by
      rw [send, run_get_bind, alive]
      rfl
    have gone : s.running ≠ true := by simp [alive]
    constructor <;> rw [run]
    · exact ⟨rfl, rfl, fun running => absurd running gone⟩
    · exact fun running => absurd running gone
  | true =>
    constructor <;> rw [send_eq alive]
    · rw [linesOf, List.flatMap_singleton]
      exact passes_foldl_hear (lines command.text) s
    · exact fun _ => rfl

theorem Utters.congr {x y : Call Session Unit} {commands : List Command} (same : x.run s = y.run s)
    (h : Utters y s commands) : Utters x s commands := by
  obtain ⟨passes, succeeds⟩ := h
  rw [← same] at passes succeeds
  exact ⟨passes, succeeds⟩

theorem utters_sendLimit (s : Session) : Utters sendLimit s (limitCommands s.limitOption s.limit) := by
  cases option : s.limitOption with
  | none => exact .congr (by rw [sendLimit, run_get_bind, run_get_bind, option]) (utters_pure s)
  | some keyword =>
    cases limit : s.limit with
    | none => exact .congr (by rw [sendLimit, run_get_bind, run_get_bind, option, limit]) (utters_pure s)
    | some milliseconds =>
      have sends : sendLimit.run s = (send (Command.setOption keyword milliseconds).text).run s := by
        rw [sendLimit, run_get_bind, run_get_bind, option, limit]
        rfl
      exact .congr sends (utters_send _ s)

theorem utters_reset (s : Session) : Utters Session.reset s (s.commandsOf .reset) := by
  have first := utters_send .reset s
  have limit := utters_sendLimit ((send Command.reset.text).run s).2
  rw [first.limit, first.limitOption] at limit
  exact first.bind (limit.bind (utters_send .setLogic _))

theorem receive_run_snd (command : String) (s : Session) :
    ∃ output errors, ((receive command).run s).2 = { s with output, errors } := by
  rw [receive, run_get_bind]
  cases s.output with
  | nil => exact ⟨[], "", rfl⟩
  | cons line output => exact ⟨output, s.errors, rfl⟩

theorem check_run_snd (s : Session) : ∃ output errors,
    (Session.check.run s).2 = { ((send Command.checkSat.text).run s).2 with output, errors } := by
  rcases run : (send Command.checkSat.text).run s with ⟨e | a, s'⟩
  · rw [check_eq, run_bind_error run]
    exact ⟨s'.output, s'.errors, rfl⟩
  · rw [check_eq, run_bind_ok run]
    obtain ⟨output, errors, left⟩ := receive_run_snd Command.checkSat.text s'
    rcases received : (receive Command.checkSat.text).run s' with ⟨e | line, s''⟩ <;> rw [received] at left
    · rw [run_bind_error received]
      exact ⟨output, errors, left⟩
    · rw [run_bind_ok received, run_get_bind, run_ofExcept]
      exact ⟨output, errors, left⟩

def Request.secondsAfter (seconds : Nat) : Request → Nat
  | .setTimeout seconds' => seconds'
  | .declare _ | .assertTerm _ | .check | .reset => seconds

def requested (requests : List Request) : Nat := requests.foldl Request.secondsAfter 0

structure Step (s : Session) (request : Request) (s' : Session) : Prop where
  limitOption : s'.limitOption = s.limitOption
  limit : ∀ seconds, s.limit = limitOf seconds → s'.limit = limitOf (request.secondsAfter seconds)
  heard : s'.running = true →
    s.running = true ∧ s'.heard.toList = s.heard.toList ++ linesOf (s.commandsOf request)

theorem Passes.step {s' : Session} (request : Request) (passes : Passes (linesOf (s.commandsOf request)) s s')
    (kept : ∀ seconds, request.secondsAfter seconds = seconds) : Step s request s' where
  limitOption := passes.limitOption
  limit seconds known := by rw [passes.limit, known, kept]
  heard := passes.heard

theorem step_perform (s : Session) (request : Request) : Step s request (s.perform request) := by
  cases request with
  | declare => exact Passes.step _ (utters_send _ s).toPasses fun _ => rfl
  | assertTerm => exact Passes.step _ (utters_send _ s).toPasses fun _ => rfl
  | check =>
    have passes := (utters_send .checkSat s).toPasses
    obtain ⟨output, errors, state⟩ := check_run_snd s
    have state : s.perform .check = _ := state
    rw [state]
    exact Passes.step _ ⟨passes.limit, passes.limitOption, passes.heard⟩ fun _ => rfl
  | reset => exact Passes.step _ (utters_reset s).toPasses fun _ => rfl
  | setTimeout seconds =>
    have passes := (utters_sendLimit { s with limit := limitOf seconds }).toPasses
    exact ⟨passes.limitOption, fun _ _ => passes.limit, passes.heard⟩

theorem limitOption_after (s : Session) (requests : List Request) :
    (s.after requests).limitOption = s.limitOption := by
  induction requests generalizing s with
  | nil => rfl
  | cons request requests ih => exact (ih (s.perform request)).trans (step_perform s request).limitOption

theorem limit_after {seconds : Nat} (known : s.limit = limitOf seconds) (requests : List Request) :
    (s.after requests).limit = limitOf (requests.foldl Request.secondsAfter seconds) := by
  induction requests generalizing s seconds with
  | nil => exact known
  | cons request requests ih => exact ih ((step_perform s request).limit seconds known)

theorem heard_after {requests : List Request} (running : (s.after requests).running = true) :
    s.running = true ∧
      (s.after requests).heard.toList = s.heard.toList ++ linesOf (s.sent requests) := by
  induction requests generalizing s with
  | nil => exact ⟨running, (List.append_nil _).symm⟩
  | cons request requests ih =>
    obtain ⟨between, heard⟩ := ih running
    obtain ⟨alive, first⟩ := (step_perform s request).heard between
    refine ⟨alive, ?_⟩
    rw [sent, linesOf, List.flatMap_append, ← linesOf, ← linesOf, ← List.append_assoc, ← first]
    exact heard

theorem sent_append (s : Session) (requests requests' : List Request) :
    s.sent (requests ++ requests') = s.sent requests ++ (s.after requests).sent requests' := by
  induction requests generalizing s with
  | nil => rfl
  | cons request requests ih => rw [List.cons_append, sent, sent, ih, List.append_assoc]; rfl

theorem heard_check (running : s.running = true) :
    (s.perform .check).heard.toList = s.heard.toList ++ [Command.checkSat.text] := by
  obtain ⟨output, errors, state⟩ := check_run_snd s
  have state : s.perform .check = _ := state
  rw [state, send_eq running, lines_eq_singleton (by decide), List.foldl_cons, List.foldl_nil]
  rcases hear_cases s Command.checkSat.text with ⟨dead, -⟩ | ⟨-, output, errors, running, heard⟩
  · rw [running] at dead
    cases dead
  · rw [heard]
    exact Array.toList_push

theorem of_start {host : Host} {program : String} {arguments : List String} {limitOption : Option String}
    (started : start host program arguments limitOption = .ok s) :
    s.limitOption = limitOption ∧ s.limit = none ∧ s.heard.toList = [Command.setLogic.text] := by
  cases installed : host program with
  | none =>
    unfold start at started
    rw [installed] at started
    cases started
  | some responder =>
    have first : (send Command.setLogic.text).run { program, arguments, responder, limitOption } = _ :=
      send_run_silent rfl SolverLanguage.command?_setLogic nofun
    rw [start_of_setLogic installed first] at started
    cases started
    exact ⟨rfl, rfl, rfl⟩

end Session
end MissionTime
