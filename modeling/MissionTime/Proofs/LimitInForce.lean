import MissionTime.Analysis.Backend
import MissionTime.Proofs.SessionRuns
import Mathlib.Data.List.Induction

/-! The time limit in force at a solver process. A session keeps the limit that was last asked for, but a
process knows only what it has been told since its last reset. The two agree as long as no limit is lifted:
the process is not told of that, and the limit stays in force up to the next reset. -/
namespace MissionTime
open Runs Text

/-- The value that the option `keyword` has been given last, since the last reset; `limit` is the one that it
had before the command. -/
def Command.limitAfter (keyword : String) (limit : Option Nat) : Command → Option Nat
  | .reset => none
  | .setOption keyword' value => if keyword' = keyword then some value else limit
  | .setLogic | .declare _ | .assert _ | .checkSat | .exit => limit

def Command.limitSinceReset (keyword : String) (commands : List Command) : Option Nat :=
  commands.foldl (limitAfter keyword) none

namespace Session

variable {s : Session}

def LiftedSinceReset (requests : List Request) : Prop :=
  ∃ before after, requests = before ++ .setTimeout 0 :: after ∧ 0 < requested before ∧ .reset ∉ after

theorem liftedSinceReset_concat (requests : List Request) (request : Request) :
    LiftedSinceReset (requests ++ [request]) ↔
      request = .setTimeout 0 ∧ 0 < requested requests ∨ request ≠ .reset ∧ LiftedSinceReset requests := by
  constructor
  · rintro ⟨before, after, same, positive, kept⟩
    rcases List.eq_nil_or_concat after with rfl | ⟨after, last, rfl⟩
    · obtain ⟨front, back⟩ := List.append_inj' same rfl
      exact .inl ⟨List.singleton_inj.1 back, front ▸ positive⟩
    · rw [List.concat_eq_append, ← List.cons_append, ← List.append_assoc] at same
      obtain ⟨front, back⟩ := List.append_inj' same rfl
      rw [List.concat_eq_append, List.mem_append, not_or, ← back, List.mem_singleton] at kept
      exact .inr ⟨Ne.symm kept.2, before, after, front, positive, kept.1⟩
  · rintro (⟨rfl, positive⟩ | ⟨other, before, after, rfl, positive, kept⟩)
    · exact ⟨requests, [], rfl, positive, by simp⟩
    · refine ⟨before, after ++ [request], by simp, positive, ?_⟩
      simp only [List.mem_append, List.mem_singleton, not_or]
      exact ⟨kept, Ne.symm other⟩

theorem milliseconds_pos {seconds : Nat} (positive : 0 < seconds) : 0 < milliseconds seconds := by
  unfold milliseconds
  omega

theorem limitOf_of_pos {seconds : Nat} (positive : 0 < seconds) :
    limitOf seconds = some (milliseconds seconds) :=
  if_pos positive

theorem limitOf_of_eq_zero {seconds : Nat} (unlimited : seconds = 0) : limitOf seconds = none := by
  rw [unlimited]
  rfl

theorem limitOf_ne_zero (seconds : Nat) : limitOf seconds ≠ some 0 := by
  unfold limitOf
  split_ifs with positive
  · have := milliseconds_pos positive
    simp only [ne_eq, Option.some.injEq]
    omega
  · simp

theorem foldl_limitCommands (keyword : String) (told limit : Option Nat) :
    (limitCommands (some keyword) limit).foldl (Command.limitAfter keyword) told = limit.or told := by
  cases limit with
  | none => rfl
  | some milliseconds => exact if_pos rfl

def Request.inForceAfter (kept told : Option Nat) : Request → Option Nat
  | .reset => kept
  | .setTimeout seconds => (limitOf seconds).or told
  | .declare _ | .assertTerm _ | .check => told

theorem foldl_commandsOf {keyword : String} (option : s.limitOption = some keyword) (told : Option Nat)
    (request : Request) :
    (s.commandsOf request).foldl (Command.limitAfter keyword) told = request.inForceAfter s.limit told := by
  cases request with
  | declare name => rfl
  | assertTerm term => rfl
  | check => rfl
  | reset =>
    rw [commandsOf, option, List.foldl_cons, List.foldl_append, foldl_limitCommands]
    exact Option.or_none
  | setTimeout seconds =>
    rw [commandsOf, option, foldl_limitCommands]
    rfl

/-- How the limit in force stands to the calls: it is the one last asked for; if none is asked for, there is
one exactly if it has been lifted since the last reset. -/
structure InForce (limit : Option Nat) (requests : List Request) : Prop where
  asked : 0 < requested requests → limit = some (milliseconds (requested requests))
  lifted : requested requests = 0 → (limit = none ↔ ¬ LiftedSinceReset requests)
  positive : limit ≠ some 0

theorem inForce_nil : InForce none [] where
  asked limited := absurd limited (Nat.lt_irrefl 0)
  lifted _ := by
    refine iff_of_true rfl ?_
    rintro ⟨before, after, same, -⟩
    simp at same
  positive := by simp

theorem InForce.concat {told : Option Nat} {requests : List Request} (h : InForce told requests)
    (request : Request) :
    InForce (request.inForceAfter (limitOf (requested requests)) told) (requests ++ [request]) := by
  obtain ⟨asked, lifted, positive⟩ := h
  have next : requested (requests ++ [request]) = request.secondsAfter (requested requests) := by
    rw [requested, List.foldl_append]
    rfl
  have history := liftedSinceReset_concat requests request
  cases request with
  | declare _ | assertTerm _ | check =>
    simp only [reduceCtorEq, false_and, false_or, ne_eq, not_false_eq_true, true_and] at history
    refine ⟨?_, ?_, positive⟩ <;> rw [next]
    · exact asked
    · rw [history]
      exact lifted
  | reset =>
    simp only [reduceCtorEq, false_and, ne_eq, not_true_eq_false, or_self] at history
    refine ⟨?_, ?_, limitOf_ne_zero _⟩ <;> rw [next]
    · exact limitOf_of_pos
    · exact fun unlimited => iff_of_true (limitOf_of_eq_zero unlimited) (history.1 ·)
  | setTimeout seconds =>
    simp only [Request.setTimeout.injEq, ne_eq, reduceCtorEq, not_false_eq_true, true_and] at history
    rw [Request.inForceAfter]
    rcases Nat.eq_zero_or_pos seconds with rfl | limited
    · -- The process is not told, so what was in force stays so.
      have kept : (limitOf 0).or told = told := rfl
      rw [kept]
      refine ⟨?_, ?_, positive⟩ <;> rw [next]
      · exact fun limited => absurd limited (Nat.lt_irrefl 0)
      · intro _
        rw [history]
        rcases Nat.eq_zero_or_pos (requested requests) with unlimited | limited
        · simpa [unlimited] using lifted unlimited
        · simp [asked limited, limited]
    · rw [limitOf_of_pos limited, Option.some_or, ← limitOf_of_pos limited]
      refine ⟨?_, ?_, limitOf_ne_zero seconds⟩ <;> rw [next]
      · exact limitOf_of_pos
      · exact fun unlimited => absurd unlimited limited.ne'

theorem inForce_sent {keyword : String} (option : s.limitOption = some keyword) (unlimited : s.limit = none)
    (requests : List Request) :
    InForce (Command.limitSinceReset keyword (.setLogic :: s.sent requests)) requests := by
  induction requests using List.reverseRecOn with
  | nil => exact inForce_nil
  | append_singleton requests request ih =>
    have state : (s.after requests).limitOption = some keyword := (limitOption_after s requests).trans option
    have kept : (s.after requests).limit = limitOf (requested requests) :=
      limit_after (show s.limit = limitOf 0 from unlimited) requests
    have step : Command.limitSinceReset keyword (.setLogic :: s.sent (requests ++ [request])) =
        request.inForceAfter (limitOf (requested requests))
          (Command.limitSinceReset keyword (.setLogic :: s.sent requests)) := by
      rw [sent_append, sent, sent, List.append_nil, Command.limitSinceReset, ← List.cons_append,
        List.foldl_append, foldl_commandsOf state, kept]
      rfl
    rw [step]
    exact ih.concat request

theorem start_of_limited {host : Host} {choice : SolverChoice} {keyword : String} {timeout : Nat}
    (limited : choice = .z3 ∧ keyword = ":timeout" ∨ choice = .cvc5 ∧ keyword = ":tlimit-per")
    (started : choice.start host timeout = .ok (.process s)) :
    ∃ program arguments, start host program arguments (some keyword) = .ok s := by
  rcases limited with ⟨rfl, rfl⟩ | ⟨rfl, rfl⟩ <;> simp only [SolverChoice.start] at started <;>
    split at started <;> cases started <;> exact ⟨_, _, ‹_›⟩

/-- What a process has been told of its limit when it is asked to check. A limit that is asked for last is
the last one told since the last reset. If no limit is asked for, then none has been told since then, unless
one has been lifted in the meantime. -/
theorem limit_in_force {host : Host} {choice : SolverChoice} {keyword : String} {timeout : Nat}
    (limited : choice = .z3 ∧ keyword = ":timeout" ∨ choice = .cvc5 ∧ keyword = ":tlimit-per")
    (started : choice.start host timeout = .ok (.process s)) (requests : List Request)
    (live : (s.after requests).running = true) :
    let told := .setLogic :: s.sent requests
    let limit := Command.limitSinceReset keyword told
    (s.after (requests ++ [.check])).heard.toList = linesOf (told ++ [.checkSat]) ∧
    (0 < requested requests → limit = some (milliseconds (requested requests))) ∧
    (requested requests = 0 →
      ((∀ value, limit = some value → value = 0) ↔ ¬ LiftedSinceReset requests)) := by
  intro told limit
  obtain ⟨program, arguments, started⟩ := start_of_limited limited started
  obtain ⟨option, unlimited, silence⟩ := of_start started
  obtain ⟨asked, lifted, positive⟩ : InForce limit requests := inForce_sent option unlimited requests
  refine ⟨?_, asked, fun unasked => ?_⟩
  · have state : s.after (requests ++ [.check]) = (s.after requests).perform .check := by
      rw [after, List.foldl_append]
      rfl
    have logic : lines Command.setLogic.text = [Command.setLogic.text] := lines_eq_singleton (by decide)
    have question : lines Command.checkSat.text = [Command.checkSat.text] := lines_eq_singleton (by decide)
    rw [state, heard_check live, (heard_after live).2, silence]
    simp [told, linesOf, logic, question]
  · rw [← lifted unasked]
    constructor
    · intro zero
      refine Option.eq_none_iff_forall_ne_some.2 fun value known => positive ?_
      rw [known, zero value known]
    · intro untold value known
      rw [untold] at known
      cases known

theorem limit_in_force_after_reset :
    let host : Host := fun program => if program = "cvc5" then some (.ofReplies [.print "sat"]) else none
    let lifted := [Request.setTimeout 7, .setTimeout 0, .check, .reset]
    let limited := lifted ++ [.declare "p", .setTimeout 2, .reset]
    ∃ s, SolverChoice.cvc5.start host 9 = .ok (.process s) ∧
      (s.after lifted).running = true ∧ requested lifted = 0 ∧ ¬ LiftedSinceReset lifted ∧
      (s.after limited).running = true ∧ requested limited = 2 ∧
      Command.limitSinceReset ":tlimit-per" (.setLogic :: s.sent limited) = some 2000 := by
  intro host lifted limited
  obtain ⟨s, started, live, untold, live'⟩ : ∃ s, SolverChoice.cvc5.start host 9 = .ok (.process s) ∧
      (s.after lifted).running = true ∧
      Command.limitSinceReset ":tlimit-per" (.setLogic :: s.sent lifted) = none ∧
      (s.after limited).running = true := by
    refine ⟨_, rfl, ?_⟩
    decide +kernel
  have unasked : requested lifted = 0 := rfl
  have asked : requested limited = 2 := rfl
  have forgotten := (limit_in_force (.inr ⟨rfl, rfl⟩) started lifted live).2.2 unasked
  have told := (limit_in_force (.inr ⟨rfl, rfl⟩) started limited live').2.1 Nat.two_pos
  have value : milliseconds (requested limited) = 2000 := by decide
  rw [value] at told
  refine ⟨s, started, live, unasked, forgotten.1 fun value known => ?_, live', asked, told⟩
  rw [untold] at known
  cases known

/-- The limit of 5 seconds has been lifted, and it is in force all the same. -/
theorem lifted_limit_in_force :
    let host : Host := fun program => if program = "z3" then some (.ofReplies [.print "sat"]) else none
    let requests := [Request.setTimeout 5, .setTimeout 0]
    ∃ s, SolverChoice.z3.start host 0 = .ok (.process s) ∧ (s.after requests).running = true ∧
      requested requests = 0 ∧
      Command.limitSinceReset ":timeout" (.setLogic :: s.sent requests) = some 5000 ∧
      (s.after (requests ++ [.check])).heard.toList =
        ["(set-logic QF_UF)", "(set-option :timeout 5000)", "(check-sat)"] := by
  intro host requests
  refine ⟨_, rfl, ?_⟩
  decide +kernel

end Session
end MissionTime
