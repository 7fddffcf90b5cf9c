import MissionTime.Proofs.Consistency
import MissionTime.Proofs.Lockstep

/-! Oracles under observation. An observed oracle does what the oracle does, and it keeps an account of
the calls, in their order and with what came of them. An analysis on it comes to the same end as on the
oracle alone, so the account tells which calls an analysis makes. -/
namespace MissionTime
open Runs

/-- A call to an oracle with what came of it. A reset also tells the name that the backend had before. -/
inductive Exchange
  | reset (backend : String) (result : Except OracleError Unit)
  | setTimeout (seconds : Nat) (result : Except OracleError Unit)
  | declare (name : String) (result : Except OracleError Unit)
  | assertTerm (term : Term) (result : Except OracleError Unit)
  | check (result : Except OracleError Verdict)

namespace Exchange

def complaint? : Exchange → Option String
  | .reset _ (.error e) | .setTimeout _ (.error e) | .declare _ (.error e) | .assertTerm _ (.error e)
  | .check (.error e) => some e.message
  | .check (.ok (.unknown reason)) => some ("solver returned unknown: " ++ reason)
  | _ => none

def isReset : Exchange → Bool
  | .reset _ _ => true
  | _ => false

def isCheck : Exchange → Bool
  | .check _ => true
  | _ => false

def backendAfter (name : Option String) : Exchange → Option String
  | .reset backend _ => some backend
  | _ => name

end Exchange

/-- The name that the backend had when it was last reset. -/
def backendInUse (exchanges : List Exchange) : Option String :=
  exchanges.foldl Exchange.backendAfter none

structure Observed (σ : Type) where
  oracle : σ
  exchanges : List Exchange := []

namespace Observed

variable {σ α : Type}

def observe (exchange : σ → Except OracleError α → Exchange) (call : Call σ α) :
    Call (Observed σ) α := do
  let result ← modifyGet fun o =>
    let (result, oracle) := call.run o.oracle
    (result, { oracle, exchanges := o.exchanges ++ [exchange o.oracle result] })
  MonadExcept.ofExcept result

instance [Oracle σ] : Oracle (Observed σ) where
  backend o := Oracle.backend o.oracle
  reset := observe (fun s => .reset (Oracle.backend s)) Oracle.reset
  setTimeout seconds := observe (fun _ => .setTimeout seconds) (Oracle.setTimeout seconds)
  declare name := observe (fun _ => .declare name) (Oracle.declare name)
  assertTerm term := observe (fun _ => .assertTerm term) (Oracle.assertTerm term)
  check := observe (fun _ => .check) Oracle.check

theorem observe_run (exchange : σ → Except OracleError α → Exchange) (call : Call σ α) (o : Observed σ) :
    (observe exchange call).run o = ((call.run o.oracle).1,
      ⟨(call.run o.oracle).2, o.exchanges ++ [exchange o.oracle (call.run o.oracle).1]⟩) := by
  rw [observe, run_modifyGet_bind, run_ofExcept]
  rfl

def Hides (o : Observed σ) (s : σ) : Prop := o.oracle = s

theorem lockstep_observe (exchange : σ → Except OracleError α → Exchange) (call : Call σ α) :
    Lockstep Hides (observe exchange call) call := by
  rintro o _ rfl
  rw [observe_run]
  exact ⟨rfl, rfl⟩

theorem lockstep_load [Oracle σ] (encoding : Encoding) :
    Lockstep Hides (encoding.load : Call (Observed σ) Unit) encoding.load := by
  refine .bind (.forM (fun name => lockstep_observe _ _) _) fun _ _ => ?_
  exact .forM (fun term => lockstep_observe _ _) _

end Observed

namespace Progress

variable {σ : Type}

def observing (s : σ) (clock : Clock) : Progress (Observed σ) := { oracle := { oracle := s }, clock }

def forget (p : Progress (Observed σ)) : Progress σ := { p with oracle := p.oracle.oracle }

end Progress

namespace Analysis

variable {σ α : Type}

/-- The account of the calls is all that an observed analysis has besides. -/
def Forgets (p : Progress (Observed σ)) (q : Progress σ) : Prop := p.forget = q

theorem lockstep_ask {x : Call (Observed σ) α} {y : Call σ α} (h : Lockstep Observed.Hides x y)
    (backend : String) : Lockstep Forgets (ask backend x) (ask backend y) := by
  rintro p _ rfl
  obtain ⟨same, hides⟩ := h (show Observed.Hides p.oracle p.forget.oracle from rfl)
  rw [ask_run_eq, ask_run_eq, same]
  exact ⟨rfl, congrArg (fun s : σ => ({ p.forget with oracle := s } : Progress σ)) hides⟩

theorem lockstep_consult_observed (question : Option Nat → StateM Clock α) :
    Lockstep Forgets (consult question : Analysis (Observed σ) α) (consult question) := by
  rintro p _ rfl
  exact ⟨rfl, rfl⟩

theorem lockstep_checkDeadline_observed (options : Options) :
    Lockstep Forgets (checkDeadline options : Analysis (Observed σ) Unit) (checkDeadline options) := by
  refine (lockstep_consult_observed _).bind fun late _ => ?_
  cases late with
  | false => exact .pure ()
  | true => exact .ofExcept (.error _)

theorem lockstep_setDeadline_observed (options : Options) :
    Lockstep Forgets (setDeadline options : Analysis (Observed σ) Unit) (setDeadline options) := by
  rintro p _ rfl
  exact ⟨rfl, rfl⟩

variable [Oracle σ]

theorem lockstep_limitCheck_observed (backend : String) :
    Lockstep Forgets (limitCheck backend : Analysis (Observed σ) Unit) (limitCheck backend) := by
  refine (lockstep_consult_observed _).bind fun budget _ => ?_
  cases budget with
  | none => exact .pure ()
  | some seconds => exact lockstep_ask (Observed.lockstep_observe _ _) backend

theorem lockstep_query_observed (options : Options) (backend : String) (encoding : Encoding) :
    Lockstep Forgets (query options backend encoding : Analysis (Observed σ) Bool)
      (query options backend encoding) := by
  refine (lockstep_ask (Observed.lockstep_load encoding) backend).bind fun _ _ => ?_
  refine (lockstep_ask (Observed.lockstep_observe _ _) backend).bind fun verdict _ => ?_
  refine .bind (.modify ?_) fun _ _ => ?_
  · rintro p _ rfl
    rfl
  · cases verdict with
    | sat | unsat => exact .pure _
    | unknown reason =>
      exact (lockstep_checkDeadline_observed options).bind fun _ _ => .ofExcept (.error _)

theorem lockstep_consistent_observed (options : Options) (requirements : List Requirement) :
    Lockstep Forgets (consistent options requirements : Analysis (Observed σ) Bool)
      (consistent options requirements) := by
  rw [consistent_eq, consistent_eq]
  refine (lockstep_checkDeadline_observed options).bind fun _ _ => ?_
  refine .bind (.ofExcept _) fun encoding _ => .get_bind ?_
  rintro p _ rfl
  refine (lockstep_ask (Observed.lockstep_observe _ _) _).bind fun _ _ => ?_
  exact (lockstep_limitCheck_observed _).bind fun _ _ => lockstep_query_observed options _ encoding

omit [Oracle σ] in
theorem lockstep_prepare_observed (options : Options) (sources : List String) :
    Lockstep Forgets (prepare options sources : Analysis (Observed σ) _) (prepare options sources) := by
  refine .prepare options sources ?_
  rintro p _ rfl script
  rfl

/-- Observation changes nothing but the account. -/
theorem check_observed (options : Options) (sources : List String) (s : σ) (clock : Clock)
    {result : Except AnalysisError Bool} {p : Progress (Observed σ)}
    (run : (check options sources).run (.observing s clock) = (result, p)) :
    (check options sources).run { oracle := s, clock } = (result, p.forget) := by
  have lockstep := Lockstep.check (lockstep_prepare_observed options sources)
    (lockstep_setDeadline_observed options)
    (fun requirements _ => lockstep_consistent_observed options requirements)
    (show Forgets (.observing s clock) { oracle := s, clock } from rfl)
  rw [run] at lockstep
  exact Prod.ext lockstep.1.symm lockstep.2.symm

theorem explain_observed (options : Options) (sources : List String) (s : σ) (clock : Clock)
    {result : Except AnalysisError Explanation} {p : Progress (Observed σ)}
    (run : (explain options sources).run (.observing s clock) = (result, p)) :
    (explain options sources).run { oracle := s, clock } = (result, p.forget) := by
  have lockstep := Lockstep.explain (lockstep_prepare_observed options sources)
    (lockstep_setDeadline_observed options)
    (fun _ _ part _ => lockstep_consistent_observed options part)
    (show Forgets (.observing s clock) { oracle := s, clock } from rfl)
  rw [run] at lockstep
  exact Prod.ext lockstep.1.symm lockstep.2.symm

end Analysis
end MissionTime
