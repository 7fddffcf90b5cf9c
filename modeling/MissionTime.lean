import MissionTime.Text.Blank
import MissionTime.Text.Span
import MissionTime.Interval
import MissionTime.Formula
import MissionTime.Formula.Chain
import MissionTime.OrderedMap
import MissionTime.Formula.Measure
import MissionTime.Formula.Printer
import MissionTime.Formula.Semantics
import MissionTime.Token
import MissionTime.Diagnostic
import MissionTime.Formula.Operator
import MissionTime.Formula.Parser
import MissionTime.Term
import MissionTime.Term.Printer
import MissionTime.Script
import MissionTime.TimedAtom
import MissionTime.Unrolling
import MissionTime.Encoding
import MissionTime.ClauseSet
import MissionTime.ClauseSet.Consequence
import MissionTime.ClauseSet.Propagation
import MissionTime.ClauseSet.Learning
import MissionTime.ClauseSet.Search
import MissionTime.ClauseSet.Decision
import MissionTime.Oracle
import MissionTime.Oracle.Clausal
import MissionTime.Oracle.Session
import MissionTime.Oracle.Recorder
import MissionTime.Clock
import MissionTime.Analysis
import MissionTime.Analysis.Conflict
import MissionTime.Analysis.Backend
import MissionTime.Analysis.Outcome
import MissionTime.CommandLine.Json
import MissionTime.CommandLine.Arguments
import MissionTime.CommandLine.Report
import MissionTime.CommandLine.Run
import MissionTime.Main
import MissionTime.Proofs.Runs
import MissionTime.Proofs.LinearDeletion
import MissionTime.Proofs.Term
import MissionTime.Proofs.Symbol
import MissionTime.Proofs.Insertion
import MissionTime.Proofs.Unrolling
import MissionTime.Proofs.Visits
import MissionTime.Proofs.Meaning
import MissionTime.Proofs.Duality
import MissionTime.Proofs.Gates
import MissionTime.Proofs.ClausalRuns
import MissionTime.Proofs.ClauseBound
import MissionTime.Proofs.MachineSteps
import MissionTime.Proofs.ParsedWindows
import MissionTime.Proofs.Horizon
import MissionTime.Proofs.Measures
import MissionTime.Proofs.Encoding
import MissionTime.Proofs.TimeShift
import MissionTime.Proofs.Deadlines
import MissionTime.Proofs.Consistency
import MissionTime.Proofs.Explanation
import MissionTime.Proofs.Lockstep
import MissionTime.Proofs.ExplanationCost
import MissionTime.Proofs.Peg
import MissionTime.Proofs.TokenGrammar
import MissionTime.Proofs.Grammar
import MissionTime.Proofs.ParserGrammar
import MissionTime.Proofs.StackDiscipline
import MissionTime.Proofs.RoundTrip
import MissionTime.Proofs.Layout
import MissionTime.Proofs.Spacing
import MissionTime.Proofs.FewestParentheses
import MissionTime.Proofs.Refusals
import MissionTime.Proofs.FaultPlaces
import MissionTime.Proofs.TokenSpans
import MissionTime.Proofs.EarliestFault
import MissionTime.Proofs.PrintedTerms
import MissionTime.Proofs.TermTexts
import MissionTime.Proofs.Registration
import MissionTime.Proofs.TableRuns
import MissionTime.Proofs.Conversation
import MissionTime.Proofs.SessionRuns
import MissionTime.Proofs.LimitInForce
import MissionTime.Proofs.BackendParity
import MissionTime.Proofs.EncodingRuns
import MissionTime.Proofs.Observation
import MissionTime.Proofs.OracleFailures
import MissionTime.Proofs.InputErrors
import MissionTime.Proofs.TimeLimits
import MissionTime.Proofs.InvertedWindows
import MissionTime.Proofs.TermHeight
import MissionTime.Proofs.NestingThreshold
import MissionTime.Proofs.ShownScript
