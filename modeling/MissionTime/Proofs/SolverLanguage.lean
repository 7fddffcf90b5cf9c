import MissionTime.Term.Printer
import MissionTime.Proofs.Term

/-! What a solver process understands: the part of SMT-LIB that speaks of Boolean constants, with one
command on each line. A line outside that part has no reading, and a process that has heard one is free
to do anything. -/
namespace MissionTime

inductive Command
  | setLogic
  | setOption (keyword : String) (value : Nat)
  | declare (name : String)
  | assert (term : Term)
  | checkSat
  | reset
  | exit

def Command.text : Command → String
  | .setLogic => "(set-logic QF_UF)"
  | .setOption keyword value => s!"(set-option {keyword} {value})"
  | .declare name => s!"(declare-const {Term.quote name} Bool)"
  | .assert term => s!"(assert {term.text})"
  | .checkSat => "(check-sat)"
  | .reset => "(reset)"
  | .exit => "(exit)"

namespace SolverLanguage

inductive Sexp
  | word (text : String)
  | quoted (text : String)
  | list (items : List Sexp)

def isWordChar (c : Char) : Bool :=
  c.isAlphanum || "~!@$%^&*_-+=<>.?/".toList.contains c

def isQuotable (c : Char) : Bool :=
  ' ' ≤ c && c ≤ '~' && c != '|' && c != '\\'

/-- Where a reader stands: between two expressions, in a word or in a quoted symbol, of which it has read
some characters, or right behind a quoted symbol. -/
inductive Mode
  | gap
  | word (read : List Char)
  | quoted (read : List Char)
  | behind

structure Reading where
  mode : Mode := .gap
  items : List Sexp := []
  around : List (List Sexp) := []

namespace Reading

def delimit (r : Reading) (c : Char) : Option Reading :=
  if c = ' ' then some { r with mode := .gap }
  else if c = '(' then some ⟨.gap, [], r.items :: r.around⟩
  else if c = ')' then
    match r.around with
    | outer :: around => some ⟨.gap, .list r.items.reverse :: outer, around⟩
    | [] => none
  else none

def step (r : Reading) (c : Char) : Option Reading :=
  match r.mode with
  | .gap =>
    if c = '|' then some { r with mode := .quoted [] }
    else if isWordChar c then some { r with mode := .word [c] }
    else r.delimit c
  | .word read =>
    if isWordChar c then some { r with mode := .word (c :: read) }
    else { r with items := .word (String.ofList read.reverse) :: r.items }.delimit c
  | .quoted read =>
    if c = '|' then some { r with mode := .behind, items := .quoted (String.ofList read.reverse) :: r.items }
    else if isQuotable c then some { r with mode := .quoted (c :: read) }
    else none
  | .behind => r.delimit c

end Reading

def Sexp.ofLine? (line : List Char) : Option Sexp := do
  match ← line.foldlM Reading.step {} with
  | ⟨.gap, [e], []⟩ => some e
  | _ => none

def connect : String → List Term → Option Term
  | "not", [t] => some (.not t)
  | "and", t₁ :: t₂ :: ts => some (.and (t₁ :: t₂ :: ts))
  | "or", t₁ :: t₂ :: ts => some (.or (t₁ :: t₂ :: ts))
  | _, _ => none

mutual

def Sexp.term? : Sexp → Option Term
  | .word "true" => some (.const true)
  | .word "false" => some (.const false)
  | .word _ => none
  | .quoted name => some (.var name)
  | .list (.word connective :: operands) => do connect connective (← terms? operands)
  | .list _ => none

def Sexp.terms? : List Sexp → Option (List Term)
  | [] => some []
  | e :: es => do return (← e.term?) :: (← terms? es)

end

def Sexp.command? : Sexp → Option Command
  | .list [.word "set-logic", .word "QF_UF"] => some .setLogic
  | .list [.word "declare-const", .quoted name, .word "Bool"] => some (.declare name)
  | .list [.word "assert", e] => e.term?.map .assert
  | .list [.word "check-sat"] => some .checkSat
  | .list [.word "reset"] => some .reset
  | _ => none

def command? (line : String) : Option Command := do (← Sexp.ofLine? line.toList).command?

def coreFunctions : List String :=
  ["true", "false", "not", "=>", "and", "or", "xor", "=", "distinct", "ite"]

/-- A constant may not be named like a function of the core theory, nor as the names that are set apart for
solvers. -/
def declarable (name : String) : Bool :=
  !coreFunctions.contains name && name.toList.head? != some '@' && name.toList.head? != some '.'

structure Context where
  logic : Bool := false
  declared : List String := []
  asserted : List Term := []

/-- What a command does, where it is allowed. -/
def Context.run (context : Context) : Command → Option Context
  | .setLogic => if context.logic then none else some { context with logic := true }
  | .declare name =>
    if context.logic ∧ declarable name ∧ name ∉ context.declared then
      some { context with declared := context.declared ++ [name] }
    else none
  | .assert t =>
    if context.logic ∧ ∀ name ∈ t.names, name ∈ context.declared then
      some { context with asserted := context.asserted ++ [t] }
    else none
  | .checkSat => if context.logic then some context else none
  | .reset => some {}
  | .setOption .. | .exit => none

def read (heard : List String) : Option Context :=
  heard.foldlM (fun context line => do context.run (← command? line)) {}

end SolverLanguage

end MissionTime
