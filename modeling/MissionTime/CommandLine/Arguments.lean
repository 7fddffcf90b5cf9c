import MissionTime.Formula

/-! Reading command line arguments. Settings stand before or behind the command; a setting that stands in
both places has the value given last, and one given twice in the same place is refused. -/
namespace MissionTime.CommandLine

inductive Word
  | terminator
  | long (name : String) (value : Option String)
  | short (letter : Char)
  | plain

def Word.ofString (word : String) : Word :=
  match word.toList with
  | ['-', '-'] => .terminator
  | '-' :: '-' :: body =>
    let value := match body.dropWhile (· != '=') with
      | _ :: value => some (String.ofList value)
      | [] => none
    .long (String.ofList (body.takeWhile (· != '='))) value
  | '-' :: letter :: _ => .short letter
  | _ => .plain

inductive Stop
  | misuse
  | showVersion
  | showHelp
deriving DecidableEq

def digits? (source : List Char) : Option Nat :=
  if source ≠ [] ∧ source.all Char.isDigit then some (Nat.ofDigitChars 10 source 0) else none

def natural? (limit : Nat) (source : String) : Option Nat :=
  let value := match source.toList with
    | '+' :: digits => digits? digits
    | digits => digits? digits
  value.filter (· ≤ limit)

/-- As `natural?`, but a number may have a minus sign too, which only zero can bear. -/
def signed? (limit : Nat) (source : String) : Option Nat :=
  match source.toList with
  | '-' :: digits => (digits? digits).filter (· = 0)
  | _ => natural? limit source

def maxWord : Nat := 18446744073709551615

structure Settings where
  solver : Option String := none
  solverCommand : Option String := none
  timeout : Option Nat := none
  maxHorizon : Option Nat := none
  maxNesting : Option Nat := none
  scriptPath : Option String := none
  format : Option String := none

namespace Settings

def override (outer inner : Settings) : Settings where
  solver := inner.solver <|> outer.solver
  solverCommand := inner.solverCommand <|> outer.solverCommand
  timeout := inner.timeout <|> outer.timeout
  maxHorizon := inner.maxHorizon <|> outer.maxHorizon
  maxNesting := inner.maxNesting <|> outer.maxNesting
  scriptPath := inner.scriptPath <|> outer.scriptPath
  format := inner.format <|> outer.format

def fill {α : Type} (old new : Option α) : Except Stop (Option α) :=
  if old.isNone && new.isSome then .ok new else .error .misuse

def path? (value : String) : Option String := if value.isEmpty then none else some value

def put (s : Settings) (name value : String) : Except Stop Settings :=
  match name with
  | "solver" => do return { s with solver := ← fill s.solver (some value) }
  | "solver-cmd" => do return { s with solverCommand := ← fill s.solverCommand (some value) }
  | "timeout" => do return { s with timeout := ← fill s.timeout (natural? maxWord value) }
  | "max-horizon" => do return { s with maxHorizon := ← fill s.maxHorizon (signed? maxTime value) }
  | "max-nesting" => do return { s with maxNesting := ← fill s.maxNesting (natural? maxWord value) }
  | "dump-smt" => do return { s with scriptPath := ← fill s.scriptPath (path? value) }
  | "format" => do return { s with format := ← fill s.format (some value) }
  | _ => .error .misuse

end Settings

structure Signature where
  takesFile : Bool
  /-- The largest number of positional words, if it is limited. -/
  capacity : Option Nat

structure Operands where
  settings : Settings := {}
  file : Option String := none
  positionals : Array String := #[]

inductive BatchCommand
  | check
  | explain
  | encode
deriving DecidableEq

inductive Task
  | batch (command : BatchCommand) (formulas : List String) (file : Option String)
  | parse (formula : String)

structure Invocation where
  settings : Settings
  task : Task

def isValue (word : String) : Bool :=
  match Word.ofString word with
  | .plain => true
  | _ => false

namespace Operands

def put (signature : Signature) (o : Operands) (name value : String) : Except Stop Operands :=
  if signature.takesFile && name == "file" then do
    return { o with file := ← Settings.fill o.file (Settings.path? value) }
  else do return { o with settings := ← o.settings.put name value }

def push (signature : Signature) (o : Operands) (word : String) : Except Stop Operands :=
  if signature.capacity.all (o.positionals.size < ·) then
    .ok { o with positionals := o.positionals.push word }
  else .error .misuse

/-- Reads the words behind a command. The first word that does not fit ends the reading. -/
def read (signature : Signature) : Operands → List String → Except Stop Operands
  | o, [] => .ok o
  | o, word :: words =>
    match Word.ofString word with
    | .terminator => words.foldlM (push signature) o
    | .plain => do
      let o ← o.push signature word
      read signature o words
    | .short letter => .error (if letter = 'h' then .showHelp else .misuse)
    | .long name (some value) => do
      let o ← o.put signature name value
      read signature o words
    | .long "help" none => .error .showHelp
    | .long name none =>
      match words with
      | value :: words =>
        if isValue value then do
          let o ← o.put signature name value
          read signature o words
        else .error .misuse
      | [] => .error .misuse

def toBatch (outer : Settings) (command : BatchCommand) (o : Operands) : Invocation where
  settings := outer.override o.settings
  task := .batch command o.positionals.toList o.file

end Operands

def Signature.batch : Signature := ⟨true, none⟩

def Signature.parse : Signature := ⟨false, some 1⟩

namespace Invocation

def commandNames : List String := ["check", "explain", "parse", "encode", "help"]

def readHelp : List String → Stop
  | [] => .showHelp
  | [name] => if name ∈ commandNames then .showHelp else .misuse
  | _ => .misuse

def readCommand (outer : Settings) (command : String) (words : List String) :
    Except Stop Invocation :=
  match command with
  | "check" => do return (← Operands.read .batch {} words).toBatch outer .check
  | "explain" => do return (← Operands.read .batch {} words).toBatch outer .explain
  | "encode" => do return (← Operands.read .batch {} words).toBatch outer .encode
  | "parse" => do
    let o ← Operands.read .parse {} words
    match o.positionals.toList with
    | [formula] => return ⟨outer.override o.settings, .parse formula⟩
    | _ => .error .misuse
  | "help" => .error (readHelp words)
  | _ => .error .misuse

def read : Settings → List String → Except Stop Invocation
  | _, [] => .error .misuse
  | outer, word :: words =>
    match Word.ofString word with
    | .terminator => .error .misuse
    | .plain => readCommand outer word words
    | .short letter =>
      .error (if letter = 'V' then .showVersion else if letter = 'h' then .showHelp else .misuse)
    | .long name (some value) => do
      let outer ← outer.put name value
      read outer words
    | .long "version" none => .error .showVersion
    | .long "help" none => .error .showHelp
    | .long name none =>
      match words with
      | value :: words =>
        if isValue value then do
          let outer ← outer.put name value
          read outer words
        else .error .misuse
      | [] => .error .misuse

def ofArguments (arguments : List String) : Except Stop Invocation := read {} arguments

end Invocation
end MissionTime.CommandLine
