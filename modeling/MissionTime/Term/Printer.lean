import MissionTime.Term

/-! Terms as SMT-LIB expressions. Variables are quoted symbols; an empty connective is written as its
neutral constant and a connective of one operand as that operand. -/
namespace MissionTime.Term

def quoteOnto (name : String) (rest : List Char) : List Char :=
  '|' :: (name.toList ++ '|' :: rest)

def quote (name : String) : String := String.ofList (quoteOnto name [])

mutual

def printOnto : Term → List Char → List Char
  | .var name, rest => quoteOnto name rest
  | .const true, rest | .and [], rest => "true".toList ++ rest
  | .const false, rest | .or [], rest => "false".toList ++ rest
  | .and [t], rest | .or [t], rest => t.printOnto rest
  | .and ts, rest => "(and".toList ++ printAllOnto ts (')' :: rest)
  | .or ts, rest => "(or".toList ++ printAllOnto ts (')' :: rest)
  | .not t, rest => "(not ".toList ++ t.printOnto (')' :: rest)

def printAllOnto : List Term → List Char → List Char
  | [], rest => rest
  | t :: ts, rest => ' ' :: t.printOnto (printAllOnto ts rest)

end

def print (t : Term) : List Char := t.printOnto []

def text (t : Term) : String := String.ofList t.print

end MissionTime.Term
