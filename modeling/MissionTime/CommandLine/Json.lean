/-! JSON documents and their indented text. -/
namespace MissionTime.CommandLine

inductive Json
  | text (value : String)
  | number (value : Nat)
  | list (items : List Json)
  | object (fields : List (String × Json))

namespace Json

def escape (c : Char) : List Char :=
  match c with
  | '"' => ['\\', '"']
  | '\\' => ['\\', '\\']
  | '\x08' => ['\\', 'b']
  | '\t' => ['\\', 't']
  | '\n' => ['\\', 'n']
  | '\x0c' => ['\\', 'f']
  | '\r' => ['\\', 'r']
  | c =>
    if c.toNat < 0x20 then
      ['\\', 'u', '0', '0', Nat.digitChar (c.toNat / 16), Nat.digitChar (c.toNat % 16)]
    else [c]

def quote (value : String) : String :=
  String.ofList ('"' :: (value.toList.flatMap escape ++ ['"']))

def newline (indent : Nat) : String := String.ofList ('\n' :: List.replicate indent ' ')

mutual

/-- The text of a document whose first line is already indented by `indent`. -/
def print (indent : Nat) : Json → String
  | .text value => quote value
  | .number value => toString value
  | .list [] => "[]"
  | .list items => "[" ++ printItems (indent + 2) items ++ newline indent ++ "]"
  | .object [] => "\x7b\x7d"
  | .object fields => "\x7b" ++ printFields (indent + 2) fields ++ newline indent ++ "\x7d"

def printItems (indent : Nat) : List Json → String
  | [] => ""
  | [item] => newline indent ++ item.print indent
  | item :: items => newline indent ++ item.print indent ++ "," ++ printItems indent items

def printFields (indent : Nat) : List (String × Json) → String
  | [] => ""
  | [(key, value)] => newline indent ++ quote key ++ ": " ++ value.print indent
  | (key, value) :: fields =>
    newline indent ++ quote key ++ ": " ++ value.print indent ++ "," ++ printFields indent fields

end

def pretty (document : Json) : String := document.print 0

end Json
end MissionTime.CommandLine
