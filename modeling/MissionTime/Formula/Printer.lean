import MissionTime.Formula

/-! The canonical text of a formula. All binary operators share one precedence and associate to the
left, so that only a binary operand of a unary operator and a binary right operand are parenthesised. -/
namespace MissionTime.Formula

@[inline]
def operandOnto (f : Formula) (print : List Char → List Char) (rest : List Char) : List Char :=
  if f.isBinary then '(' :: print (')' :: rest) else print rest

/-- Puts the canonical text of a formula in front of `rest`. The left operand comes last, in tail
position: printing a chain is a loop. -/
def printOnto : Formula → List Char → List Char
  | .atom name, rest => name.toList ++ rest
  | .not f, rest => '!' :: f.operandOnto f.printOnto rest
  | .eventually w f, rest => 'F' :: (w.print ++ f.operandOnto f.printOnto rest)
  | .always w f, rest => 'G' :: (w.print ++ f.operandOnto f.printOnto rest)
  | .and f g, rest => f.printOnto (' ' :: '&' :: ' ' :: g.operandOnto g.printOnto rest)
  | .or f g, rest => f.printOnto (' ' :: '|' :: ' ' :: g.operandOnto g.printOnto rest)
  | .until w f g, rest =>
    f.printOnto (' ' :: 'U' :: (w.print ++ ' ' :: g.operandOnto g.printOnto rest))
  | .release w f g, rest =>
    f.printOnto (' ' :: 'R' :: (w.print ++ ' ' :: g.operandOnto g.printOnto rest))

def print (f : Formula) : List Char := f.printOnto []

def text (f : Formula) : String := String.ofList f.print

end MissionTime.Formula
