import MissionTime.Proofs.TokenGrammar
import MissionTime.Proofs.WindowText

/-! The grammar of formulas over tokens. An expression is a sequence of operands with binary operators
between them, which all share one precedence and group to the left. A derivation also tells how many
parentheses and unary operators a reader has open at once. -/
namespace MissionTime.Formula

def isName : List Char → Bool
  | [] => false
  | c :: cs => c.isAlpha && cs.all Char.isAlphanum

theorem isAlphanum_of_isName {name : List Char} (named : isName name = true) :
    ∀ c ∈ name, c.isAlphanum = true := by
  cases name with
  | nil => nofun
  | cons c cs =>
    rw [isName, Bool.and_eq_true, List.all_eq_true] at named
    exact List.forall_mem_cons.2 ⟨by simp [Char.isAlphanum, named.1], named.2⟩

/-- The names of atoms: `F` and `G` stand for operators. -/
def AtomName (name : List Char) : Prop := isName name = true ∧ name ≠ ['F'] ∧ name ≠ ['G']

instance (name : List Char) : Decidable (AtomName name) :=
  inferInstanceAs (Decidable (_ ∧ _ ∧ _))

def AllAtoms (P : List Char → Prop) : Formula → Prop
  | .atom name => P name.toList
  | .not f | .eventually _ f | .always _ f => f.AllAtoms P
  | .and f g | .or f g | .until _ f g | .release _ f g => f.AllAtoms P ∧ g.AllAtoms P

instance AllAtoms.decidable (P : List Char → Prop) [DecidablePred P] : DecidablePred (AllAtoms P)
  | .atom name => inferInstanceAs (Decidable (P name.toList))
  | .not f | .eventually _ f | .always _ f => decidable P f
  | .and f g | .or f g | .until _ f g | .release _ f g =>
    have := decidable P f
    have := decidable P g
    inferInstanceAs (Decidable (f.AllAtoms P ∧ g.AllAtoms P))

inductive Unary.Spelled : Unary → List Lexeme → Prop
  | not : Spelled .not [(.bang, ['!'])]
  | eventually {w text} (window : w.Spelled text) :
    Spelled (.eventually w) [(.word, ['F']), (.window, text)]
  | always {w text} (window : w.Spelled text) : Spelled (.always w) [(.word, ['G']), (.window, text)]

inductive Binary.Spelled : Binary → List Lexeme → Prop
  | and : Spelled .and [(.amp, ['&'])]
  | or : Spelled .or [(.bar, ['|'])]
  | until {w text} (window : w.Spelled text) : Spelled (.until w) [(.word, ['U']), (.window, text)]
  | release {w text} (window : w.Spelled text) : Spelled (.release w) [(.word, ['R']), (.window, text)]

inductive Category
  | expr
  | unary

inductive Derivation : Category → List Lexeme → Formula → Type
  | operand {ts f} (operand : Derivation .unary ts f) : Derivation .expr ts f
  | binary {ls os rs op f g} (left : Derivation .expr ls f) (operator : Binary.Spelled op os)
    (right : Derivation .unary rs g) : Derivation .expr (ls ++ (os ++ rs)) (op.apply f g)
  | unary {os ts op f} (operator : Unary.Spelled op os) (operand : Derivation .unary ts f) :
    Derivation .unary (os ++ ts) (op.apply f)
  | paren {ts f} (inner : Derivation .expr ts f) :
    Derivation .unary ((.leftParen, ['(']) :: (ts ++ [(.rightParen, [')'])])) f
  | atom {name} (named : AtomName name) : Derivation .unary [(.word, name)] (.atom (String.ofList name))

def Derives (ts : List Lexeme) (f : Formula) : Prop := Nonempty (Derivation .expr ts f)

/-- The most parentheses and unary operators that are open at once while the tokens are read, when
`opened` are open in front of them and some token opens another one. -/
def Derivation.peak {category : Category} {ts : List Lexeme} {f : Formula} :
    Derivation category ts f → Nat → Nat
  | .operand d, opened => d.peak opened
  | .binary l _ r, opened => max (l.peak opened) (r.peak opened)
  | .unary _ d, opened | .paren d, opened => max (opened + 1) (d.peak (opened + 1))
  | .atom _, _ => 0

/-- The depth of a formula, where a chain of one connective counts as one level. -/
def nesting : Formula → Nat
  | .atom _ => 1
  | .not f | .eventually _ f | .always _ f => f.nesting + 1
  | .and f g =>
    if Binary.and.continues f then max f.nesting (g.nesting + 1) else max f.nesting g.nesting + 1
  | .or f g =>
    if Binary.or.continues f then max f.nesting (g.nesting + 1) else max f.nesting g.nesting + 1
  | .until _ f g | .release _ f g => max f.nesting g.nesting + 1

end MissionTime.Formula
