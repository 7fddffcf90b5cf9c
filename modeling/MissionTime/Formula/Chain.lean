import MissionTime.Formula.Operator

/-! The operands of chains of one connective, which nest to the left. -/
namespace MissionTime.Formula

/-- Puts the operands of a chain in front of `rest`; a formula that the connective does not join is its own
only operand. -/
def operandsOnto : Connective → Formula → List Formula → List Formula
  | .and, .and f g, rest => operandsOnto .and f (g :: rest)
  | .or, .or f g, rest => operandsOnto .or f (g :: rest)
  | _, f, rest => f :: rest

def operands (c : Connective) (f : Formula) : List Formula := operandsOnto c f []

variable {c : Connective} {f g h : Formula}

theorem operandsOnto_join (c : Connective) (f g : Formula) (rest : List Formula) :
    operandsOnto c (c.join f g) rest = operandsOnto c f (g :: rest) := by
  cases c <;> rfl

@[elab_as_elim]
theorem alongChain (c : Connective) {P : Formula → Prop} (join : ∀ f g, P f → P (c.join f g))
    (single : ∀ f, (∀ g h, f ≠ c.join g h) → P f) (f : Formula) : P f := by
  induction f with
  | and f g ih _ =>
    cases c with
    | and => exact join f g ih
    | or => exact single _ nofun
  | or f g ih _ =>
    cases c with
    | and => exact single _ nofun
    | or => exact join f g ih
  | _ => exact single _ (by cases c <;> nofun)

theorem operandsOnto_single (alone : ∀ g h, f ≠ c.join g h) (rest : List Formula) :
    operandsOnto c f rest = f :: rest := by
  cases c <;> cases f <;> first | rfl | exact absurd rfl (alone _ _)

theorem operandsOnto_eq (c : Connective) (f : Formula) (rest : List Formula) :
    operandsOnto c f rest = f.operands c ++ rest := by
  induction f using alongChain c generalizing rest with
  | join f g ih =>
    rw [operands, operandsOnto_join, operandsOnto_join, ih (g :: rest), ih [g], List.append_assoc,
      List.singleton_append]
  | single f alone =>
    rw [operands, operandsOnto_single alone, operandsOnto_single alone, List.singleton_append]

theorem operands_join (c : Connective) (f g : Formula) :
    (c.join f g).operands c = f.operands c ++ [g] := by
  rw [operands, operandsOnto_join, operandsOnto_eq]

theorem operands_single (alone : ∀ g h, f ≠ c.join g h) : f.operands c = [f] := operandsOnto_single alone []

theorem size_join (c : Connective) (f g : Formula) : (c.join f g).size = f.size + g.size + 1 := by
  cases c <;> rfl

theorem size_le_of_mem_operands (mem : h ∈ f.operands c) : h.size ≤ f.size := by
  induction f using alongChain c with
  | join f g ih =>
    rw [operands_join, List.mem_append, List.mem_singleton] at mem
    rw [size_join]
    rcases mem with mem | rfl
    · have := ih mem
      omega
    · omega
  | single f alone =>
    rw [operands_single alone, List.mem_singleton] at mem
    exact Nat.le_of_eq (congrArg size mem)

theorem size_lt_of_mem_operands_join (mem : h ∈ (c.join f g).operands c) : h.size < (c.join f g).size := by
  rw [operands_join, List.mem_append, List.mem_singleton] at mem
  rw [size_join]
  rcases mem with mem | rfl
  · have := size_le_of_mem_operands mem
    omega
  · omega

end MissionTime.Formula
