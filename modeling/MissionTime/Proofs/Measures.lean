import MissionTime.Proofs.Horizon

/-! Atoms, depth and horizon by recursion over the tree. All three are computed by a walk with a stack of
pending formulas, which takes up the left operand first for the atoms and the right one for the others; a
maximum does not depend on that. -/
namespace MissionTime

namespace Formula

def leafNames : Formula → List String
  | .atom name => [name]
  | .not f | .eventually _ f | .always _ f => f.leafNames
  | .and f g | .or f g | .until _ f g | .release _ f g => f.leafNames ++ g.leafNames

def height : Formula → Nat
  | .atom _ => 1
  | .not f | .eventually _ f | .always _ f => f.height + 1
  | .and f g | .or f g | .until _ f g | .release _ f g => max f.height g.height + 1

theorem height_pos (f : Formula) : 0 < f.height := by
  cases f <;> exact Nat.succ_pos _

theorem atoms_eq (f : Formula) : f.atoms = f.leafNames.eraseDups := by
  rw [atoms, walk_eq_foldl (fun seen f _ => f.leafNames.foldl OrderedSet.insert seen) (fun _ => True)
    fun _ _ => id]
  · exact OrderedSet.toList_foldl_insert f.leafNames
  · intro seen f _ _
    -- The operand that is pushed last is taken up first.
    cases f <;> simp [PushOrder.stacked, parts, leafNames, keepName]
  · exact fun _ _ => trivial

theorem depth_eq (f : Formula) : f.depth = f.height := by
  have bottom := f.height_pos
  rw [depth, walk_eq_foldl (fun deepest f level => max deepest (level + (f.height - 1))) (fun _ => True)
    fun _ _ => id]
  · simp only [List.foldl_cons, List.foldl_nil]
    omega
  · intro deepest f level _
    -- Below `level - 1` ancestors a tree ends `f.height` levels further down.
    cases f with
    | atom name => simp [PushOrder.stacked, parts, height]
    | not f | eventually w f | always w f =>
      have := f.height_pos
      simp only [PushOrder.stacked, parts, List.reverse_singleton, List.foldl_cons, List.foldl_nil, height]
      omega
    | and f g | or f g | «until» w f g | release w f g =>
      have := f.height_pos
      have := g.height_pos
      simp only [PushOrder.stacked, parts, List.reverse_cons, List.reverse_nil, List.nil_append,
        List.cons_append, List.foldl_cons, List.foldl_nil, height]
      omega
  · exact fun _ _ => trivial

/-- The walks over pending formulas compute what recursion over the tree does: the names at the leaves without
later repetitions, the height of the tree, and the reach of the formula up to the last time step. -/
theorem measures_by_recursion (f : Formula) :
    f.atoms = f.leafNames.eraseDups ∧ f.depth = f.height ∧ f.horizon = min maxTime f.reach :=
  ⟨f.atoms_eq, f.depth_eq, f.horizon_eq⟩

end Formula
end MissionTime
