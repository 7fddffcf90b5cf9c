import MissionTime.Proofs.MachineSteps

/-! The windows of formulas that were read from a text. Whatever holds of every window that the reader
accepts behind an operator holds of all windows of the formula: the parsing machine only puts together
what it has read. -/
namespace MissionTime.Formula
open Text

def AllWindows (P : Interval → Prop) : Formula → Prop
  | .atom _ => True
  | .not f => f.AllWindows P
  | .and f g | .or f g => f.AllWindows P ∧ g.AllWindows P
  | .eventually w f | .always w f => P w ∧ f.AllWindows P
  | .until w f g | .release w f g => P w ∧ f.AllWindows P ∧ g.AllWindows P

def Unary.AllWindows (P : Interval → Prop) : Unary → Prop
  | .not => True
  | .eventually w | .always w => P w

def Binary.AllWindows (P : Interval → Prop) : Binary → Prop
  | .and | .or => True
  | .until w | .release w => P w

variable {P : Interval → Prop} {limit : Nat}

theorem Unary.allWindows_apply {op : Unary} {f : Formula} (hop : op.AllWindows P)
    (hf : f.AllWindows P) : (op.apply f).AllWindows P := by
  cases op with
  | not => exact hf
  | eventually w => exact ⟨hop, hf⟩
  | always w => exact ⟨hop, hf⟩

theorem Binary.allWindows_apply {op : Binary} {f g : Formula} (hop : op.AllWindows P)
    (hf : f.AllWindows P) (hg : g.AllWindows P) : (op.apply f g).AllWindows P := by
  cases op with
  | and => exact ⟨hf, hg⟩
  | or => exact ⟨hf, hg⟩
  | «until» w => exact ⟨hop, hf, hg⟩
  | release w => exact ⟨hop, hf, hg⟩

theorem Modality.allWindows_withWindow (op : Modality) {w : Interval} (hw : P w) :
    (op.withWindow w).AllWindows P := by
  cases op <;> exact hw

theorem Linkage.allWindows_withWindow (op : Linkage) {w : Interval} (hw : P w) :
    (op.withWindow w).AllWindows P := by
  cases op <;> exact hw

def Frame.AllWindows (P : Interval → Prop) : Frame → Prop
  | .paren _ => True
  | .unary op => op.AllWindows P
  | .binary left op => left.formula.AllWindows P ∧ op.AllWindows P

def Phase.AllWindows (P : Interval → Prop) : Phase → Prop
  | .operand | .unaryWindow _ _ => True
  | .operator left | .binaryWindow left _ => left.formula.AllWindows P

namespace Machine

variable {m m' : Machine}

structure AllWindows (P : Interval → Prop) (m : Machine) : Prop where
  stack : ∀ frame ∈ m.stack, frame.AllWindows P
  phase : m.phase.AllWindows P

theorem allWindows_reduce {span : Span} {stack : List Frame} {pending : Nat} {node : Node}
    (run : reduce limit span stack pending node = .ok m')
    (hstack : ∀ frame ∈ stack, frame.AllWindows P) (hnode : node.formula.AllWindows P) :
    m'.AllWindows P := by
  fun_induction reduce limit span stack pending node with
  | case1 => cases run
  | case2 pending node op stack _ ih =>
    obtain ⟨hop, hstack⟩ := List.forall_mem_cons.1 hstack
    exact ih run hstack (Unary.allWindows_apply hop hnode)
  | case3 => cases run
  | case4 pending node left op stack _ ih =>
    obtain ⟨⟨hleft, hop⟩, hstack⟩ := List.forall_mem_cons.1 hstack
    exact ih run hstack (Binary.allWindows_apply hop hleft hnode)
  | case5 stack pending node =>
    cases run
    exact ⟨hstack, hnode⟩

theorem AllWindows.moves (accepted : ∀ ⦃letter token w⦄, windowOf letter token = .ok w → P w)
    (h : m.AllWindows P) {token : Token} (moved : Moves limit token m m') : m'.AllWindows P := by
  cases moved with
  | negation => exact ⟨List.forall_mem_cons.2 ⟨trivial, h.stack⟩, trivial⟩
  | opening => exact ⟨List.forall_mem_cons.2 ⟨trivial, h.stack⟩, trivial⟩
  | modality => exact ⟨h.stack, trivial⟩
  | name _ _ _ run => exact allWindows_reduce run h.stack trivial
  | and => exact ⟨List.forall_mem_cons.2 ⟨⟨h.phase, trivial⟩, h.stack⟩, trivial⟩
  | or => exact ⟨List.forall_mem_cons.2 ⟨⟨h.phase, trivial⟩, h.stack⟩, trivial⟩
  | linkage => exact ⟨h.stack, h.phase⟩
  | closing _ run => exact allWindows_reduce run (List.forall_mem_cons.1 h.stack).2 h.phase
  | @unaryWindow _ _ op _ _ window =>
    exact ⟨List.forall_mem_cons.2 ⟨op.allWindows_withWindow (accepted window), h.stack⟩, trivial⟩
  | @binaryWindow _ _ _ op _ window =>
    exact ⟨List.forall_mem_cons.2 ⟨⟨h.phase, op.allWindows_withWindow (accepted window)⟩, h.stack⟩, trivial⟩

theorem AllWindows.finish (h : m.AllWindows P) {stop : Nat} {f : Formula}
    (run : m.finish stop = .ok f) : f.AllWindows P := by
  unfold Machine.finish at run
  have phase := h.phase
  split at run
  · cases run
  · cases run
  · cases run
  · rename_i node same
    rw [same] at phase
    split at run
    · cases run
    · cases run
      exact phase

end Machine

/-- What holds of every accepted window holds of all windows of a formula that was read. -/
theorem allWindows_of_parse (accepted : ∀ ⦃letter token w⦄, windowOf letter token = .ok w → P w)
    {source : String} {f : Formula} (run : parse limit source = .ok f) : f.AllWindows P := by
  obtain ⟨m, consumed, finished⟩ := exists_run_of_parse run
  have start : Machine.AllWindows P {} := ⟨nofun, trivial⟩
  have kept : m.AllWindows P :=
    Machine.consume_keeps (P := fun _ m => m.AllWindows P) start
      (fun _ _ _ _ _ moved kept => kept.moves accepted moved) consumed
  exact kept.finish finished

theorem wellFormed_of_windowOf {letter : Char} {token : Token} {w : Interval}
    (h : windowOf letter token = .ok w) : w.WellFormed := by
  unfold windowOf at h
  split_ifs at h
  split at h
  · cases h
  · split_ifs at h with ordered
    cases h
    exact ordered

end MissionTime.Formula
