import MissionTime.Oracle.Clausal
import MissionTime.Proofs.Meaning
import MissionTime.Proofs.ParserGrammar
import MissionTime.Term.Printer

/-! How high the terms of formulas are. The limit under which a text was read bounds the nesting of its
formula, in which a chain of one connective counts as one level; an unrolling makes one connective of such
a chain and at most two of a temporal operator. So the limit also bounds how deep a recursion into the
operands of the term goes. -/
namespace MissionTime
open Runs

namespace Term

mutual

def height : Term → Nat
  | .var _ | .const _ => 1
  | .and ts | .or ts => heightAll ts + 1
  | .not t => t.height + 1

def heightAll : List Term → Nat
  | [] => 0
  | t :: ts => max t.height (heightAll ts)

end

theorem heightAll_le_iff {ts : List Term} {n : Nat} : heightAll ts ≤ n ↔ ∀ t ∈ ts, t.height ≤ n := by
  induction ts with
  | nil => simp [heightAll]
  | cons t ts ih => rw [heightAll, Nat.max_le, ih, List.forall_mem_cons]

@[simp] theorem height_and_le {ts : List Term} {n : Nat} :
    (and ts).height ≤ n + 1 ↔ ∀ t ∈ ts, t.height ≤ n := by
  simp [height, heightAll_le_iff]

@[simp] theorem height_or_le {ts : List Term} {n : Nat} :
    (or ts).height ≤ n + 1 ↔ ∀ t ∈ ts, t.height ≤ n := by
  simp [height, heightAll_le_iff]

theorem height_connective_le (c : Formula.Connective) {ts : List Term} {n : Nat} (h : ∀ t ∈ ts, t.height ≤ n) :
    (c.term ts).height ≤ n + 1 := by
  cases c
  · exact height_and_le.2 h
  · exact height_or_le.2 h

theorem height_conj_le {ts : List Term} {n : Nat} (h : ∀ t ∈ ts, t.height ≤ n) :
    (conj ts).height ≤ n + 1 := by
  unfold conj
  split
  · exact (h _ List.mem_cons_self).trans n.le_succ
  · simpa using h

theorem height_disj_le {ts : List Term} {n : Nat} (h : ∀ t ∈ ts, t.height ≤ n) :
    (disj ts).height ≤ n + 1 := by
  unfold disj
  split
  · exact (h _ List.mem_cons_self).trans n.le_succ
  · simpa using h

theorem height_le_succ_iff {t : Term} {n : Nat} :
    t.height ≤ n + 1 ↔ ∀ u ∈ t.operands, u.height ≤ n := by
  cases t <;> simp [operands, height, heightAll_le_iff]

section Recursion
variable {β : Type} {node : Head → List β → β} {value : Term → β}

/-- `value` is computed by recursion: at every term by `node`, from the top of the term and the values at
its operands. -/
def Recursive (node : Head → List β → β) (value : Term → β) : Prop :=
  ∀ t, value t = node t.head (t.operands.map value)

def recurse (node : Head → List β → β) : Nat → Term → Option β
  | 0, _ => none
  | depth + 1, t => (t.operands.mapM (recurse node depth)).map (node t.head)

theorem mapM_ite {p : Term → Prop} [DecidablePred p] (ts : List Term) :
    (ts.mapM fun t => if p t then some (value t) else none) =
      if ∀ t ∈ ts, p t then some (ts.map value) else none := by
  induction ts with
  | nil => rfl
  | cons t ts ih =>
    simp only [List.mapM_cons, ih, List.forall_mem_cons]
    split_ifs <;> simp_all

/-- The height of a term is the depth of every recursion into it. -/
theorem recurse_eq (recursive : Recursive node value) (depth : Nat) (t : Term) :
    recurse node depth t = if t.height ≤ depth then some (value t) else none := by
  induction depth generalizing t with
  | zero =>
    have positive : ¬ t.height ≤ 0 := by cases t <;> simp [height]
    rw [recurse, if_neg positive]
  | succ depth ih =>
    rw [recurse, funext ih, mapM_ite, recursive t]
    simp only [height_le_succ_iff]
    split_ifs <;> rfl

end Recursion

def sizeNode (_ : Head) (sizes : List Nat) : Nat := sizes.foldr (· + ·) 0 + 1

theorem sizeAll_eq (ts : List Term) : sizeAll ts = (ts.map size).foldr (· + ·) 0 := by
  induction ts with
  | nil => rfl
  | cons t ts ih => rw [sizeAll, ih, List.map_cons, List.foldr_cons]

theorem recursive_size : Recursive sizeNode size := by
  intro t
  cases t <;> simp [size, sizeNode, operands, sizeAll_eq]

def printNode : Head → List (List Char → List Char) → List Char → List Char
  | .var name, _, rest => quoteOnto name rest
  | .const true, _, rest | .and, [], rest => "true".toList ++ rest
  | .const false, _, rest | .or, [], rest => "false".toList ++ rest
  | .and, [text], rest | .or, [text], rest => text rest
  | .and, texts, rest => "(and".toList ++ texts.foldr (fun text rest => ' ' :: text rest) (')' :: rest)
  | .or, texts, rest => "(or".toList ++ texts.foldr (fun text rest => ' ' :: text rest) (')' :: rest)
  | .not, [text], rest => "(not ".toList ++ text (')' :: rest)
  -- A negation has one operand.
  | .not, _, rest => rest

theorem printAllOnto_eq (ts : List Term) (rest : List Char) :
    printAllOnto ts rest = (ts.map printOnto).foldr (fun text rest => ' ' :: text rest) rest := by
  induction ts with
  | nil => rfl
  | cons t ts ih => rw [printAllOnto, ih, List.map_cons, List.foldr_cons]

theorem recursive_printOnto : Recursive printNode printOnto := by
  intro t
  funext rest
  match t with
  | .var _ | .const true | .const false | .not _ | .and [] | .or [] | .and [_] | .or [_] => rfl
  | .and (t :: u :: ts) => exact congrArg ("(and".toList ++ ·) (printAllOnto_eq _ _)
  | .or (t :: u :: ts) => exact congrArg ("(or".toList ++ ·) (printAllOnto_eq _ _)

end Term

namespace Clausal

def gateNode : Term.Head → List (Call Clausal Literal) → Call Clausal Literal
  | .var name, _ => literalOf name
  | .const true, _ | .and, [] => trueLiteral
  | .const false, _ | .or, [] => Literal.negate <$> trueLiteral
  | .and, [call] | .or, [call] => call
  | .and, calls => do
    let ls ← calls.mapM id
    conjunction ls
  | .or, calls => do
    let ls ← calls.mapM id
    disjunction ls
  | .not, [call] => Literal.negate <$> call
  -- A negation has one operand.
  | .not, _ => trueLiteral

theorem gates_eq (ts : List Term) : gates ts = (ts.map gate).mapM id := by
  induction ts with
  | nil => rfl
  | cons t ts ih =>
    rw [gates, ih, List.map_cons, List.mapM_cons]
    rfl

theorem recursive_gate : Term.Recursive gateNode gate := by
  intro t
  match t with
  | .var _ | .const true | .const false | .not _ | .and [] | .or [] | .and [_] | .or [_] => rfl
  | .and (t :: u :: ts) =>
    rw [gate, gates_eq]
    · rfl
    all_goals simp
  | .or (t :: u :: ts) =>
    rw [gate, gates_eq]
    · rfl
    all_goals simp

end Clausal

namespace Formula
open Unroll

variable {f g h : Formula}

theorem nesting_pos (f : Formula) : 0 < f.nesting := by
  cases f <;> simp only [nesting] <;> (try split_ifs) <;> omega

theorem nesting_le_join (c : Connective) (f g : Formula) :
    f.nesting ≤ (c.join f g).nesting ∧ g.nesting < (c.join f g).nesting := by
  cases c
  · exact nesting_le_binary .and f g
  · exact nesting_le_binary .or f g

theorem nesting_lt_join_of_single {c : Connective} (alone : ∀ g h, f ≠ c.join g h) (g : Formula) :
    f.nesting < (c.join f g).nesting := by
  cases c <;> cases f <;>
    first
    | simp only [Connective.join, nesting, Binary.continues, Bool.false_eq_true, if_false]; omega
    | exact absurd rfl (alone _ _)

theorem nesting_lt_of_mem_operands {c : Connective} (mem : h ∈ (c.join f g).operands c) :
    h.nesting < (c.join f g).nesting := by
  rw [operands_join, List.mem_append, List.mem_singleton] at mem
  rcases mem with mem | rfl
  · induction f using alongChain c generalizing g with
    | join f₁ f₂ ih =>
      have deeper := (nesting_le_join c (c.join f₁ f₂) g).1
      rw [operands_join, List.mem_append, List.mem_singleton] at mem
      rcases mem with mem | rfl
      · exact (ih mem).trans_le deeper
      · exact (nesting_le_join c f₁ h).2.trans_le deeper
    | single f alone =>
      rw [operands_single alone, List.mem_singleton] at mem
      rw [mem]
      exact nesting_lt_join_of_single alone g
  · exact (nesting_le_join c f h).2

def Low (f : Formula) : Prop :=
  ∀ ⦃time term⦄, Yields (f.unroll time) term → term.height ≤ 2 * f.nesting - 1

theorem Low.at_offset (low : f.Low) {time k : Nat} {term : Term}
    (yields : Yields (later time k f.unroll) term) : term.height ≤ 2 * f.nesting - 1 :=
  low (yields_later yields).2

theorem Low.before (low : f.Low) {time count : Nat} {terms : List Term}
    (yields : Yields (collect (fun j => later time j f.unroll) 0 count) terms) :
    ∀ term ∈ terms, term.height ≤ 2 * f.nesting - 1 :=
  forall_mem_of_forall₂ (yields_collect yields) fun _ _ _ => low.at_offset

theorem Low.within (low : f.Low) {time : Nat} {w : Interval} {terms : List Term}
    (yields : Yields (within w fun k => later time k f.unroll) terms) :
    ∀ term ∈ terms, term.height ≤ 2 * f.nesting - 1 :=
  forall_mem_of_forall₂ (yields_within yields).2 fun _ _ _ => low.at_offset

theorem Low.branch (hf : f.Low) (hg : g.Low) {time count k : Nat} {term : Term}
    (yields : Yields (branch f.unroll g.unroll time count k) term) :
    term.height ≤ 2 * max f.nesting g.nesting := by
  obtain ⟨before, hbefore, yields⟩ := yields.of_bind
  obtain ⟨goal, hgoal, yields⟩ := yields.of_bind
  have positive := g.nesting_pos
  have all : ∀ t ∈ before ++ [goal], t.height ≤ 2 * max f.nesting g.nesting - 1 := by
    rw [List.forall_mem_append, List.forall_mem_singleton]
    refine ⟨fun t mem => (hf.before hbefore t mem).trans ?_, (hg.at_offset hgoal).trans ?_⟩ <;> omega
  rw [yields.eq_of_pure]
  refine (Term.height_conj_le all).trans ?_
  omega

theorem height_le_of_chain {operands : List Formula} {n : Nat} (low : ∀ h ∈ operands, h.Low)
    (below : ∀ h ∈ operands, h.nesting < n) {time : Nat} {terms : List Term}
    (yields : Yields (operands.mapM fun h => h.unroll time) terms) : ∀ t ∈ terms, t.height ≤ 2 * n - 3 := by
  refine forall_mem_of_forall₂ yields.of_mapM fun h mem term yields => ?_
  have lower := low h mem yields
  have := below h mem
  omega

theorem low (f : Formula) : f.Low := by
  induction f using chainInduction with
  | atom name =>
    intro time term yields
    rw [unroll] at yields
    simp [yields_register yields, Term.height, nesting]
  | not f ih =>
    intro time term yields
    rw [unroll] at yields
    obtain ⟨inner, hinner, yields⟩ := yields.of_bind
    have lower := ih hinner
    have positive := f.nesting_pos
    simp only [yields.eq_of_pure, Term.height, nesting]
    omega
  | chain c f g ih =>
    intro time term yields
    rw [unroll_join] at yields
    obtain ⟨terms, hterms, yields⟩ := yields.of_bind
    have all := height_le_of_chain ih (fun _ => nesting_lt_of_mem_operands) hterms
    have deeper := (nesting_le_join c f g).2
    have positive := g.nesting_pos
    rw [yields.eq_of_pure]
    refine (Term.height_connective_le c all).trans ?_
    omega
  | eventually w f ih =>
    intro time term yields
    rw [unroll] at yields
    obtain ⟨terms, hterms, yields⟩ := yields.of_bind
    have positive := f.nesting_pos
    rw [yields.eq_of_pure]
    refine (Term.height_disj_le (ih.within hterms)).trans ?_
    simp only [nesting]
    omega
  | always w f ih =>
    intro time term yields
    rw [unroll] at yields
    obtain ⟨terms, hterms, yields⟩ := yields.of_bind
    have positive := f.nesting_pos
    rw [yields.eq_of_pure]
    refine (Term.height_conj_le (ih.within hterms)).trans ?_
    simp only [nesting]
    omega
  | «until» w f g ihf ihg =>
    intro time term yields
    rw [unroll_until] at yields
    obtain ⟨branches, hbranches, yields⟩ := yields.of_bind
    have all : ∀ t ∈ branches, t.height ≤ 2 * max f.nesting g.nesting :=
      forall_mem_of_forall₂ (yields_within hbranches).2 fun _ _ _ => ihf.branch ihg
    rw [yields.eq_of_pure]
    refine (Term.height_disj_le all).trans ?_
    simp only [nesting]
    omega
  | release w f g ihf ihg =>
    intro time term yields
    rw [unroll_release] at yields
    obtain ⟨branches, hbranches, yields⟩ := yields.of_bind
    obtain ⟨throughout, hthroughout, yields⟩ := yields.of_bind
    have all : ∀ t ∈ branches ++ [Term.conj throughout], t.height ≤ 2 * max f.nesting g.nesting := by
      rw [List.forall_mem_append, List.forall_mem_singleton]
      constructor
      · refine forall_mem_of_forall₂ (yields_within hbranches).2 fun k _ term yields => ?_
        exact (max_comm f.nesting g.nesting) ▸ ihg.branch ihf yields
      · have positive := g.nesting_pos
        refine (Term.height_conj_le (ihg.before hthroughout)).trans ?_
        omega
    rw [yields.eq_of_pure]
    refine (Term.height_disj_le all).trans ?_
    simp only [nesting]
    omega

theorem nesting_le_of_parse {limit : Nat} {source : String} (positive : 1 ≤ limit)
    (parsed : parse limit source = .ok f) : f.nesting ≤ limit := by
  obtain ⟨d⟩ := derives_of_parse parsed
  have compound : f.compoundNesting ≤ limit := (le_max_right ..).trans (need_le_of_parse d parsed)
  cases f with
  | atom name => exact positive
  | _ => exact compound

/-- The limit under which a text was read bounds the height of every term of its formula, and so the depth
of the recursions that measure the term, print it and turn it into clauses. -/
theorem unroll_height_le_of_parse {limit : Nat} {source : String} (positive : 1 ≤ limit)
    (parsed : parse limit source = .ok f) {time : Nat} {table table' : AtomTable} {term : Term}
    (unrolled : (f.unroll time).run table = (.ok term, table')) :
    term.height ≤ 2 * limit - 1 ∧
    Term.recurse Term.sizeNode (2 * limit - 1) term = some term.size ∧
    Term.recurse Term.printNode (2 * limit - 1) term = some term.printOnto ∧
    Term.recurse Clausal.gateNode (2 * limit - 1) term = some (Clausal.gate term) := by
  have nested := nesting_le_of_parse positive parsed
  have height : term.height ≤ 2 * limit - 1 := (f.low ⟨table, table', unrolled⟩).trans (by omega)
  refine ⟨height, ?_, ?_, ?_⟩
  · rw [Term.recurse_eq Term.recursive_size, if_pos height]
  · rw [Term.recurse_eq Term.recursive_printOnto, if_pos height]
  · rw [Term.recurse_eq Clausal.recursive_gate, if_pos height]

theorem unroll_height_le_of_parse_nested :
    let f : Formula := .until ⟨0, 1⟩ (.until ⟨0, 1⟩ (.atom "a") (.atom "b")) (.atom "c")
    let term : Term := .or [.var "c@0", .and [.or [.var "b@0", .and [.var "a@0", .var "b@1"]], .var "c@1"]]
    parse 3 "a U[0,1] b U[0,1] c" = .ok f ∧
      (∃ table, (f.unroll 0).run ({} : AtomTable) = (.ok term, table)) ∧
      term.height = 2 * 3 - 1 ∧ Term.recurse Term.sizeNode (2 * 3 - 1) term = some term.size := by
  intro f term
  have parsed : parse 3 "a U[0,1] b U[0,1] c" = .ok f := eq_ok_of_toOption (by decide +kernel)
  obtain ⟨table, unrolled⟩ : ∃ table, (f.unroll 0).run ({} : AtomTable) = (.ok term, table) := by
    simp only [f, unroll_until, unroll, within, Interval.WellFormed, branch, collect, later, maxTime]
    exact ⟨_, rfl⟩
  exact ⟨parsed, ⟨table, unrolled⟩, by decide,
    (unroll_height_le_of_parse (by decide) parsed unrolled).2.1⟩

end Formula
end MissionTime
