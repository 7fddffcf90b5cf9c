import MissionTime.Proofs.ParserGrammar

/-! The nesting limit as a threshold. The machine compares the limit only with numbers that do not depend
on it, so on every text there is a least limit that is never reached, and from there on the result stays
the same. On an expression the least limit is read off the text, by counting what is open, and off the
nesting of the formula. -/
namespace MissionTime.Formula
open Text

def HasCutoff {α : Type} (run : Nat → Except Located α) : Prop := ∃ need result, Cutoff need run result

section Cutoff
variable {α β : Type} {m n : Nat} {run : Nat → Except Located α} {result : Except Located α}

theorem Cutoff.le {result' : Except Located α} (h : Cutoff m run result) (h' : Cutoff n run result') :
    m ≤ n := by
  by_contra below
  obtain ⟨span, failed⟩ := h.short n (Nat.lt_of_not_le below)
  exact h'.unlimited _ n ((h'.enough n le_rfl).symm.trans failed) rfl

theorem Cutoff.unique {result' : Except Located α} (h : Cutoff m run result) (h' : Cutoff n run result') :
    m = n ∧ result = result' := by
  obtain rfl : m = n := Nat.le_antisymm (h.le h') (h'.le h)
  exact ⟨rfl, (h.enough m le_rfl).symm.trans (h'.enough m le_rfl)⟩

namespace HasCutoff

theorem of_threshold {a : α} (h : Threshold n run a) : HasCutoff run := ⟨n, _, Threshold.iff_cutoff.1 h⟩

theorem ok (a : α) : HasCutoff fun _ => .ok a := of_threshold (.ok a)

theorem error {fault : SyntaxFault} (other : ∀ limit, fault ≠ .nestingTooDeep limit) (span : Span) :
    HasCutoff (α := α) fun _ => .error ⟨fault, span⟩ := by
  refine ⟨0, _, ?_, fun _ _ => rfl, fun _ below => absurd below (Nat.not_lt_zero _)⟩
  rintro _ limit ⟨⟩
  exact other limit

theorem guarded (m : Nat) (span : Span) (rest : HasCutoff run) :
    HasCutoff fun limit => if limit < m then .error ⟨.nestingTooDeep limit, span⟩ else run limit := by
  obtain ⟨n, result, h⟩ := rest
  exact ⟨max m n, result, h.guarded m span⟩

theorem bind {next : Nat → α → Except Located β} (first : HasCutoff run)
    (second : ∀ a, HasCutoff fun limit => next limit a) :
    HasCutoff fun limit => run limit >>= next limit := by
  obtain ⟨m, result, h⟩ := first
  cases result with
  | error located =>
    -- What would come next is never reached, under no limit.
    refine ⟨m, .error located, ?_, fun limit reached => ?_, fun limit below => ?_⟩
    · rintro _ limit ⟨⟩
      exact h.unlimited located limit rfl
    · rw [h.enough limit reached]
      rfl
    · obtain ⟨span, failed⟩ := h.short limit below
      exact ⟨span, by rw [failed]; rfl⟩
  | ok a =>
    obtain ⟨n, result, h'⟩ := second a
    exact ⟨max m n, result, h.bind h'⟩

end HasCutoff

end Cutoff

theorem hasCutoff_windowOf (letter : Char) (token : Token) : HasCutoff fun _ => windowOf letter token := by
  unfold windowOf
  split_ifs
  · exact .error (by simp) _
  · exact .error (by simp) _
  · split
    · exact .error (by simp) _
    · split_ifs
      · exact .ok _
      · exact .error (by simp) _

theorem hasCutoff_trailing {α : Type} (token : Token) : HasCutoff (α := α) fun _ => .error (trailing token) :=
  .error (by simp) _

namespace Machine

theorem hasCutoff_enter (span : Span) (frame : Frame) (m : Machine) :
    HasCutoff fun limit => m.enter limit span frame :=
  .of_threshold (threshold_enter span frame m)

theorem hasCutoff_reduce (span : Span) (stack : List Frame) (pending : Nat) (node : Node) :
    HasCutoff fun limit => reduce limit span stack pending node := by
  induction stack generalizing pending node with
  | nil => exact .of_threshold (threshold_reduce_settled .nil pending node span)
  | cons frame stack ih =>
    cases frame with
    | paren start => exact .of_threshold (threshold_reduce_settled .paren pending node span)
    | unary op =>
      simp only [reduce]
      exact (ih _ _).guarded _ span
    | binary left op =>
      simp only [reduce]
      exact (ih _ _).guarded _ span

theorem hasCutoff_readOperand (m : Machine) (token : Token) :
    HasCutoff fun limit => m.readOperand limit token := by
  unfold readOperand
  split
  · exact hasCutoff_enter _ _ m
  · exact hasCutoff_enter _ _ m
  · split
    · exact .ok _
    · exact .ok _
    · exact hasCutoff_reduce _ _ _ _
  · exact .error (by simp) _

theorem hasCutoff_readLinkage (m : Machine) (left : Node) (op : Linkage) (token : Token) :
    HasCutoff fun _ => m.readLinkage left op token := by
  unfold readLinkage
  split
  · exact .ok _
  · exact .error (by simp) _

theorem hasCutoff_readOperator (m : Machine) (left : Node) (token : Token) :
    HasCutoff fun limit => m.readOperator limit left token := by
  unfold readOperator
  split
  · exact .ok _
  · exact .ok _
  · split
    · exact hasCutoff_reduce _ _ _ _
    · exact hasCutoff_trailing token
  · split
    · exact hasCutoff_readLinkage m left .until token
    · exact hasCutoff_readLinkage m left .release token
    · exact hasCutoff_trailing token
  · exact hasCutoff_trailing token

theorem hasCutoff_step (m : Machine) (token : Token) : HasCutoff fun limit => m.step limit token := by
  unfold step
  split
  · exact hasCutoff_readOperand m token
  · exact hasCutoff_readOperator m _ token
  · exact (hasCutoff_windowOf _ token).bind fun _ => hasCutoff_enter _ _ m
  · exact (hasCutoff_windowOf _ token).bind fun _ => .ok _

theorem hasCutoff_consume (tokens : List Token) (m : Machine) : HasCutoff (consume tokens m) := by
  induction tokens generalizing m with
  | nil => exact .ok m
  | cons token tokens ih => exact (hasCutoff_step m token).bind ih

theorem hasCutoff_finish (stop : Nat) (m : Machine) : HasCutoff fun _ => m.finish stop := by
  unfold finish
  split
  · exact .error (by simp) _
  · exact .error (by simp) _
  · exact .error (by simp) _
  · split
    · exact .error (by simp) _
    · exact .ok _

end Machine

theorem hasCutoff_readTokens (stop : Nat) (tokens : List Token) :
    HasCutoff fun limit => readTokens limit stop tokens :=
  (Machine.hasCutoff_consume tokens {}).bind (Machine.hasCutoff_finish stop)

/-- What is open in front of a token: a parenthesis, or an operator whose operand is not complete. -/
inductive Mark
  | paren
  | operator

def complete : List Mark → List Mark
  | .operator :: marks => complete marks
  | marks => marks

def openAfter (marks : List Mark) : Lexeme → List Mark
  | (.leftParen, _) => .paren :: marks
  | (.rightParen, _) => complete marks.tail
  | (.bang, _) | (.word, ['F']) | (.word, ['G']) => .operator :: marks
  | (.word, _) => complete marks
  | _ => marks

def mostOpenFrom (marks : List Mark) : List Lexeme → Nat
  | [] => marks.length
  | t :: ts => max marks.length (mostOpenFrom (openAfter marks t) ts)

/-- The largest number of parentheses and operators in front of their operands that are open at once. -/
def mostOpen (ts : List Lexeme) : Nat := mostOpenFrom [] ts

section Marks
variable {marks : List Mark}

theorem length_le_mostOpenFrom (marks : List Mark) (ts : List Lexeme) :
    marks.length ≤ mostOpenFrom marks ts := by
  cases ts with
  | nil => exact le_rfl
  | cons t ts => exact le_max_left ..

theorem openAfter_atom {name : List Char} (named : AtomName name) :
    openAfter marks (.word, name) = complete marks := by
  unfold openAfter
  split
  iterate 3 simp_all
  · exact absurd (congrArg Prod.snd ‹_›) named.2.1
  · exact absurd (congrArg Prod.snd ‹_›) named.2.2
  · rfl
  · simp_all

theorem mostOpenFrom_unary {op : Unary} {os : List Lexeme} (operator : op.Spelled os) (ts : List Lexeme) :
    mostOpenFrom marks (os ++ ts) = max marks.length (mostOpenFrom (.operator :: marks) ts) := by
  have opened := length_le_mostOpenFrom (.operator :: marks) ts
  cases operator with
  | not => rfl
  | _ =>
    simp only [List.cons_append, List.nil_append, mostOpenFrom, openAfter]
    omega

theorem mostOpenFrom_binary (settled : complete marks = marks) {op : Binary} {os : List Lexeme}
    (operator : op.Spelled os) (ts : List Lexeme) :
    mostOpenFrom marks (os ++ ts) = mostOpenFrom marks ts := by
  have opened := length_le_mostOpenFrom marks ts
  cases operator <;> simp [mostOpenFrom, openAfter, settled, opened]

theorem mostOpenFrom_derivation {category : Category} {ts : List Lexeme} {f : Formula}
    (d : Derivation category ts f) (settled : category = .expr → complete marks = marks)
    (rest : List Lexeme) :
    mostOpenFrom marks (ts ++ rest) =
      max (max marks.length (d.peak marks.length)) (mostOpenFrom (complete marks) rest) := by
  induction d generalizing marks rest with
  | operand d ih => exact ih nofun rest
  | binary left operator right ihl ihr =>
    rw [List.append_assoc, ihl settled, settled rfl, List.append_assoc,
      mostOpenFrom_binary (settled rfl) operator, ihr nofun, settled rfl, Derivation.peak]
    omega
  | unary operator d ih =>
    rw [List.append_assoc, mostOpenFrom_unary operator, ih nofun, Derivation.peak, List.length_cons, complete]
    omega
  | paren d ih =>
    have inner := @ih (.paren :: marks) (fun _ => rfl) ((.rightParen, [')']) :: rest)
    simp only [List.cons_append, List.append_assoc, List.nil_append, mostOpenFrom, openAfter, complete,
      List.tail_cons, List.length_cons, Derivation.peak] at inner ⊢
    omega
  | atom named =>
    simp only [List.cons_append, List.nil_append, mostOpenFrom, openAfter_atom named, Derivation.peak,
      Nat.max_zero]

theorem mostOpen_eq_peak {ts : List Lexeme} {f : Formula} (d : Derivation .expr ts f) :
    mostOpen ts = d.peak 0 := by
  have count : mostOpenFrom [] (ts ++ []) = _ := mostOpenFrom_derivation d (fun _ => rfl) []
  simpa [mostOpen, mostOpenFrom, complete] using count

end Marks

/-- Every text has a result of its own and a least limit: from there on the result is that one, and under
every smaller limit the nesting is reported with that limit. For an expression the least limit is what its
text has open at once or the nesting of its formula. -/
theorem parse_nesting_threshold (source : String) :
    ∃ need result,
      (∀ diagnostic limit, result = .error diagnostic → diagnostic.fault ≠ .nestingTooDeep limit) ∧
      (∀ limit, need ≤ limit → parse limit source = result) ∧
      (∀ limit, limit < need →
        ∃ span, parse limit source = .error { fault := .nestingTooDeep limit, span, source }) ∧
      ∀ f, result = .ok f → need = max (mostOpen (Token.spellings source.toList)) f.compoundNesting := by
  obtain ⟨need, result, cutoff⟩ :=
    hasCutoff_readTokens (byteLength source.toList) (Token.scan 0 source.toList)
  have short (limit : Nat) (below : limit < need) :
      ∃ span, parse limit source = .error { fault := .nestingTooDeep limit, span, source } := by
    obtain ⟨span, failed⟩ := cutoff.short limit below
    exact ⟨span, by rw [parse, failed]⟩
  cases result with
  | error located =>
    refine ⟨need, .error { located with source }, ?_, fun limit reached => ?_, short, by simp⟩
    · rintro _ limit ⟨⟩
      exact cutoff.unlimited located limit rfl
    · rw [parse, cutoff.enough limit reached]
  | ok f =>
    have enough (limit : Nat) (reached : need ≤ limit) : parse limit source = .ok f := by
      rw [parse, cutoff.enough limit reached]
    refine ⟨need, .ok f, by simp, enough, short, ?_⟩
    rintro _ ⟨⟩
    obtain ⟨d⟩ := derives_of_parse (enough need le_rfl)
    rw [mostOpen_eq_peak d]
    exact (cutoff.unique (Threshold.iff_cutoff.1 (threshold_readTokens d rfl _))).1

example : mostOpen (Token.spellings "!(a & F[0,1] !(b)) | c".toList) = 5 := by decide +kernel

end MissionTime.Formula
