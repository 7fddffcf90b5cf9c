import MissionTime.Proofs.ParserRuns
import MissionTime.Proofs.Runs

/-! The parser accepts exactly its grammar. At every moment the stack of the machine and its phase
account for the tokens that it has consumed: each frame for a token or two, and for the operand that it
keeps. -/
namespace MissionTime
open Text Runs

/-- The texts that a token of each kind can have. -/
def Lexeme.Shaped : Lexeme → Prop
  | (.leftParen, text) => text = ['(']
  | (.rightParen, text) => text = [')']
  | (.bang, text) => text = ['!']
  | (.amp, text) => text = ['&']
  | (.bar, text) => text = ['|']
  | (.window, text) => ∃ tail, text = '[' :: tail
  | (.word, text) => Formula.isName text = true
  | (.junk, _) => True

namespace Token

theorem isAlphanum_of_mem_wordTail {c : Char} {source : List Char} (mem : c ∈ wordTail source) :
    c.isAlphanum = true := by
  induction source with
  | nil => cases mem
  | cons d source ih =>
    rw [wordTail] at mem
    split_ifs at mem with continues
    · rcases List.mem_cons.1 mem with rfl | mem
      · exact (Bool.and_eq_true_iff.1 continues).1
      · exact ih mem
    · cases mem

theorem shaped_lexeme (c : Char) (source : List Char) :
    Lexeme.Shaped ((lexeme c source).1, c :: (lexeme c source).2) := by
  unfold lexeme
  split
  iterate 5 rfl
  · exact ⟨_, rfl⟩
  · split_ifs with letter
    · have tail : ∀ d ∈ wordTail source, d.isAlphanum = true := fun _ => isAlphanum_of_mem_wordTail
      simpa [Lexeme.Shaped, Formula.isName, letter] using tail
    · trivial

theorem shaped_of_mem_scan {start : Nat} {source : List Char} {token : Token}
    (mem : token ∈ scan start source) : token.spelling.Shaped := by
  fun_induction scan start source with
  | case1 => cases mem
  | case2 start c source space ih => exact ih mem
  | case3 start c source space kind tail lexeme_eq token' ih =>
    rcases List.mem_cons.1 mem with rfl | mem
    · have shaped := shaped_lexeme c source
      rwa [lexeme_eq] at shaped
    · exact ih mem

end Token

namespace Formula

theorem Derives.operand {ts : List Lexeme} {f : Formula} : Nonempty (Derivation .unary ts f) → Derives ts f
  | ⟨d⟩ => ⟨.operand d⟩

namespace Machine

/-- The tokens that the frames of a stack account for. A binary operator waits only directly above a
parenthesis or at the bottom. -/
inductive Stacked : List Frame → List Lexeme → Prop
  | nil : Stacked [] []
  | paren {stack ts start} (below : Stacked stack ts) :
    Stacked (.paren start :: stack) (ts ++ [(.leftParen, ['('])])
  | unary {stack ts os op} (below : Stacked stack ts) (operator : Unary.Spelled op os) :
    Stacked (.unary op :: stack) (ts ++ os)
  | binary {stack ts ls os left op} (below : Stacked stack ts) (settled : Settled stack)
    (operand : Derives ls left.formula) (operator : Binary.Spelled op os) :
    Stacked (.binary left op :: stack) (ts ++ (ls ++ os))

structure Finished (stack : List Frame) (f : Formula) (ts : List Lexeme) : Prop where
  settled : Settled stack
  split : ∃ us vs, ts = us ++ vs ∧ Stacked stack us ∧ Derives vs f

def Reads (m : Machine) (ts : List Lexeme) : Prop :=
  match m.phase with
  | .operand => Stacked m.stack ts
  | .operator left => Finished m.stack left.formula ts
  | .unaryWindow op _ => ∃ us, ts = us ++ [(.word, [op.letter])] ∧ Stacked m.stack us
  | .binaryWindow left op => ∃ us, ts = us ++ [(.word, [op.letter])] ∧ Finished m.stack left.formula us

variable {limit pending : Nat} {span : Span} {stack : List Frame} {m m' : Machine} {ts : List Lexeme}

theorem reads_reduce {node : Node} {us vs : List Lexeme}
    (run : reduce limit span stack pending node = .ok m') (stacked : Stacked stack us)
    (operand : Nonempty (Derivation .unary vs node.formula)) : m'.Reads (us ++ vs) := by
  fun_induction reduce limit span stack pending node generalizing us vs with
  | case1 => cases run
  | case2 pending node op stack _ ih =>
    obtain ⟨d⟩ := operand
    cases stacked with
    | unary below operator =>
      rw [List.append_assoc]
      exact ih run below ⟨.unary operator d⟩
  | case3 => cases run
  | case4 pending node left op stack _ ih =>
    obtain ⟨right⟩ := operand
    cases stacked with
    | binary below settled operand operator =>
      obtain ⟨left⟩ := operand
      rw [(threshold_reduce_settled settled _ _ span).enough limit (Nat.zero_le _)] at run
      cases run
      exact ⟨settled, _, _, by simp, below, ⟨.binary left operator right⟩⟩
  | case5 stack pending node notUnary notBinary =>
    cases run
    have settled : Settled stack := by
      cases stacked with
      | nil => exact .nil
      | paren => exact .paren
      | unary => exact (notUnary _ _ rfl).elim
      | binary => exact (notBinary _ _ _ rfl).elim
    exact ⟨settled, us, vs, rfl, stacked, .operand operand⟩

theorem spelled_of_windowOf {letter : Char} {token : Token} {w : Interval} (shaped : token.spelling.Shaped)
    (accepted : windowOf letter token = .ok w) : ∃ text, token.spelling = (.window, text) ∧ w.Spelled text := by
  have kind : token.kind = .window := by
    unfold windowOf at accepted
    split_ifs at accepted with other
    exact not_not.1 other
  unfold Token.spelling at shaped ⊢
  rw [kind] at shaped ⊢
  obtain ⟨tail, text⟩ := shaped
  exact ⟨_, rfl, ((windowOf_eq_ok_iff text).1 accepted).2⟩

theorem Finished.await {left : Node} {op : Binary} {os : List Lexeme}
    (finished : Finished stack left.formula ts) (operator : op.Spelled os) :
    Stacked (.binary left op :: stack) (ts ++ os) := by
  obtain ⟨settled, us, vs, rfl, stacked, operand⟩ := finished
  rw [List.append_assoc]
  exact .binary stacked settled operand operator

theorem Reads.moves (h : m.Reads ts) {token : Token} (shaped : token.spelling.Shaped)
    (moved : Moves limit token m m') : m'.Reads (ts ++ [token.spelling]) := by
  have spelling {kind : Token.Kind} (same : token.kind = kind) : token.spelling = (kind, token.text) := by
    rw [Token.spelling, same]
  cases moved with
  | negation kind _ =>
    rw [spelling kind] at shaped ⊢
    rw [show token.text = ['!'] from shaped]
    exact .unary h .not
  | opening kind _ =>
    rw [spelling kind] at shaped ⊢
    rw [show token.text = ['('] from shaped]
    exact .paren h
  | modality op kind text => exact ⟨ts, by rw [spelling kind, text], h⟩
  | name kind notF notG run =>
    rw [spelling kind] at shaped ⊢
    exact reads_reduce run h ⟨.atom ⟨shaped, notF, notG⟩⟩
  | and kind =>
    rw [spelling kind] at shaped ⊢
    rw [show token.text = ['&'] from shaped]
    exact Finished.await h .and
  | or kind =>
    rw [spelling kind] at shaped ⊢
    rw [show token.text = ['|'] from shaped]
    exact Finished.await h .or
  | linkage op kind text => exact ⟨ts, by rw [spelling kind, text], h⟩
  | closing kind run =>
    obtain ⟨-, us, vs, rfl, stacked, ⟨inner⟩⟩ := h
    cases stacked with
    | paren below =>
      rw [spelling kind] at shaped ⊢
      rw [show token.text = [')'] from shaped]
      have closed := reads_reduce run below ⟨.paren inner⟩
      simpa using closed
  | @unaryWindow _ _ op _ _ accepted _ =>
    obtain ⟨us, rfl, stacked⟩ := h
    obtain ⟨text, spelling, window⟩ := spelled_of_windowOf shaped accepted
    rw [spelling, List.append_assoc]
    refine Stacked.unary stacked ?_
    cases op with
    | eventually => exact .eventually window
    | always => exact .always window
  | @binaryWindow _ _ _ op _ accepted =>
    obtain ⟨us, rfl, finished⟩ := h
    obtain ⟨text, spelling, window⟩ := spelled_of_windowOf shaped accepted
    rw [spelling, List.append_assoc]
    refine Finished.await finished ?_
    cases op with
    | «until» => exact .until window
    | release => exact .release window

theorem reads_of_consume {tokens : List Token} (shaped : ∀ token ∈ tokens, token.spelling.Shaped)
    (run : consume tokens {} limit = .ok m) : m.Reads (tokens.map Token.spelling) := by
  have start : Reads {} [] := Stacked.nil
  refine consume_keeps (P := fun taken m => m.Reads (taken.map Token.spelling)) start ?_ run
  intro taken token m m' mem moved reads
  rw [List.map_append]
  exact reads.moves (shaped token mem) moved

theorem Reads.finish (h : m.Reads ts) {stop : Nat} {f : Formula} (run : m.finish stop = .ok f) :
    Derives ts f := by
  unfold Machine.finish at run
  unfold Reads at h
  split at run
  · cases run
  · cases run
  · cases run
  · rename_i node phase
    rw [phase] at h
    obtain ⟨settled, us, vs, rfl, stacked, derives⟩ := h
    cases same : m.stack with
    | nil =>
      rw [same] at run stacked
      cases run
      cases stacked
      exact derives
    | cons frame stack =>
      rw [same] at run settled
      cases settled
      cases run

end Machine

theorem derives_of_parse {limit : Nat} {source : String} {f : Formula} (run : parse limit source = .ok f) :
    Derives (Token.spellings source.toList) f := by
  obtain ⟨m, consumed, finished⟩ := exists_run_of_parse run
  exact (Machine.reads_of_consume (fun _ => Token.shaped_of_mem_scan) consumed).finish finished

theorem Unary.Spelled.solid {op : Unary} {os : List Lexeme} (h : op.Spelled os) :
    ∀ t ∈ os, t.1 ≠ .junk ∧ t.2 ≠ [] := by
  cases h with
  | not => simp
  | eventually window => simp [window.ne_nil]
  | always window => simp [window.ne_nil]

theorem Binary.Spelled.solid {op : Binary} {os : List Lexeme} (h : op.Spelled os) :
    ∀ t ∈ os, t.1 ≠ .junk ∧ t.2 ≠ [] := by
  cases h with
  | and => simp
  | or => simp
  | «until» window => simp [window.ne_nil]
  | release window => simp [window.ne_nil]

theorem Derivation.solid {category : Category} {ts : List Lexeme} {f : Formula}
    (d : Derivation category ts f) : ∀ t ∈ ts, t.1 ≠ .junk ∧ t.2 ≠ [] := by
  induction d with
  | operand d ih => exact ih
  | binary left operator right ihl ihr =>
    exact List.forall_mem_append.2 ⟨ihl, List.forall_mem_append.2 ⟨operator.solid, ihr⟩⟩
  | unary operator d ih => exact List.forall_mem_append.2 ⟨operator.solid, ih⟩
  | paren d ih =>
    exact List.forall_mem_cons.2 ⟨⟨nofun, nofun⟩, List.forall_mem_append.2 ⟨ih, by simp⟩⟩
  | atom named =>
    refine List.forall_mem_singleton.2 ⟨nofun, ?_⟩
    rintro rfl
    exact absurd named.1 (by decide)

def tokenOf (lexeme : Lexeme) : Token := ⟨lexeme.1, 0, lexeme.2.headD ' ', lexeme.2.tail, []⟩

theorem spelling_tokenOf {lexeme : Lexeme} (h : lexeme.2 ≠ []) : (tokenOf lexeme).spelling = lexeme := by
  obtain ⟨kind, text⟩ := lexeme
  cases text with
  | nil => exact (h rfl).elim
  | cons c text => rfl

theorem Derives.unique {ts : List Lexeme} {f g : Formula} (hf : Derives ts f) (hg : Derives ts g) :
    f = g := by
  obtain ⟨d⟩ := hf
  obtain ⟨e⟩ := hg
  have spelled : (ts.map tokenOf).map Token.spelling = ts := by
    rw [List.map_map]
    exact (List.map_congr_left fun t mem => spelling_tokenOf (d.solid t mem).2).trans (List.map_id ts)
  -- Both derivations guide the machine through the same run.
  have runF := (threshold_readTokens d spelled 0).enough (max d.need e.need) (le_max_left ..)
  have runG := (threshold_readTokens e spelled 0).enough (max d.need e.need) (le_max_right ..)
  exact Except.ok.inj (runF.symm.trans runG)

/-- A text is accepted under some limit if and only if it has no junk and its tokens are an expression
for the formula that is returned; and no sequence of tokens is an expression for two formulas. -/
theorem exists_parse_iff_derives (source : String) (f : Formula) :
    ((∃ limit, parse limit source = .ok f) ↔
      ∃ lexemes, TokenGrammar.formula.Matches source.toList (some (lexemes, [])) ∧
        (∀ lexeme ∈ lexemes, lexeme.1 ≠ .junk) ∧ Derives lexemes f) ∧
    ∀ lexemes g, Derives lexemes f → Derives lexemes g → f = g := by
  refine ⟨⟨?_, ?_⟩, fun _ _ => Derives.unique⟩
  · rintro ⟨limit, run⟩
    have derives := derives_of_parse run
    have matched := TokenGrammar.formula_matches source.toList
    obtain ⟨d⟩ := id derives
    exact ⟨_, matched, fun t mem => (d.solid t mem).1, derives⟩
  · rintro ⟨lexemes, matched, -, ⟨d⟩⟩
    obtain rfl := TokenGrammar.eq_spellings_of_matches matched
    exact ⟨d.need, parse_of_need_le d le_rfl⟩

theorem exists_derives_letters :
    ∃ lexemes, TokenGrammar.formula.Matches "U U[0, 02]R|!(aU)".toList (some (lexemes, [])) ∧
      (∀ lexeme ∈ lexemes, lexeme.1 ≠ .junk) ∧
      Derives lexemes (.or (.until ⟨0, 2⟩ (.atom "U") (.atom "R")) (.not (.atom "aU"))) :=
  (exists_parse_iff_derives _ _).1.1 ⟨3, eq_ok_of_toOption (by decide +kernel)⟩

end Formula
end MissionTime
