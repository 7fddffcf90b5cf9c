import MissionTime.Proofs.FaultPlaces

/-! Which part of a text each token takes. The grammar of tokens matches every text; its tokens stand one
behind the other, they leave out blanks only, and what starts no token is taken as junk up to the end of
the text. So no character is passed over and none is read twice. -/
namespace MissionTime.Token
open Text

variable {start : Nat} {tokens : List Token} {token : Token} {source : List Char}

theorem start_lt_stop (token : Token) : token.start < token.stop := by
  have := token.head.utf8Size_pos
  rw [stop, text, byteLength_cons]
  omega

theorem split_append {a b before behind : List Char} {c : Char} (whole : a ++ b = before ++ c :: behind) :
    (∃ rest, a = before ++ c :: rest) ∨ ∃ mid, before = a ++ mid ∧ b = mid ++ c :: behind := by
  rcases List.append_eq_append_iff.1 whole with ⟨mid, rfl, rfl⟩ | ⟨mid, rfl, rest⟩
  · exact .inr ⟨mid, rfl, rfl⟩
  · cases mid with
    | nil => exact .inr ⟨[], by simp, by simpa using rest.symm⟩
    | cons d mid =>
      obtain ⟨rfl, -⟩ := List.cons.inj rest
      exact .inl ⟨mid, rfl⟩

namespace Tiled

theorem start_le (tiled : Tiled start tokens source) : ∀ token ∈ tokens, start ≤ token.start := by
  induction tiled with
  | nil => simp
  | @cons start gap token tokens _ place _ ih =>
    have := token.start_lt_stop
    refine List.forall_mem_cons.2 ⟨by omega, fun later mem => ?_⟩
    have := ih later mem
    omega

theorem pairwise (tiled : Tiled start tokens source) : tokens.Pairwise fun a b => a.stop ≤ b.start := by
  induction tiled with
  | nil => exact .nil
  | cons _ _ rest ih => exact .cons rest.start_le ih

theorem covers (tiled : Tiled start tokens source) {before behind : List Char} {c : Char}
    (split : source = before ++ c :: behind) :
    (∃ token ∈ tokens, token.start ≤ start + byteLength before ∧
      start + byteLength before + c.utf8Size ≤ token.stop) ∨ isSpace c = true := by
  induction tiled generalizing before with
  | nil blank => exact .inr (blank c (by simp [split]))
  | @cons start gap token tokens blank place _ ih =>
    rcases split_append split with ⟨rest, rfl⟩ | ⟨mid, rfl, behindGap⟩
    · exact .inr (blank c (by simp))
    rcases split_append behindGap with ⟨rest, inside⟩ | ⟨mid', rfl, behindToken⟩
    · refine .inl ⟨token, List.mem_cons_self, ?_, ?_⟩
      · rw [place, byteLength_append]
        omega
      · rw [stop, place, inside]
        simp only [byteLength_append, byteLength_cons]
        omega
    · have offset : start + byteLength (gap ++ (token.text ++ mid')) = token.stop + byteLength mid' := by
        rw [stop, place]
        simp only [byteLength_append]
        omega
      rw [offset]
      rcases ih behindToken with ⟨later, mem, found⟩ | space
      · exact .inl ⟨later, List.mem_cons_of_mem token mem, found⟩
      · exact .inr space

theorem eq_nil (tiled : Tiled start tokens []) : tokens = [] := by
  generalize whole : ([] : List Char) = source at tiled
  cases tiled with
  | nil => rfl
  | cons => simp [text] at whole

theorem getLast?_eq (tiled : Tiled start tokens source) (mem : token ∈ tokens) (last : token.after = []) :
    tokens.getLast? = some token := by
  induction tiled with
  | nil => cases mem
  | @cons _ _ first tokens _ _ rest ih =>
    rcases List.mem_cons.1 mem with rfl | mem
    · rw [last] at rest
      rw [rest.eq_nil]
      rfl
    · rw [List.getLast?_cons, ih mem]
      rfl

end Tiled

theorem after_of_junk (mem : token ∈ scan start source) (junk : token.kind = .junk) : token.after = [] := by
  fun_induction scan start source with
  | case1 => cases mem
  | case2 start c source space ih => exact ih mem
  | case3 start c source solid kind tail split first ih =>
    rcases List.mem_cons.1 mem with rfl | mem
    · have whole := lexeme_snd_of_junk ((congrArg Prod.fst split).trans junk)
      rw [split] at whole
      simp [first, ← whole]
    · exact ih mem

theorem exists_stands_of_mem (mem : token ∈ scan 0 source) : ∃ before, token.Stands source before := by
  obtain ⟨front, behind, scanned⟩ := List.append_of_mem mem
  obtain ⟨before, stands, -⟩ := Formula.exists_stands scanned
  exact ⟨before, stands⟩

/-- The grammar never fails on a text, and it captures the tokens of the scanner: each of them covers some
bytes of the text, the next one starts where it ends or later, every character outside of them is a blank,
and junk is the last of them and reaches to the end of the text. -/
theorem grammar_covers_source (source : String) :
    ¬ TokenGrammar.formula.Matches source.toList none ∧
    (∀ captures rest, TokenGrammar.formula.Captures source.toList captures rest ↔
      captures = (scan 0 source.toList).map capture ∧ rest = []) ∧
    (∀ token ∈ scan 0 source.toList, token.start < token.stop ∧
      slice? source.toList token.span = some token.text ∧
      token.stop + byteLength token.after = source.utf8ByteSize) ∧
    (scan 0 source.toList).Pairwise (fun a b => a.stop ≤ b.start) ∧
    (∀ before c behind, source.toList = before ++ c :: behind →
      (∃ token ∈ scan 0 source.toList,
        token.start ≤ byteLength before ∧ byteLength before + c.utf8Size ≤ token.stop) ∨
        c ∈ [' ', '\t', '\r', '\n']) ∧
    ∀ token ∈ scan 0 source.toList, token.kind = .junk →
      (scan 0 source.toList).getLast? = some token ∧ token.stop = source.utf8ByteSize := by
  have captured := TokenGrammar.formula_captures source.toList
  have tiled := tiled_scan 0 source.toList
  have placed (token : Token) (mem : token ∈ scan 0 source.toList) : token.start < token.stop ∧
      slice? source.toList token.span = some token.text ∧
      token.stop + byteLength token.after = source.utf8ByteSize := by
    obtain ⟨before, stands⟩ := exists_stands_of_mem mem
    have place : token.span = ⟨byteLength before, byteLength before + byteLength token.text⟩ := by
      rw [span, stop, stands.start]
    refine ⟨token.start_lt_stop, slice?_eq_some_iff.2 ⟨before, token.after, stands.split, place⟩, ?_⟩
    rw [utf8ByteSize_eq, stands.split, stop, stands.start, rest, byteLength_append, byteLength_append]
    omega
  refine ⟨captured.not_matches_none, fun captures rest => ⟨fun h => h.unique captured, ?_⟩, placed,
    tiled.pairwise, fun before c behind split => ?_, fun token mem junk => ?_⟩
  · rintro ⟨rfl, rfl⟩
    exact captured
  · have covered := tiled.covers split
    simpa only [Nat.zero_add, TokenGrammar.isSpace_iff] using covered
  · have last := after_of_junk mem junk
    refine ⟨tiled.getLast?_eq mem last, ?_⟩
    simpa [last] using (placed token mem).2.2

end MissionTime.Token
