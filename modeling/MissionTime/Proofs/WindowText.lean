import MissionTime.Formula.Parser
import Mathlib.Algebra.Group.Nat.Defs
import Mathlib.Data.List.TakeWhile

/-! The texts of windows. A bound is read from its eleven leading significant digits, which is as good as
reading them all: a number with more of them exceeds the largest bound. -/
namespace MissionTime

theorem Text.isBlank_or_mem_trim {c : Char} {text : List Char} (mem : c ∈ text) :
    isBlank c = true ∨ c ∈ trim text := by
  have kept {source : List Char} (h : c ∈ source) : isBlank c = true ∨ c ∈ source.dropWhile isBlank := by
    rw [← List.takeWhile_append_dropWhile (p := isBlank) (l := source), List.mem_append] at h
    exact h.imp_left List.mem_takeWhile_imp
  rcases kept mem with blank | mem
  · exact .inl blank
  · rw [trim, trimEnd, List.mem_reverse]
    exact kept (List.mem_reverse.2 mem)

namespace Interval

structure IsBound (n : Nat) (text : List Char) : Prop where
  nonempty : Text.trim text ≠ []
  digits : ∀ c ∈ Text.trim text, c.isDigit = true
  value : Nat.ofDigitChars 10 (Text.trim text) 0 = n

/-- The texts of a window that may stand behind an operator. -/
def Spelled (w : Interval) (text : List Char) : Prop :=
  (∃ low high, text = '[' :: (low ++ ',' :: (high ++ [']'])) ∧ IsBound w.low low ∧ IsBound w.high high) ∧
    w.low ≤ w.high ∧ w.high ≤ maxTime

theorem ofDigitChars_dropWhile_zero (digits : List Char) :
    Nat.ofDigitChars 10 (digits.dropWhile (· == '0')) 0 = Nat.ofDigitChars 10 digits 0 := by
  induction digits with
  | nil => rfl
  | cons c digits ih =>
    by_cases zero : c = '0'
    · subst zero
      rw [List.dropWhile_cons_of_pos (by simp), ih, Nat.ofDigitChars_cons]
      rfl
    · rw [List.dropWhile_cons_of_neg (by simpa using zero)]

theorem pow_le_ofDigitChars {c : Char} (digit : c.isDigit = true) (nonzero : c ≠ '0')
    (digits : List Char) : 10 ^ digits.length ≤ Nat.ofDigitChars 10 (c :: digits) 0 := by
  have lowest : '0'.toNat ≤ c.toNat := (Char.isDigit_iff_toNat.1 digit).1
  have other : c.toNat ≠ '0'.toNat := fun same => nonzero (Char.toNat_inj.1 same)
  rw [Nat.ofDigitChars_cons, Nat.ofDigitChars_eq_ofDigitChars_zero]
  calc 10 ^ digits.length
      ≤ 10 ^ digits.length * (10 * 0 + (c.toNat - '0'.toNat)) := Nat.le_mul_of_pos_right _ (by omega)
    _ ≤ _ := Nat.le_add_right ..

/-- Eleven significant digits tell whether a number is a possible bound, and which one. -/
theorem ofDigitChars_take {digits : List Char} (all : ∀ c ∈ digits, c.isDigit = true) :
    Nat.ofDigitChars 10 ((digits.dropWhile (· == '0')).take 11) 0 = Nat.ofDigitChars 10 digits 0 ∨
    maxTime < Nat.ofDigitChars 10 ((digits.dropWhile (· == '0')).take 11) 0 ∧
      maxTime < Nat.ofDigitChars 10 digits 0 := by
  rw [← ofDigitChars_dropWhile_zero digits]
  by_cases short : (digits.dropWhile (· == '0')).length ≤ 11
  · rw [List.take_of_length_le short]
    exact .inl rfl
  · right
    cases significant : digits.dropWhile (· == '0') with
    | nil => simp [significant] at short
    | cons c rest =>
      have digit : c.isDigit = true :=
        all c ((List.dropWhile_sublist _).subset (significant ▸ List.mem_cons_self))
      have nonzero : c ≠ '0' := by
        simpa [significant] using List.head?_dropWhile_not (· == '0') digits
      rw [significant, List.length_cons] at short
      have taken : (rest.take 10).length = 10 := by simp; omega
      have ten := pow_le_ofDigitChars digit nonzero (rest.take 10)
      have all := pow_le_ofDigitChars digit nonzero rest
      have grows : 10 ^ 10 ≤ 10 ^ rest.length := Nat.pow_le_pow_right (by decide) (by omega)
      rw [taken] at ten
      rw [List.take_succ_cons]
      unfold maxTime
      omega

theorem bound?_eq_some_iff {text : List Char} {n : Nat} :
    bound? text = some n ↔ IsBound n text ∧ n ≤ maxTime := by
  constructor
  · intro read
    simp only [bound?] at read
    split_ifs at read with accepted
    obtain ⟨nonempty, digits, small⟩ := accepted
    have digits : ∀ c ∈ Text.trim text, c.isDigit = true := by simpa using digits
    have value := Option.some.inj read
    rcases ofDigitChars_take digits with same | ⟨large, -⟩
    · exact ⟨⟨nonempty, digits, same.symm.trans value⟩, value ▸ small⟩
    · omega
  · rintro ⟨⟨nonempty, digits, value⟩, small⟩
    rcases ofDigitChars_take digits with same | ⟨-, large⟩
    · have accepted : (Text.trim text).all Char.isDigit = true := by simpa using digits
      simp [bound?, nonempty, accepted, same, value, small]
    · omega

theorem comma_notMem_of_isBound {text : List Char} {n : Nat} (h : IsBound n text) : ',' ∉ text := by
  intro mem
  rcases Text.isBlank_or_mem_trim mem with blank | mem
  · exact absurd blank (by decide)
  · exact absurd (h.digits _ mem) (by decide)

theorem ofBody?_eq_some_iff {body : List Char} {w : Interval} :
    ofBody? body = some w ↔ ∃ low high, body = low ++ ',' :: high ∧
      (IsBound w.low low ∧ w.low ≤ maxTime) ∧ IsBound w.high high ∧ w.high ≤ maxTime := by
  constructor
  · intro read
    unfold ofBody? at read
    split at read
    · rename_i low high parts
      have joined : [','].intercalate (body.splitOn ',') = body := List.intercalate_splitOn ','
      rw [parts] at joined
      simp only [Option.pure_def, Option.bind_eq_bind, Option.bind_eq_some_iff] at read
      obtain ⟨m, readLow, n, readHigh, same⟩ := read
      cases same
      exact ⟨low, high, by simp [← joined], bound?_eq_some_iff.1 readLow, bound?_eq_some_iff.1 readHigh⟩
    · cases read
  · rintro ⟨low, high, rfl, isLow, isHigh⟩
    have parts : (low ++ ',' :: high).splitOn ',' = [low, high] := by
      rw [List.splitOn_append_cons_self_of_not_mem (comma_notMem_of_isBound isLow.1),
        List.splitOn_eq_singleton (comma_notMem_of_isBound isHigh.1)]
    simp [ofBody?, parts, bound?_eq_some_iff.2 isLow, bound?_eq_some_iff.2 isHigh]

theorem Spelled.ne_nil {w : Interval} {text : List Char} (h : w.Spelled text) : text ≠ [] := by
  obtain ⟨⟨low, high, rfl, -, -⟩, -⟩ := h
  nofun

theorem spelled_iff {tail : List Char} {w : Interval} :
    w.Spelled ('[' :: tail) ↔
      tail.getLast? = some ']' ∧ ofBody? tail.dropLast = some w ∧ w.WellFormed := by
  rw [ofBody?_eq_some_iff]
  constructor
  · rintro ⟨⟨low, high, text, isLow, isHigh⟩, ordered, small⟩
    have tail_eq : tail = (low ++ ',' :: high) ++ [']'] := by simpa using text
    rw [tail_eq, List.getLast?_concat, List.dropLast_concat]
    exact ⟨rfl, ⟨low, high, rfl, ⟨isLow, ordered.trans small⟩, isHigh, small⟩, ordered⟩
  · rintro ⟨closed, ⟨low, high, body, isLow, isHigh⟩, ordered⟩
    obtain ⟨inner, rfl⟩ := List.getLast?_eq_some_iff.1 closed
    rw [List.dropLast_concat] at body
    exact ⟨⟨low, high, by simp [body], isLow.1, isHigh.1⟩, ordered, isHigh.2⟩

end Interval

/-- Behind an operator, exactly the spelled windows are accepted. -/
theorem Formula.windowOf_eq_ok_iff {letter : Char} {token : Token} {w : Interval} {tail : List Char}
    (text : token.text = '[' :: tail) :
    windowOf letter token = .ok w ↔ token.kind = .window ∧ w.Spelled token.text := by
  have same : token.tail = tail := (List.cons.inj text).2
  rw [text, Interval.spelled_iff, windowOf, same]
  constructor
  · intro read
    split_ifs at read with kind closed
    split at read
    · cases read
    · rename_i window body
      split_ifs at read with ordered
      cases read
      exact ⟨not_not.1 kind, not_not.1 closed, body, ordered⟩
  · rintro ⟨kind, closed, body, ordered⟩
    simp [kind, closed, body, ordered]

end MissionTime
