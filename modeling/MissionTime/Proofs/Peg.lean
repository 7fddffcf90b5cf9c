import Mathlib.Data.List.Basic

/-! Parsing expression grammars over characters. A choice is ordered, a repetition takes all that it can,
and a lookahead consumes nothing, so an expression matches a text in one way only. Captured parts are
returned with their kind, from left to right; `Captures` also tells where they stand. -/
namespace MissionTime

inductive Peg (κ : Type)
  | empty
  | one (accepts : Char → Bool)
  | seq (first second : Peg κ)
  | choice (first second : Peg κ)
  | many (body : Peg κ)
  /-- Matches the empty text where `body` does not match. -/
  | absent (body : Peg κ)
  | captured (kind : κ) (body : Peg κ)
  | finish

namespace Peg

variable {κ : Type}

def optional (body : Peg κ) : Peg κ := choice body empty

def among (chars : List Char) : Peg κ := one (chars.contains ·)

def any : Peg κ := one fun _ => true

abbrev Result (κ : Type) := Option (List (κ × List Char) × List Char)

inductive Matches : Peg κ → List Char → Result κ → Prop
  | empty {s} : Matches .empty s (some ([], s))
  | one {accepts c s} (accepted : accepts c = true) : Matches (.one accepts) (c :: s) (some ([], s))
  | oneOther {accepts c s} (other : accepts c = false) : Matches (.one accepts) (c :: s) none
  | oneEnd {accepts} : Matches (.one accepts) [] none
  | seq {a b s t u xs ys} (first : Matches a s (some (xs, t))) (second : Matches b t (some (ys, u))) :
    Matches (.seq a b) s (some (xs ++ ys, u))
  | seqFirst {a b s} (first : Matches a s none) : Matches (.seq a b) s none
  | seqSecond {a b s t xs} (first : Matches a s (some (xs, t))) (second : Matches b t none) :
    Matches (.seq a b) s none
  | choiceFirst {a b s r} (first : Matches a s (some r)) : Matches (.choice a b) s (some r)
  | choiceSecond {a b s r} (first : Matches a s none) (second : Matches b s r) :
    Matches (.choice a b) s r
  | manyStop {a s} (stop : Matches a s none) : Matches (.many a) s (some ([], s))
  | manyStep {a s t u xs ys} (first : Matches a s (some (xs, t)))
    (rest : Matches (.many a) t (some (ys, u))) : Matches (.many a) s (some (xs ++ ys, u))
  | absent {a s} (none : Matches a s none) : Matches (.absent a) s (some ([], s))
  | absentFound {a s r} (found : Matches a s (some r)) : Matches (.absent a) s none
  | captured {k a s t xs text} (body : Matches a s (some (xs, t))) (split : s = text ++ t) :
    Matches (.captured k a) s (some ([(k, text)], t))
  | capturedNone {k a s} (body : Matches a s none) : Matches (.captured k a) s none
  | finish : Matches .finish [] (some ([], []))
  | finishMore {c s} : Matches .finish (c :: s) none

theorem Matches.unique {g : Peg κ} {s : List Char} {r r' : Result κ} (h : g.Matches s r)
    (h' : g.Matches s r') : r = r' := by
  induction h generalizing r' with
  | empty | oneEnd | finish | finishMore =>
    cases h'
    rfl
  | one accepted =>
    cases h' with
    | one => rfl
    | oneOther other => simp [accepted] at other
  | oneOther other =>
    cases h' with
    | one accepted => simp [accepted] at other
    | oneOther => rfl
  | seq _ _ ih₁ ih₂ =>
    cases h' with
    | seq first second =>
      cases ih₁ first
      cases ih₂ second
      rfl
    | seqFirst first => cases ih₁ first
    | seqSecond first second =>
      cases ih₁ first
      cases ih₂ second
  | seqFirst _ ih =>
    cases h' with
    | seq first second => cases ih first
    | seqFirst first => rfl
    | seqSecond first second => cases ih first
  | seqSecond _ _ ih₁ ih₂ =>
    cases h' with
    | seq first second =>
      cases ih₁ first
      cases ih₂ second
    | seqFirst first => cases ih₁ first
    | seqSecond first second => rfl
  | choiceFirst _ ih =>
    cases h' with
    | choiceFirst first => exact ih first
    | choiceSecond first second => cases ih first
  | choiceSecond _ _ ih₁ ih₂ =>
    cases h' with
    | choiceFirst first => cases ih₁ first
    | choiceSecond first second => exact ih₂ second
  | manyStop _ ih =>
    cases h' with
    | manyStop stop => rfl
    | manyStep first rest => cases ih first
  | manyStep _ _ ih₁ ih₂ =>
    cases h' with
    | manyStop stop => cases ih₁ stop
    | manyStep first rest =>
      cases ih₁ first
      cases ih₂ rest
      rfl
  | absent _ ih =>
    cases h' with
    | absent none => rfl
    | absentFound found => cases ih found
  | absentFound _ ih =>
    cases h' with
    | absent none => cases ih none
    | absentFound found => rfl
  | captured _ split ih =>
    cases h' with
    | captured body split' =>
      cases ih body
      rw [List.append_cancel_right (split.symm.trans split')]
    | capturedNone body => cases ih body
  | capturedNone _ ih =>
    cases h' with
    | captured body split => cases ih body
    | capturedNone body => rfl

theorem matches_among {chars : List Char} {c : Char} (h : c ∈ chars) (s : List Char) :
    (among chars : Peg κ).Matches (c :: s) (some ([], s)) :=
  .one (by simpa using h)

theorem not_matches_among {chars : List Char} {c : Char} (h : c ∉ chars) (s : List Char) :
    (among chars : Peg κ).Matches (c :: s) none :=
  .oneOther (by simpa using h)

theorem matches_optional_none {a : Peg κ} {s : List Char} (h : a.Matches s none) :
    a.optional.Matches s (some ([], s)) :=
  .choiceSecond h .empty

theorem matches_many_stop_seq {a b : Peg κ} {s u : List Char} {ys : List (κ × List Char)}
    (stop : a.Matches s none) (last : b.Matches s (some (ys, u))) :
    (seq (many a) b).Matches s (some (ys, u)) :=
  .seq (.manyStop stop) last

theorem matches_many_step_seq {a b : Peg κ} {s t u : List Char} {xs ys : List (κ × List Char)}
    (step : a.Matches s (some (xs, t))) (rest : (seq (many a) b).Matches t (some (ys, u))) :
    (seq (many a) b).Matches s (some (xs ++ ys, u)) := by
  cases rest with
  | seq first second =>
    rw [← List.append_assoc]
    exact .seq (.manyStep step first) second

theorem matches_many_one (accepts : Char → Bool) (s : List Char) :
    (many (one accepts) : Peg κ).Matches s (some ([], s.dropWhile accepts)) := by
  induction s with
  | nil => exact .manyStop .oneEnd
  | cons c s ih =>
    cases accepted : accepts c with
    | true =>
      rw [List.dropWhile_cons_of_pos accepted]
      exact .manyStep (.one accepted) ih
    | false =>
      rw [List.dropWhile_cons_of_neg (by simp [accepted])]
      exact .manyStop (.oneOther accepted)

structure Capture (κ : Type) where
  kind : κ
  text : List Char
  after : List Char

def Capture.labelled (x : Capture κ) : κ × List Char := (x.kind, x.text)

/-- The captures of a successful match with their places, and the text behind the match. -/
inductive Captures : Peg κ → List Char → List (Capture κ) → List Char → Prop
  | empty {s} : Captures .empty s [] s
  | one {accepts c s} (accepted : accepts c = true) : Captures (.one accepts) (c :: s) [] s
  | seq {a b s t u xs ys} (first : Captures a s xs t) (second : Captures b t ys u) :
    Captures (.seq a b) s (xs ++ ys) u
  | choiceFirst {a b s t xs} (first : Captures a s xs t) : Captures (.choice a b) s xs t
  | choiceSecond {a b s t xs} (first : Matches a s none) (second : Captures b s xs t) :
    Captures (.choice a b) s xs t
  | manyStop {a s} (stop : Matches a s none) : Captures (.many a) s [] s
  | manyStep {a s t u xs ys} (first : Captures a s xs t) (rest : Captures (.many a) t ys u) :
    Captures (.many a) s (xs ++ ys) u
  | absent {a s} (none : Matches a s none) : Captures (.absent a) s [] s
  | captured {k a s t xs text} (body : Matches a s (some (xs, t))) (split : s = text ++ t) :
    Captures (.captured k a) s [⟨k, text, t⟩] t
  | finish : Captures .finish [] [] []

variable {g : Peg κ} {s t : List Char} {xs : List (Capture κ)}

theorem Captures.matches (h : g.Captures s xs t) : g.Matches s (some (xs.map Capture.labelled, t)) := by
  induction h with
  | empty => exact .empty
  | one accepted => exact .one accepted
  | seq _ _ ih₁ ih₂ =>
    rw [List.map_append]
    exact .seq ih₁ ih₂
  | choiceFirst _ ih => exact .choiceFirst ih
  | choiceSecond first _ ih => exact .choiceSecond first ih
  | manyStop stop => exact .manyStop stop
  | manyStep _ _ ih₁ ih₂ =>
    rw [List.map_append]
    exact .manyStep ih₁ ih₂
  | absent none => exact .absent none
  | captured body split => exact .captured body split
  | finish => exact .finish

theorem Captures.not_matches_none (h : g.Captures s xs t) : ¬ g.Matches s none := by
  intro failed
  cases h.matches.unique failed

theorem Captures.unique {xs' : List (Capture κ)} {t' : List Char} (h : g.Captures s xs t)
    (h' : g.Captures s xs' t') : xs = xs' ∧ t = t' := by
  induction h generalizing xs' t' with
  | empty | one | absent | finish =>
    cases h'
    exact ⟨rfl, rfl⟩
  | seq _ _ ih₁ ih₂ =>
    cases h' with
    | seq first second =>
      obtain ⟨rfl, rfl⟩ := ih₁ first
      obtain ⟨rfl, rfl⟩ := ih₂ second
      exact ⟨rfl, rfl⟩
  | choiceFirst found ih =>
    cases h' with
    | choiceFirst first => exact ih first
    | choiceSecond first _ => exact (found.not_matches_none first).elim
  | choiceSecond failed _ ih =>
    cases h' with
    | choiceFirst first => exact (first.not_matches_none failed).elim
    | choiceSecond _ second => exact ih second
  | manyStop stop =>
    cases h' with
    | manyStop => exact ⟨rfl, rfl⟩
    | manyStep first _ => exact (first.not_matches_none stop).elim
  | manyStep found _ ih₁ ih₂ =>
    cases h' with
    | manyStop stop => exact (found.not_matches_none stop).elim
    | manyStep first rest =>
      obtain ⟨rfl, rfl⟩ := ih₁ first
      obtain ⟨rfl, rfl⟩ := ih₂ rest
      exact ⟨rfl, rfl⟩
  | captured body split =>
    cases h' with
    | captured body' split' =>
      cases body.unique body'
      rw [List.append_cancel_right (split.symm.trans split')]
      exact ⟨rfl, rfl⟩

theorem Matches.captures_nil (h : g.Matches s (some ([], t))) : g.Captures s [] t := by
  generalize same : some ([], t) = result at h
  induction h generalizing t with
  | empty =>
    cases same
    exact .empty
  | one accepted =>
    cases same
    exact .one accepted
  | @seq a b s u v xs ys _ _ ih₁ ih₂ =>
    obtain ⟨none, rfl⟩ := Prod.mk.inj (Option.some.inj same)
    obtain ⟨rfl, rfl⟩ := List.append_eq_nil_iff.1 none.symm
    exact .seq (ih₁ rfl) (ih₂ rfl)
  | choiceFirst _ ih => exact .choiceFirst (ih same)
  | choiceSecond first _ _ ih => exact .choiceSecond first (ih same)
  | manyStop stop =>
    cases same
    exact .manyStop stop
  | @manyStep a s u v xs ys _ _ ih₁ ih₂ =>
    obtain ⟨none, rfl⟩ := Prod.mk.inj (Option.some.inj same)
    obtain ⟨rfl, rfl⟩ := List.append_eq_nil_iff.1 none.symm
    exact .manyStep (ih₁ rfl) (ih₂ rfl)
  | absent none =>
    cases same
    exact .absent none
  | finish =>
    cases same
    exact .finish
  | oneOther | oneEnd | seqFirst | seqSecond | absentFound | captured | capturedNone | finishMore =>
    cases same

def capturesWhole : Peg κ → Bool
  | .captured _ _ => true
  | .choice a b => a.capturesWhole && b.capturesWhole
  | _ => false

theorem Matches.captures_whole {k : κ} {text : List Char} (h : g.Matches s (some ([(k, text)], t)))
    (whole : g.capturesWhole = true) : g.Captures s [⟨k, text, t⟩] t := by
  induction g with
  | captured _ _ _ =>
    cases h with
    | captured body split => exact .captured body split
  | choice a b iha ihb =>
    rw [capturesWhole, Bool.and_eq_true] at whole
    cases h with
    | choiceFirst first => exact .choiceFirst (iha first whole.1)
    | choiceSecond first second => exact .choiceSecond first (ihb second whole.2)
  | _ => cases whole

theorem captures_many_stop_seq {a b : Peg κ} (stop : a.Matches s none) (last : b.Captures s xs t) :
    (seq (many a) b).Captures s xs t :=
  .seq (.manyStop stop) last

theorem captures_many_step_seq {a b : Peg κ} {u : List Char} {ys : List (Capture κ)}
    (step : a.Captures s xs t) (rest : (seq (many a) b).Captures t ys u) :
    (seq (many a) b).Captures s (xs ++ ys) u := by
  cases rest with
  | seq first second =>
    rw [← List.append_assoc]
    exact .seq (.manyStep step first) second

end Peg
end MissionTime
