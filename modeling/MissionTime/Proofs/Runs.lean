import Mathlib.Data.List.Forall2

/-! Runs of computations that keep a state and may fail. The state outlives a failure, so a run ends in
a result together with the state that it leaves. -/
namespace MissionTime.Runs

variable {ε σ α β : Type}

theorem run_bind (x : ExceptT ε (StateM σ) α) (f : α → ExceptT ε (StateM σ) β) (s : σ) :
    (x >>= f).run s = match x.run s with
      | (.ok a, s') => (f a).run s'
      | (.error e, s') => (.error e, s') := by
  simp only [bind, ExceptT.bind, ExceptT.run, ExceptT.mk, StateT.bind]
  rcases x s with ⟨_ | _, _⟩ <;> rfl

theorem run_get_bind (f : σ → ExceptT ε (StateM σ) β) (s : σ) : (get >>= f).run s = (f s).run s := rfl

theorem run_modifyGet_bind (f : σ → α × σ) (g : α → ExceptT ε (StateM σ) β) (s : σ) :
    (modifyGet f >>= g).run s = (g (f s).1).run (f s).2 := rfl

theorem run_modify_bind (f : σ → σ) (g : PUnit → ExceptT ε (StateM σ) β) (s : σ) :
    (modify f >>= g).run s = (g ⟨⟩).run (f s) := rfl

theorem run_ofExcept (result : Except ε α) (s : σ) :
    (MonadExcept.ofExcept result : ExceptT ε (StateM σ) α).run s = (result, s) := by
  cases result <;> rfl

theorem run_bind_ok {x : ExceptT ε (StateM σ) α} {f : α → ExceptT ε (StateM σ) β} {s s' : σ} {a : α}
    (h : x.run s = (.ok a, s')) : (x >>= f).run s = (f a).run s' := by
  rw [run_bind, h]

theorem run_bind_error {x : ExceptT ε (StateM σ) α} {f : α → ExceptT ε (StateM σ) β} {s s' : σ}
    {e : ε} (h : x.run s = (.error e, s')) : (x >>= f).run s = (.error e, s') := by
  rw [run_bind, h]

theorem run_map (f : α → β) (x : ExceptT ε (StateM σ) α) (s : σ) :
    (f <$> x).run s = ((x.run s).1.map f, (x.run s).2) := by
  rw [map_eq_pure_bind, run_bind]
  rcases x.run s with ⟨_ | _, _⟩ <;> rfl

theorem run_map_ok {x : ExceptT ε (StateM σ) α} {f : α → β} {s s' : σ} {a : α}
    (h : x.run s = (.ok a, s')) : (f <$> x).run s = (.ok (f a), s') := by
  rw [run_map, h]
  rfl

theorem run_bind_eq_ok {x : ExceptT ε (StateM σ) α} {f : α → ExceptT ε (StateM σ) β} {s t : σ}
    {b : β} (h : (x >>= f).run s = (.ok b, t)) :
    ∃ a s', x.run s = (.ok a, s') ∧ (f a).run s' = (.ok b, t) := by
  rw [run_bind] at h
  split at h
  · exact ⟨_, _, ‹_›, h⟩
  · cases h

/-- A loop keeps what each of its rounds keeps. The invariant knows the items that are done. -/
theorem run_forM {f : α → ExceptT ε (StateM σ) PUnit} {I : List α → σ → Prop} {items : List α}
    (round : ∀ ⦃done a rest s⦄, items = done ++ a :: rest → I done s →
      ∃ s', (f a).run s = (.ok ⟨⟩, s') ∧ I (done ++ [a]) s')
    {s : σ} (start : I [] s) : ∃ s', (items.forM f).run s = (.ok ⟨⟩, s') ∧ I items s' := by
  suffices loop : ∀ rest done s, items = done ++ rest → I done s →
      ∃ s', (rest.forM f).run s = (.ok ⟨⟩, s') ∧ I items s' from loop items [] s rfl start
  intro rest
  induction rest with
  | nil =>
    intro done s all inv
    refine ⟨s, rfl, ?_⟩
    rwa [all, List.append_nil]
  | cons a rest ih =>
    intro done s all inv
    obtain ⟨s₁, run₁, inv₁⟩ := round all inv
    obtain ⟨s₂, run₂, inv₂⟩ := ih (done ++ [a]) s₁ (by simpa using all) inv₁
    refine ⟨s₂, ?_, inv₂⟩
    rw [List.forM, run_bind_ok run₁]
    exact run₂

theorem eq_ok_of_toOption {result : Except ε α} {a : α} (h : result.toOption = some a) :
    result = .ok a := by
  cases result with
  | error e => cases h
  | ok b => exact congrArg Except.ok (Option.some.inj h)

theorem exists_error_of_mapError {result : Except ε α} {f : ε → β} {b : β}
    (h : result.mapError f = .error b) : ∃ e, result = .error e ∧ f e = b := by
  cases result with
  | error e => exact ⟨e, rfl, Except.error.inj h⟩
  | ok a => cases h

theorem exists_of_bind_eq_ok {x : Except ε α} {f : α → Except ε β} {b : β} (h : (x >>= f) = .ok b) :
    ∃ a, x = .ok a ∧ f a = .ok b := by
  cases x with
  | error e => cases h
  | ok a => exact ⟨a, rfl, h⟩

theorem of_bind_eq_error {x : Except ε α} {f : α → Except ε β} {e : ε} (h : (x >>= f) = .error e) :
    x = .error e ∨ ∃ a, x = .ok a ∧ f a = .error e := by
  cases x with
  | error e' =>
    cases h
    exact .inl rfl
  | ok a => exact .inr ⟨a, rfl, h⟩

theorem forall₂_of_mapM {f : α → Except ε β} {as : List α} {bs : List β} (h : as.mapM f = .ok bs) :
    List.Forall₂ (fun a b => f a = .ok b) as bs := by
  induction as generalizing bs with
  | nil =>
    cases h
    exact .nil
  | cons a as ih =>
    rw [List.mapM_cons] at h
    cases first : f a with
    | error e =>
      rw [first] at h
      cases h
    | ok b =>
      cases rest : as.mapM f with
      | error e =>
        rw [first, rest] at h
        cases h
      | ok bs =>
        rw [first, rest] at h
        cases h
        exact .cons first (ih rest)

theorem mapM_map_result {γ : Type} (f : α → Except ε β) (g : β → γ) (as : List α) :
    (as.mapM fun a => (f a).map g) = (as.mapM f).map (List.map g) := by
  induction as with
  | nil => rfl
  | cons a as ih =>
    rw [List.mapM_cons, List.mapM_cons, ih]
    cases f a with
    | error e => rfl
    | ok b => cases as.mapM f <;> rfl

theorem exists_append_of_forall₂ {R : α → β → Prop} {as as' : List α} {bs : List β}
    (related : List.Forall₂ R (as ++ as') bs) :
    ∃ cs cs', bs = cs ++ cs' ∧ List.Forall₂ R as cs ∧ List.Forall₂ R as' cs' :=
  ⟨bs.take as.length, bs.drop as.length, (List.take_append_drop ..).symm,
    (List.forall₂_take_append _ _ _ related.flip).flip, (List.forall₂_drop_append _ _ _ related.flip).flip⟩

theorem forall_mem_of_forall₂ {R : α → β → Prop} {as : List α} {bs : List β}
    (related : List.Forall₂ R as bs) {P : β → Prop} (each : ∀ a ∈ as, ∀ b, R a b → P b) :
    ∀ b ∈ bs, P b := by
  induction related with
  | nil => nofun
  | cons first _ ih =>
    refine List.forall_mem_cons.2 ⟨each _ List.mem_cons_self _ first, ih fun a mem => ?_⟩
    exact each a (List.mem_cons_of_mem _ mem)

theorem mapM_eq_error_iff {f : α → Except ε β} {as : List α} {e : ε} :
    as.mapM f = .error e ↔ ∃ before a after, as = before ++ a :: after ∧
      (∀ b ∈ before, ∃ c, f b = .ok c) ∧ f a = .error e := by
  constructor
  · intro h
    induction as with
    | nil => cases h
    | cons a as ih =>
      rw [List.mapM_cons] at h
      cases first : f a with
      | error e' =>
        rw [first] at h
        cases h
        exact ⟨[], a, as, rfl, nofun, first⟩
      | ok c =>
        cases rest : as.mapM f with
        | error e' =>
          rw [first, rest] at h
          cases h
          obtain ⟨before, b, after, rfl, succeed, fails⟩ := ih rest
          exact ⟨a :: before, b, after, rfl, List.forall_mem_cons.2 ⟨⟨c, first⟩, succeed⟩, fails⟩
        | ok cs =>
          rw [first, rest] at h
          cases h
  · rintro ⟨before, a, after, rfl, succeed, fails⟩
    induction before with
    | nil =>
      rw [List.nil_append, List.mapM_cons, fails]
      rfl
    | cons b before ih =>
      obtain ⟨⟨c, first⟩, succeed⟩ := List.forall_mem_cons.1 succeed
      rw [List.cons_append, List.mapM_cons, first, ih succeed]
      rfl

def Ends (Q : α → σ → Prop) (E : ε → σ → Prop) : Except ε α × σ → Prop
  | (.ok a, s) => Q a s
  | (.error e, s) => E e s

theorem Ends.imp {Q Q' : α → σ → Prop} {E : ε → σ → Prop} {run : Except ε α × σ} (h : Ends Q E run)
    (weaken : ∀ a s, Q a s → Q' a s) : Ends Q' E run := by
  rcases run with ⟨e | a, s⟩
  · exact h
  · exact weaken a s h

/-- From every state with `P` a computation ends with `Q` or fails with `E`. -/
def Ensures (P : σ → Prop) (x : ExceptT ε (StateM σ) α) (Q : α → σ → Prop) (E : ε → σ → Prop) : Prop :=
  ∀ ⦃s⦄, P s → Ends Q E (x.run s)

section Ensures
variable {P I : σ → Prop} {Q : α → σ → Prop} {E : ε → σ → Prop}

theorem Ensures.pure {a : α} (h : ∀ ⦃s⦄, P s → Q a s) :
    Ensures P (Pure.pure a : ExceptT ε (StateM σ) α) Q E := h

theorem Ensures.ofExcept {result : Except ε α} (ok : ∀ a, result = .ok a → ∀ ⦃s⦄, P s → Q a s)
    (error : ∀ e, result = .error e → ∀ ⦃s⦄, P s → E e s) :
    Ensures P (MonadExcept.ofExcept result : ExceptT ε (StateM σ) α) Q E := by
  intro s start
  rw [run_ofExcept]
  cases result with
  | ok a => exact ok a rfl start
  | error e => exact error e rfl start

theorem Ensures.bind {x : ExceptT ε (StateM σ) α} {f : α → ExceptT ε (StateM σ) β}
    {R : β → σ → Prop} (hx : Ensures P x Q E) (hf : ∀ a, Ensures (Q a) (f a) R E) :
    Ensures P (x >>= f) R E := by
  intro s start
  have first := hx start
  rw [run_bind]
  rcases run : x.run s with ⟨e | a, t⟩ <;> rw [run] at first
  · exact first
  · exact hf a first

theorem Ensures.get_bind {f : σ → ExceptT ε (StateM σ) β} {R : β → σ → Prop}
    (h : ∀ s, P s → Ensures (· = s) (f s) R E) : Ensures P (get >>= f) R E :=
  fun s start => h s start rfl

theorem Ensures.modify_bind {f : σ → σ} {g : PUnit → ExceptT ε (StateM σ) β} {R : β → σ → Prop}
    (changed : ∀ ⦃s⦄, P s → I (f s)) (h : Ensures I (g ⟨⟩) R E) : Ensures P (modify f >>= g) R E :=
  fun _ start => h (changed start)

theorem Ensures.forM {f : α → ExceptT ε (StateM σ) PUnit} (round : ∀ a, Ensures I (f a) (fun _ => I) E)
    (items : List α) : Ensures I (items.forM f) (fun _ => I) E := by
  induction items with
  | nil => exact .pure fun _ => id
  | cons a items ih => exact (round a).bind fun _ => ih

end Ensures

/-- The results that a computation can have. What holds of them holds whatever state it starts from. -/
def Yields (x : ExceptT ε (StateM σ) α) (a : α) : Prop := ∃ s s', x.run s = (.ok a, s')

theorem Yields.eq_of_pure {a b : α} (h : Yields (pure a : ExceptT ε (StateM σ) α) b) : b = a := by
  obtain ⟨s, s', run⟩ := h
  cases run
  rfl

theorem not_yields_throw (e : ε) (a : α) : ¬ Yields (throw e : ExceptT ε (StateM σ) α) a := by
  rintro ⟨s, s', run⟩
  cases run

theorem Yields.of_bind {x : ExceptT ε (StateM σ) α} {f : α → ExceptT ε (StateM σ) β} {b : β}
    (h : Yields (x >>= f) b) : ∃ a, Yields x a ∧ Yields (f a) b := by
  obtain ⟨s, t, run⟩ := h
  obtain ⟨a, s', run_x, run_f⟩ := run_bind_eq_ok run
  exact ⟨a, ⟨s, s', run_x⟩, ⟨s', t, run_f⟩⟩

theorem Yields.of_mapM {f : α → ExceptT ε (StateM σ) β} {as : List α} {bs : List β}
    (h : Yields (as.mapM f) bs) : List.Forall₂ (fun a b => Yields (f a) b) as bs := by
  induction as generalizing bs with
  | nil =>
    rw [h.eq_of_pure]
    exact .nil
  | cons a as ih =>
    rw [List.mapM_cons] at h
    obtain ⟨b, hb, h⟩ := h.of_bind
    obtain ⟨bs', hbs, h⟩ := h.of_bind
    rw [h.eq_of_pure]
    exact .cons hb (ih hbs)

end MissionTime.Runs
