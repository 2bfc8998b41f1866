import TreeEdit.Proofs.Steps

/-!
# Two steps side by side

`Step.Agree R x y s s'` says that `x` from `s` and `y` from `s'` end alike: both answer the same
value or both fail with the same error, and `R` holds between the states that they come to. The
laws below take two composed steps apart together.
-/

namespace TreeEdit.Step

variable {ε σ σ' ρ ρ' α β : Type} {R R' : σ → σ' → Prop} {x : EStateM ε σ α} {y : EStateM ε σ' α}
  {s : σ} {s' : σ'}

/-- The outcomes are the same, and the states are related by `R`. -/
def Agree (R : σ → σ' → Prop) (x : EStateM ε σ α) (y : EStateM ε σ' α) (s : σ) (s' : σ') : Prop :=
  match x s, y s' with
  | .ok a t, .ok a' t' => a = a' ∧ R t t'
  | .error e t, .error e' t' => e = e' ∧ R t t'
  | _, _ => False

/-- Steps that agree have both answered, or both failed. -/
theorem agree_iff : Agree R x y s s' ↔
    (∃ a t t', x s = .ok a t ∧ y s' = .ok a t' ∧ R t t') ∨
      ∃ e t t', x s = .error e t ∧ y s' = .error e t' ∧ R t t' := by
  unfold Agree
  cases x s with
  | ok a t =>
    cases y s' with
    | ok a' t' =>
      constructor
      · rintro ⟨rfl, h⟩
        exact .inl ⟨a, t, t', rfl, rfl, h⟩
      · rintro (⟨_, _, _, hx, hy, h⟩ | ⟨_, _, _, hx, _, _⟩)
        · cases hx
          cases hy
          exact ⟨rfl, h⟩
        · cases hx
    | error e' t' => simp
  | error e t =>
    cases y s' with
    | ok a' t' => simp
    | error e' t' =>
      constructor
      · rintro ⟨rfl, h⟩
        exact .inr ⟨e, t, t', rfl, rfl, h⟩
      · rintro (⟨_, _, _, hx, _, _⟩ | ⟨_, _, _, hx, hy, h⟩)
        · cases hx
        · cases hx
          cases hy
          exact ⟨rfl, h⟩

theorem agree_of_ok {a : α} {t : σ} {t' : σ'} (hx : x s = .ok a t) (hy : y s' = .ok a t')
    (h : R t t') : Agree R x y s s' :=
  agree_iff.mpr (.inl ⟨a, t, t', hx, hy, h⟩)

theorem agree_of_error {e : ε} {t : σ} {t' : σ'} (hx : x s = .error e t)
    (hy : y s' = .error e t') (h : R t t') : Agree R x y s s' :=
  agree_iff.mpr (.inr ⟨e, t, t', hx, hy, h⟩)

theorem agree_pure (a : α) (h : R s s') :
    Agree R (pure a : EStateM ε σ α) (pure a : EStateM ε σ' α) s s' := ⟨rfl, h⟩

theorem agree_throw (e : ε) (h : R s s') :
    Agree R (throw e : EStateM ε σ α) (throw e : EStateM ε σ' α) s s' := ⟨rfl, h⟩

/-- A step agrees with itself on equal states. -/
theorem agree_refl (x : EStateM ε σ α) {s s' : σ} (h : s = s') : Agree Eq x x s s' := by
  subst h
  cases hx : x s with
  | ok a t => exact agree_of_ok hx hx rfl
  | error e t => exact agree_of_error hx hx rfl

theorem agree_ofExcept (y : Except ε α) (h : R s s') :
    Agree R (ofExcept y : EStateM ε σ α) (ofExcept y : EStateM ε σ' α) s s' := by
  cases y with
  | ok a => exact ⟨rfl, h⟩
  | error e => exact ⟨rfl, h⟩

/-- What is kept may be less. -/
theorem Agree.mono (h : Agree R x y s s') (hR : ∀ t t', R t t' → R' t t') :
    Agree R' x y s s' := by
  rcases agree_iff.mp h with ⟨a, t, t', hx, hy, ht⟩ | ⟨e, t, t', hx, hy, ht⟩
  · exact agree_of_ok hx hy (hR t t' ht)
  · exact agree_of_error hx hy (hR t t' ht)

theorem Agree.after (h : Agree R x y s s') : R (Step.after x s) (Step.after y s') := by
  unfold Step.after
  rcases agree_iff.mp h with ⟨a, t, t', hx, hy, ht⟩ | ⟨e, t, t', hx, hy, ht⟩
  · rw [hx, hy]
    exact ht
  · rw [hx, hy]
    exact ht

/-- A step that agrees with one that agrees with a third. -/
theorem Agree.trans {σ'' : Type} {R₂ : σ' → σ'' → Prop} {R₃ : σ → σ'' → Prop}
    {z : EStateM ε σ'' α} {s'' : σ''} (h : Agree R x y s s') (h₂ : Agree R₂ y z s' s'')
    (hR : ∀ t t' t'', R t t' → R₂ t' t'' → R₃ t t'') : Agree R₃ x z s s'' := by
  rcases agree_iff.mp h with ⟨a, t, t', hx, hy, ht⟩ | ⟨e, t, t', hx, hy, ht⟩
  · rcases agree_iff.mp h₂ with ⟨_, _, t'', hy', hz, ht'⟩ | ⟨_, _, _, hy', -, -⟩
    · cases hy.symm.trans hy'
      exact agree_of_ok hx hz (hR _ _ _ ht ht')
    · cases hy.symm.trans hy'
  · rcases agree_iff.mp h₂ with ⟨_, _, _, hy', -, -⟩ | ⟨_, _, t'', hy', hz, ht'⟩
    · cases hy.symm.trans hy'
    · cases hy.symm.trans hy'
      exact agree_of_error hx hz (hR _ _ _ ht ht')

/-- Steps that agree, and go on alike from related states. What is kept may weaken on the way. -/
theorem agree_bind_mono {f : α → EStateM ε σ β} {g : α → EStateM ε σ' β} (h : Agree R x y s s')
    (hR : ∀ t t', R t t' → R' t t') (hf : ∀ a t t', R t t' → Agree R' (f a) (g a) t t') :
    Agree R' (x >>= f) (y >>= g) s s' := by
  rcases agree_iff.mp h with ⟨a, t, t', hx, hy, ht⟩ | ⟨e, t, t', hx, hy, ht⟩
  · have hrest := hf a t t' ht
    unfold Agree at hrest ⊢
    rwa [bind_ok hx, bind_ok hy]
  · exact agree_of_error (bind_error hx) (bind_error hy) (hR t t' ht)

theorem agree_bind {f : α → EStateM ε σ β} {g : α → EStateM ε σ' β} (h : Agree R x y s s')
    (hf : ∀ a t t', R t t' → Agree R (f a) (g a) t t') : Agree R (x >>= f) (y >>= g) s s' :=
  agree_bind_mono h (fun _ _ h => h) hf

/-- A step without its answer ends as the step does. -/
theorem agree_discard_iff {x : EStateM ε σ α} {y : EStateM ε σ' Unit} :
    Agree R (do let _ ← x) y s s' ↔
      (∃ a t t', x s = .ok a t ∧ y s' = .ok () t' ∧ R t t') ∨
        ∃ e t t', x s = .error e t ∧ y s' = .error e t' ∧ R t t' := by
  rw [agree_iff]
  cases hx : x s with
  | ok a t =>
    rw [bind_ok hx]
    constructor
    · rintro (⟨_, t, t', h, hy, ht⟩ | ⟨_, _, _, h, _, _⟩)
      · cases h
        exact .inl ⟨a, t, t', rfl, hy, ht⟩
      · cases h
    · rintro (⟨_, t, t', h, hy, ht⟩ | ⟨_, _, _, h, _, _⟩)
      · cases h
        exact .inl ⟨(), t, t', rfl, hy, ht⟩
      · cases h
  | error e t =>
    rw [bind_error hx]
    simp

/-- Steps of which one answers more, and that go on alike whatever it answers. -/
theorem agree_bind_discard {α' : Type} {x : EStateM ε σ α'} {y : EStateM ε σ' Unit}
    {f : α' → EStateM ε σ β} {g : Unit → EStateM ε σ' β}
    (h : Agree R (do let _ ← x) y s s') (hf : ∀ a t t', R t t' → Agree R (f a) (g ()) t t') :
    Agree R (x >>= f) (y >>= g) s s' := by
  rcases agree_discard_iff.mp h with ⟨a, t, t', hx, hy, ht⟩ | ⟨e, t, t', hx, hy, ht⟩
  · have hrest := hf a t t' ht
    unfold Agree at hrest ⊢
    rwa [bind_ok hx, bind_ok hy]
  · exact agree_of_error (bind_error hx) (bind_error hy) ht

/-- The first steps may look at their states, as long as they leave them alone. -/
theorem agree_get {f : σ → EStateM ε σ β} {g : σ' → EStateM ε σ' β}
    (h : Agree R (f s) (g s') s s') : Agree R (get >>= f) (get >>= g) s s' := h

theorem agree_modify {f : σ → σ} {g : σ' → σ'} (h : R (f s) (g s')) :
    Agree R (modify f : EStateM ε σ PUnit) (modify g : EStateM ε σ' PUnit) s s' := ⟨rfl, h⟩

theorem agree_onPart {part : σ → ρ} {put : σ → ρ → σ} {part' : σ' → ρ'} {put' : σ' → ρ' → σ'}
    {x : EStateM ε ρ α} {y : EStateM ε ρ' α} {S : ρ → ρ' → Prop}
    (h : Agree S x y (part s) (part' s')) (hS : ∀ r r', S r r' → R (put s r) (put' s' r')) :
    Agree R (onPart part put x) (onPart part' put' y) s s' := by
  rcases agree_iff.mp h with ⟨a, r, r', hx, hy, hr⟩ | ⟨e, r, r', hx, hy, hr⟩
  · exact agree_of_ok (onPart_ok hx) (onPart_ok hy) (hS r r' hr)
  · exact agree_of_error (onPart_error hx) (onPart_error hy) (hS r r' hr)

end TreeEdit.Step
