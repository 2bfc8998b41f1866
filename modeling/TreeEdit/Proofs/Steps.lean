import TreeEdit.Step

/-!
# How steps end

`Step.Ends x s Q E` says of a step `x` from a state `s`: it either answers a value and a state with
`Q`, or fails with an error and a state with `E`. The laws below take a step apart along its syntax,
so that a proof about a composed step never unfolds the state monad.
-/

namespace TreeEdit.Step

variable {ε ε' σ ρ α β : Type}

/-! ## Composition, one outcome at a time -/

theorem bind_ok {x : EStateM ε σ α} {f : α → EStateM ε σ β} {s s' : σ} {a : α}
    (h : x s = .ok a s') : (x >>= f) s = f a s' := by
  show EStateM.bind x f s = f a s'
  rw [EStateM.bind, h]

theorem bind_error {x : EStateM ε σ α} {f : α → EStateM ε σ β} {s s' : σ} {e : ε}
    (h : x s = .error e s') : (x >>= f) s = .error e s' := by
  show EStateM.bind x f s = .error e s'
  rw [EStateM.bind, h]

/-- What follows a step need only be the same where the step can lead. -/
theorem bind_congr {x : EStateM ε σ α} {f g : α → EStateM ε σ β} {s : σ}
    (h : ∀ a s', x s = .ok a s' → f a s' = g a s') : (x >>= f) s = (x >>= g) s := by
  cases hx : x s with
  | ok a s' => rw [bind_ok hx, bind_ok hx, h a s' hx]
  | error e s' => rw [bind_error hx, bind_error hx]

theorem get_bind {f : σ → EStateM ε σ β} {s : σ} : (get >>= f) s = f s s := rfl

theorem onPart_ok {part : σ → ρ} {put : σ → ρ → σ} {y : EStateM ε ρ α} {s : σ} {a : α} {r : ρ}
    (h : y (part s) = .ok a r) : onPart part put y s = .ok a (put s r) := by
  rw [onPart, h]

theorem onPart_error {part : σ → ρ} {put : σ → ρ → σ} {y : EStateM ε ρ α} {s : σ} {e : ε} {r : ρ}
    (h : y (part s) = .error e r) : onPart part put y s = .error e (put s r) := by
  rw [onPart, h]

/-- An answer may be dropped before or after the step is taken to the whole state. -/
theorem onPart_discard {part : σ → ρ} {put : σ → ρ → σ} {y : EStateM ε ρ α} :
    onPart part put (do let _ ← y) = (do let _ ← onPart part put y) := by
  funext s
  cases hy : y (part s) with
  | ok a r =>
    rw [bind_ok (onPart_ok hy)]
    exact onPart_ok (bind_ok hy)
  | error e r => rw [bind_error (onPart_error hy), onPart_error (bind_error hy)]

theorem outcome_ok {x : EStateM ε σ α} {s s' : σ} {a : α} (h : x s = .ok a s') :
    (outcome x : EStateM ε' σ (Except ε α)) s = .ok (.ok a) s' := by
  rw [outcome, h]

theorem outcome_error {x : EStateM ε σ α} {s s' : σ} {e : ε} (h : x s = .error e s') :
    (outcome x : EStateM ε' σ (Except ε α)) s = .ok (.error e) s' := by
  rw [outcome, h]

theorem adaptExcept_ok {x : EStateM ε σ α} {s s' : σ} {a : α} (h : x s = .ok a s')
    (g : ε → ε') : x.adaptExcept g s = .ok a s' := by
  rw [EStateM.adaptExcept, h]

theorem adaptExcept_error {x : EStateM ε σ α} {s s' : σ} {e : ε} (h : x s = .error e s')
    (g : ε → ε') : x.adaptExcept g s = .error (g e) s' := by
  rw [EStateM.adaptExcept, h]

theorem adaptExcept_eq_ok_iff {x : EStateM ε σ α} {g : ε → ε'} {s s' : σ} {a : α} :
    x.adaptExcept g s = .ok a s' ↔ x s = .ok a s' := by
  cases h : x s with
  | ok b t => simp [adaptExcept_ok h]
  | error e t => simp [adaptExcept_error h]

theorem adaptExcept_eq_error_iff {x : EStateM ε σ α} {g : ε → ε'} {s s' : σ} {e : ε'} :
    x.adaptExcept g s = .error e s' ↔ ∃ e₀, x s = .error e₀ s' ∧ g e₀ = e := by
  cases h : x s with
  | ok b t => simp [adaptExcept_ok h]
  | error e₀ t =>
    rw [adaptExcept_error h]
    constructor
    · rintro ⟨⟩
      exact ⟨e₀, rfl, rfl⟩
    · rintro ⟨_, ⟨⟩, rfl⟩
      rfl

/-- The state that a step leaves behind, however it ends. -/
def after (x : EStateM ε σ α) (s : σ) : σ :=
  match x s with
  | .ok _ s' => s'
  | .error _ s' => s'

/-! ## Both outcomes at once -/

/-- A step from `s` answers with `Q` or fails with `E`. -/
def Ends (x : EStateM ε σ α) (s : σ) (Q : α → σ → Prop) (E : ε → σ → Prop) : Prop :=
  match x s with
  | .ok a s' => Q a s'
  | .error e s' => E e s'

variable {x : EStateM ε σ α} {f : α → EStateM ε σ β} {s : σ} {Q : α → σ → Prop}
  {R : β → σ → Prop} {E : ε → σ → Prop}

theorem ends_iff : Ends x s Q E ↔
    (∀ a s', x s = .ok a s' → Q a s') ∧ (∀ e s', x s = .error e s' → E e s') := by
  unfold Ends
  cases x s with
  | ok a s' => simp
  | error e s' => simp

theorem Ends.mono {Q' : α → σ → Prop} {E' : ε → σ → Prop} (h : Ends x s Q E)
    (hQ : ∀ a s', Q a s' → Q' a s') (hE : ∀ e s', E e s' → E' e s') : Ends x s Q' E' := by
  rw [ends_iff] at h ⊢
  exact ⟨fun a s' hx => hQ a s' (h.1 a s' hx), fun e s' hx => hE e s' (h.2 e s' hx)⟩

theorem Ends.and {Q' : α → σ → Prop} {E' : ε → σ → Prop} (h : Ends x s Q E)
    (h' : Ends x s Q' E') :
    Ends x s (fun a s' => Q a s' ∧ Q' a s') fun e s' => E e s' ∧ E' e s' := by
  rw [ends_iff] at h h' ⊢
  exact ⟨fun a s' hx => ⟨h.1 a s' hx, h'.1 a s' hx⟩, fun e s' hx => ⟨h.2 e s' hx, h'.2 e s' hx⟩⟩

/-- What was assumed before the step may be assumed at its ends. -/
theorem Ends.of_imp {P : Prop} (h : P → Ends x s Q E) :
    Ends x s (fun a s' => P → Q a s') fun e s' => P → E e s' :=
  ends_iff.mpr ⟨fun a s' hx hP => (ends_iff.mp (h hP)).1 a s' hx,
    fun e s' hx hP => (ends_iff.mp (h hP)).2 e s' hx⟩

/-- What holds at every end holds of the state that is left behind. -/
theorem Ends.after {P : σ → Prop} (h : Ends x s (fun _ s' => P s') fun _ s' => P s') :
    P (Step.after x s) := by
  unfold Ends at h
  unfold Step.after
  cases hx : x s with
  | ok a s' =>
    rw [hx] at h
    exact h
  | error e s' =>
    rw [hx] at h
    exact h

theorem ends_bind : Ends (x >>= f) s R E ↔ Ends x s (fun a s' => Ends (f a) s' R E) E := by
  show Ends (EStateM.bind x f) s R E ↔ _
  unfold Ends EStateM.bind
  cases x s <;> rfl

@[simp] theorem ends_get {Q : σ → σ → Prop} : Ends (get : EStateM ε σ σ) s Q E ↔ Q s s := Iff.rfl

@[simp] theorem ends_modify {g : σ → σ} {Q : PUnit → σ → Prop} :
    Ends (modify g : EStateM ε σ PUnit) s Q E ↔ Q ⟨⟩ (g s) := Iff.rfl

theorem ends_onPart {part : σ → ρ} {put : σ → ρ → σ} {y : EStateM ε ρ α} :
    Ends (onPart part put y) s Q E
      ↔ Ends y (part s) (fun a r => Q a (put s r)) (fun e r => E e (put s r)) := by
  unfold Ends onPart
  cases y (part s) <;> rfl

theorem ends_outcome {Q : Except ε α → σ → Prop} {E' : ε' → σ → Prop} :
    Ends (outcome x) s Q E'
      ↔ Ends x s (fun a s' => Q (.ok a) s') (fun e s' => Q (.error e) s') := by
  unfold Ends outcome
  cases x s <;> rfl

/-- Errors may be renamed step by step. -/
theorem adaptExcept_bind (x : EStateM ε σ α) (f : α → EStateM ε σ β) (g : ε → ε') :
    (x >>= f).adaptExcept g = x.adaptExcept g >>= fun a => (f a).adaptExcept g := by
  funext s
  cases hx : x s with
  | ok a s' =>
    rw [bind_ok (adaptExcept_ok hx g), EStateM.adaptExcept, bind_ok hx, EStateM.adaptExcept]
  | error e s' => rw [bind_error (adaptExcept_error hx g), adaptExcept_error (bind_error hx)]

theorem adaptExcept_adaptExcept {ε'' : Type} (x : EStateM ε σ α) (g : ε → ε') (g' : ε' → ε'') :
    (x.adaptExcept g).adaptExcept g' = x.adaptExcept (g' ∘ g) := by
  funext s
  unfold EStateM.adaptExcept
  cases x s <;> rfl

theorem ends_ofExcept {y : Except ε α} :
    Ends (ofExcept y) s Q E ↔ (∀ a, y = .ok a → Q a s) ∧ (∀ e, y = .error e → E e s) := by
  cases y with
  | ok a => simp [Ends, ofExcept]
  | error e => simp [Ends, ofExcept]

/-! ## What a step leaves alone -/

/-- However the step ends, `view` shows the same of the state as before. -/
def Keeps {ω : Type} (view : σ → ω) (x : EStateM ε σ α) : Prop :=
  ∀ s, Ends x s (fun _ s' => view s' = view s) fun _ s' => view s' = view s

/-! ## Where a step leads -/

/-- What leads from state to state, over any number of steps. -/
structure Chains (R : σ → σ → Prop) : Prop where
  refl : ∀ s, R s s
  trans : ∀ {s t u}, R s t → R t u → R s u

/-- However the step ends, `R` leads from the state before it to the one after it. -/
def Leads (R : σ → σ → Prop) (x : EStateM ε σ α) : Prop :=
  ∀ s, Ends x s (fun _ s' => R s s') fun _ s' => R s s'

section Leads

variable {R : σ → σ → Prop}

theorem leads_iff : Leads R x ↔ ∀ s, R s (after x s) := by
  refine forall_congr' fun s => ?_
  unfold Ends after
  cases x s <;> exact Iff.rfl

theorem leads_pure (hR : Chains R) (a : α) : Leads R (pure a : EStateM ε σ α) := hR.refl

theorem leads_throw (hR : Chains R) (e : ε) : Leads R (throw e : EStateM ε σ α) := hR.refl

theorem leads_get (hR : Chains R) : Leads R (get : EStateM ε σ σ) := hR.refl

theorem leads_modify {g : σ → σ} (h : ∀ s, R s (g s)) :
    Leads R (modify g : EStateM ε σ PUnit) := h

theorem leads_ofExcept (hR : Chains R) (y : Except ε α) :
    Leads R (ofExcept y : EStateM ε σ α) := fun s =>
  ends_ofExcept.mpr ⟨fun _ _ => hR.refl s, fun _ _ => hR.refl s⟩

theorem Leads.bind (hR : Chains R) (hx : Leads R x) (hf : ∀ a, Leads R (f a)) :
    Leads R (x >>= f) := by
  intro s
  rw [ends_bind]
  refine (hx s).mono (fun a s' h => ?_) fun e s' h => h
  exact (hf a s').mono (fun _ _ h' => hR.trans h h') fun _ _ h' => hR.trans h h'

theorem leads_forM (hR : Chains R) {γ : Type} {g : γ → EStateM ε σ PUnit}
    (h : ∀ c, Leads R (g c)) (l : List γ) : Leads R (l.forM g) := by
  induction l with
  | nil => exact leads_pure hR _
  | cons c l ih => exact (h c).bind hR fun _ => ih

theorem leads_outcome (h : Leads R x) :
    Leads R (outcome x : EStateM ε' σ (Except ε α)) := by
  intro s
  rw [ends_outcome]
  exact h s

theorem leads_onPart {S : ρ → ρ → Prop} {part : σ → ρ} {put : σ → ρ → σ} {y : EStateM ε ρ α}
    (hy : Leads S y) (h : ∀ s r, S (part s) r → R s (put s r)) : Leads R (onPart part put y) := by
  intro s
  rw [ends_onPart]
  exact (hy (part s)).mono (fun _ r hr => h s r hr) fun _ r hr => h s r hr

end Leads

/-! ## What a step fails with -/

/-- Whatever the step fails with has `P`. -/
def Raises (P : ε → Prop) (x : EStateM ε σ α) : Prop :=
  ∀ s, Ends x s (fun _ _ => True) fun e _ => P e

section Raises

variable {P : ε → Prop}

theorem raises_pure (a : α) : Raises P (pure a : EStateM ε σ α) := fun _ => trivial

theorem raises_get : Raises P (get : EStateM ε σ σ) := fun _ => trivial

theorem raises_modify (g : σ → σ) : Raises P (modify g : EStateM ε σ PUnit) := fun _ => trivial

theorem raises_throw {e : ε} (h : P e) : Raises P (throw e : EStateM ε σ α) := fun _ => h

theorem raises_ofExcept {y : Except ε α} (h : ∀ e, y = .error e → P e) :
    Raises P (ofExcept y : EStateM ε σ α) := fun _ =>
  ends_ofExcept.mpr ⟨fun _ _ => trivial, h⟩

theorem Raises.bind (hx : Raises P x) (hf : ∀ a, Raises P (f a)) : Raises P (x >>= f) := by
  intro s
  rw [ends_bind]
  exact (hx s).mono (fun a s' _ => hf a s') fun _ _ h => h

theorem raises_onPart {part : σ → ρ} {put : σ → ρ → σ} {y : EStateM ε ρ α} (h : Raises P y) :
    Raises P (onPart part put y) := by
  intro s
  rw [ends_onPart]
  exact h (part s)

end Raises

end TreeEdit.Step
