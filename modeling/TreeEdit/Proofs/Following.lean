import TreeEdit.Proofs.Agreement

/-!
# A step that does as another one does, or is broken off

`Step.Follows R B x y` compares steps that start from states related by `R`. Either they end alike,
in states that `R` relates again, or `y` has been broken off: it has failed, and `B` says how its
error and its state relate to what `x` has come to. Once that is so it stays so, whatever `x` goes
on to do. With an empty `B` the steps agree.
-/

namespace TreeEdit.Step

variable {ε σ σ' ρ ρ' α β γ : Type} {R : σ → σ' → Prop} {B : σ → ε → σ' → Prop}
  {x : EStateM ε σ α} {y : EStateM ε σ' α}

/-- What was broken off before stays so from one state to the next. -/
def Lasting (B : σ → ε → σ' → Prop) (s t : σ) : Prop :=
  ∀ e s', B s e s' → B t e s'

theorem chains_lasting : Chains (Lasting B) where
  refl _ _ _ h := h
  trans hst htu e s' h := htu e s' (hst e s' h)

/-- From related states, `y` does as `x` does or is broken off, and then stays broken off. -/
structure Follows (R : σ → σ' → Prop) (B : σ → ε → σ' → Prop) (x : EStateM ε σ α)
    (y : EStateM ε σ' α) : Prop where
  /-- From related states, the steps end alike or `y` breaks off. -/
  along : ∀ {s s'}, R s s' → Agree R x y s s' ∨ ∃ e t', y s' = .error e t' ∧ B (after x s) e t'
  /-- Whatever `x` does, what is broken off stays so. -/
  lasting : Leads (Lasting B) x

theorem follows_of_agree (h : ∀ {s s'}, R s s' → Agree R x y s s') (hB : Leads (Lasting B) x) :
    Follows R B x y :=
  ⟨fun hs => .inl (h hs), hB⟩

theorem follows_pure (a : α) :
    Follows R B (pure a : EStateM ε σ α) (pure a : EStateM ε σ' α) :=
  follows_of_agree (agree_pure a) (leads_pure chains_lasting a)

theorem follows_throw (e : ε) :
    Follows R B (throw e : EStateM ε σ α) (throw e : EStateM ε σ' α) :=
  follows_of_agree (agree_throw e) (leads_throw chains_lasting e)

theorem follows_ofExcept (z : Except ε α) :
    Follows R B (ofExcept z : EStateM ε σ α) (ofExcept z : EStateM ε σ' α) :=
  follows_of_agree (agree_ofExcept z) (leads_ofExcept chains_lasting z)

theorem follows_modify {f : σ → σ} {g : σ' → σ'} (hR : ∀ {s s'}, R s s' → R (f s) (g s'))
    (hB : ∀ s, Lasting B s (f s)) :
    Follows R B (modify f : EStateM ε σ PUnit) (modify g : EStateM ε σ' PUnit) :=
  follows_of_agree (fun h => agree_modify (hR h)) (leads_modify hB)

theorem Follows.bind {f : α → EStateM ε σ β} {g : α → EStateM ε σ' β} (h : Follows R B x y)
    (hf : ∀ a, Follows R B (f a) (g a)) : Follows R B (x >>= f) (y >>= g) := by
  refine ⟨fun {s s'} hs => ?_, h.lasting.bind chains_lasting fun a => (hf a).lasting⟩
  rcases h.along hs with hagree | ⟨e, t', hy, hbroken⟩
  · rcases agree_iff.mp hagree with ⟨a, t, t', hx, hy, ht⟩ | ⟨e, t, t', hx, hy, ht⟩
    · have hnext := (hf a).along ht
      unfold Agree after at hnext ⊢
      rwa [bind_ok hx, bind_ok hy]
    · exact .inl (agree_of_error (bind_error hx) (bind_error hy) ht)
  · refine .inr ⟨e, t', bind_error hy, ?_⟩
    cases hx : x s with
    | ok a t =>
      have hlater := leads_iff.mp (hf a).lasting t
      unfold after at hbroken hlater ⊢
      rw [hx] at hbroken
      rw [bind_ok hx]
      exact hlater e t' hbroken
    | error e₁ t =>
      unfold after at hbroken ⊢
      rw [hx] at hbroken
      rwa [bind_error hx]

/-- Both steps look at something that is the same in related states. -/
theorem follows_look (v : σ → γ) (w : σ' → γ) (f : γ → EStateM ε σ β) (g : γ → EStateM ε σ' β)
    (hv : ∀ {s s'}, R s s' → v s = w s') (hf : ∀ c, Follows R B (f c) (g c)) :
    Follows R B (get >>= fun s => f (v s)) (get >>= fun s' => g (w s')) := by
  constructor
  · intro s s' hs
    have hnext := (hf (v s)).along hs
    rw [hv hs] at hnext
    unfold Agree after at hnext ⊢
    rwa [get_bind, get_bind, hv hs]
  · exact (leads_get chains_lasting).bind chains_lasting fun s => (hf (v s)).lasting

theorem follows_onPart {S : ρ → ρ' → Prop} {C : ρ → ε → ρ' → Prop} {part : σ → ρ}
    {put : σ → ρ → σ} {part' : σ' → ρ'} {put' : σ' → ρ' → σ'} {x : EStateM ε ρ α}
    {y : EStateM ε ρ' α} (h : Follows S C x y) (hpart : ∀ {s s'}, R s s' → S (part s) (part' s'))
    (hput : ∀ {s s' r r'}, R s s' → S r r' → R (put s r) (put' s' r'))
    (hbroken : ∀ {s s' r r' e}, R s s' → C r e r' → B (put s r) e (put' s' r'))
    (hlasting : ∀ s r, Lasting C (part s) r → Lasting B s (put s r)) :
    Follows R B (onPart part put x) (onPart part' put' y) := by
  refine ⟨fun {s s'} hs => ?_, leads_onPart h.lasting hlasting⟩
  rcases h.along (hpart hs) with hagree | ⟨e, r', hy, hC⟩
  · exact .inl (agree_onPart hagree fun r r' hr => hput hs hr)
  · refine .inr ⟨e, put' s' r', onPart_error hy, ?_⟩
    have hafter : after (onPart part put x) s = put s (after x (part s)) := by
      unfold after onPart
      cases x (part s) <;> rfl
    rw [hafter]
    exact hbroken hs hC

end TreeEdit.Step
