import Franklin.Lib.Wp

/-!
This module contains rules for two programs over `EStateM` that start in the same state and do the same
things to it.
-/

section

variable {ε σ α β γ δ : Type} {x : EStateM ε σ α} {y : EStateM ε σ β} {f : α → EStateM ε σ γ}
  {g : β → EStateM ε σ δ} {P : α → β → Prop} {R : γ → δ → Prop} {s : σ}

/--
Both programs return, in the same state and with results that are related by `R`, or both throw the same
exception in the same state.
-/
def alike (R : α → β → Prop) (x : EStateM ε σ α) (y : EStateM ε σ β) (s : σ) : Prop :=
  match x s, y s with
  | .ok a s1, .ok b s2 => R a b ∧ s1 = s2
  | .error e s1, .error e' s2 => e = e' ∧ s1 = s2
  | _, _ => False

theorem alike_pure {a : α} {b : β} (h : P a b) : alike P (pure a : EStateM ε σ α) (pure b) s :=
  ⟨h, rfl⟩

theorem alike_throw (e : ε) : alike P (throw e : EStateM ε σ α) (throw e) s :=
  ⟨rfl, rfl⟩

theorem alike_bind (h : alike P x y s)
    (hf : ∀ a b s', P a b → x s = .ok a s' → y s = .ok b s' → alike R (f a) (g b) s')
    : alike R (x >>= f) (y >>= g) s := by
  have hx : (x >>= f) s = EStateM.bind x f s := rfl
  have hy : (y >>= g) s = EStateM.bind y g s := rfl
  unfold alike at h ⊢
  rw [hx, hy]
  unfold EStateM.bind
  split at h
  . next a s1 b s2 hxs hys =>
    rcases h with ⟨hab, rfl⟩
    rw [hxs, hys]
    apply hf a b s1 hab hxs hys
  . next e s1 e' s2 hxs hys =>
    rw [hxs, hys]
    exact h
  . exact h.elim

theorem alike_refl {P : α → α → Prop} (hP : ∀ a, P a a) (x : EStateM ε σ α) (s : σ) : alike P x x s := by
  unfold alike
  cases x s with
  | ok a s1 => exact ⟨hP a, rfl⟩
  | error e s1 => exact ⟨rfl, rfl⟩

theorem alike_bind_same {g : α → EStateM ε σ δ}
    (hf : ∀ a s', x s = .ok a s' → alike R (f a) (g a) s') : alike R (x >>= f) (x >>= g) s := by
  apply alike_bind (alike_refl (P := fun a b => a = b) (fun _ => rfl) x s)
  intro a b s' hab hx _
  rw [← hab]
  apply hf a s' hx

end
