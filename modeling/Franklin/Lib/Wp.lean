import Mathlib.Algebra.Group.Nat.Defs

/-!
This module contains rules for programs over `EStateM`, for which an exception keeps the state it was
thrown in: `wp x Q E s` says that `x` started in `s` either returns with `Q` or throws with `E`.
-/

section

variable {ε σ α β : Type} {x : EStateM ε σ α} {f : α → EStateM ε σ β} {Q Q' : α → σ → Prop}
  {R : β → σ → Prop} {E E' : ε → σ → Prop} {s : σ}

def wp (x : EStateM ε σ α) (Q : α → σ → Prop) (E : ε → σ → Prop) (s : σ) : Prop :=
  match x s with
  | .ok a s' => Q a s'
  | .error e s' => E e s'

theorem wp_iff
    : wp x Q E s ↔
        (∀ a s', x s = .ok a s' → Q a s') ∧ ∀ e s', x s = .error e s' → E e s' := by
  unfold wp
  cases x s <;> simp

theorem wp_of_ok {a : α} {s' : σ} (hx : x s = .ok a s') : wp x Q E s ↔ Q a s' := by
  unfold wp
  rw [hx]

theorem wp_of_error {e : ε} {s' : σ} (hx : x s = .error e s') : wp x Q E s ↔ E e s' := by
  unfold wp
  rw [hx]

theorem wp_mono (h : wp x Q E s) (hQ : ∀ a s', Q a s' → Q' a s') (hE : ∀ e s', E e s' → E' e s')
    : wp x Q' E' s := by
  unfold wp at *
  split
  . next hx =>
    rw [hx] at h
    apply hQ _ _ h
  . next hx =>
    rw [hx] at h
    apply hE _ _ h

theorem wp_conj (h : wp x Q E s) (h' : wp x Q' (fun _ _ => True) s)
    : wp x (fun a s' => Q a s' ∧ Q' a s') E s := by
  unfold wp at *
  split
  . next hx =>
    rw [hx] at h h'
    exact ⟨h, h'⟩
  . next hx =>
    rw [hx] at h
    apply h

theorem wp_and (h : wp x Q (fun _ _ => False) s) (h' : wp x Q' E s) : ∃ a s', Q a s' ∧ Q' a s' := by
  unfold wp at *
  split at h
  . next a s' hx =>
    rw [hx] at h'
    exact ⟨a, s', h, h'⟩
  . exact h.elim

theorem ok_of_wp (h : wp x Q (fun _ _ => False) s) : ∃ a s', x s = .ok a s' ∧ Q a s' := by
  unfold wp at h
  split at h
  . next a s' hx => exact ⟨a, s', hx, h⟩
  . exact h.elim

theorem wp_trivial : wp x (fun _ _ => True) (fun _ _ => True) s := by
  unfold wp
  split <;> trivial

@[simp]
theorem wp_pure (a : α) : wp (pure a) Q E s ↔ Q a s := by
  rfl

@[simp]
theorem wp_throw (e : ε) : wp (throw e) Q E s ↔ E e s := by
  rfl

@[simp]
theorem wp_bind : wp (x >>= f) R E s ↔ wp x (fun a s' => wp (f a) R E s') E s := by
  unfold wp
  show (match EStateM.bind x f s with
    | .ok a s' => R a s'
    | .error e s' => E e s') ↔ _
  unfold EStateM.bind
  cases x s <;> rfl

@[simp]
theorem wp_map {g : α → β} : wp (g <$> x) R E s ↔ wp x (fun a s' => R (g a) s') E s := by
  rw [map_eq_pure_bind, wp_bind]
  rfl

theorem bind_of_ok {a : α} {s' : σ} (hx : x s = .ok a s') : (x >>= f) s = f a s' := by
  show EStateM.bind x f s = f a s'
  unfold EStateM.bind
  rw [hx]

theorem bind_of_error {e : ε} {s' : σ} (hx : x s = .error e s') : (x >>= f) s = .error e s' := by
  show EStateM.bind x f s = .error e s'
  unfold EStateM.bind
  rw [hx]

theorem ok_of_bind {b : β} {s' : σ} (h : (x >>= f) s = .ok b s') : ∃ a s₁, x s = .ok a s₁ ∧ f a s₁ = .ok b s' := by
  cases hx : x s with
  | ok a s₁ =>
    rw [bind_of_ok hx] at h
    exact ⟨a, s₁, rfl, h⟩
  | error e s₁ =>
    rw [bind_of_error hx] at h
    cases h

theorem wp_bind_of (h : wp x Q E s) (hf : ∀ a s', Q a s' → wp (f a) R E s')
    : wp (x >>= f) R E s := by
  rw [wp_bind]
  apply wp_mono h hf
  intro e s' he
  apply he

theorem wp_bind_run (h : wp x Q E' s) (hE : ∀ e s', E' e s' → E e s')
    (hf : ∀ a s', x s = .ok a s' → Q a s' → wp (f a) R E s') : wp (x >>= f) R E s := by
  rw [wp_bind, wp_iff]
  rw [wp_iff] at h
  constructor
  . intro a s' hx
    apply hf a s' hx (h.1 a s' hx)
  . intro e s' hx
    apply hE e s' (h.2 e s' hx)

theorem wp_bind_mono (h : wp x Q E' s) (hE : ∀ e s', E' e s' → E e s')
    (hf : ∀ a s', Q a s' → wp (f a) R E s') : wp (x >>= f) R E s := by
  apply wp_bind_of _ hf
  apply wp_mono h _ hE
  intro a s' ha
  apply ha

end

section Keeps

variable {ε σ α β : Type} {I : σ → Prop} {R : σ → σ → Prop} {x : EStateM ε σ α}
  {f : α → EStateM ε σ β}

/--
If `x` returns from a state with the invariant `I`, it has changed the state by `R` and kept `I`.
-/
def Keeps (I : σ → Prop) (R : σ → σ → Prop) (x : EStateM ε σ α) : Prop :=
  ∀ s, I s → wp x (fun _ s' => I s' ∧ R s s') (fun _ _ => True) s

namespace Keeps

theorem pure (hrefl : ∀ s, R s s) (a : α) : Keeps I R (pure a : EStateM ε σ α) := by
  intro s hs
  exact ⟨hs, hrefl s⟩

theorem throw (e : ε) : Keeps I R (throw e : EStateM ε σ α) := by
  intro s hs
  trivial

theorem bind (htrans : ∀ s s1 s2, R s s1 → R s1 s2 → R s s2) (hx : Keeps I R x)
    (hf : ∀ a, Keeps I R (f a)) : Keeps I R (x >>= f) := by
  intro s hs
  apply wp_bind_of (hx s hs)
  intro a s1 hs1
  apply wp_mono (hf a s1 hs1.1)
  . intro b s2 hs2
    exact ⟨hs2.1, htrans s s1 s2 hs1.2 hs2.2⟩
  . intro e s2 he
    apply he

theorem ite {c : Prop} [Decidable c] {y : EStateM ε σ α} (hx : Keeps I R x) (hy : Keeps I R y)
    : Keeps I R (if c then x else y) := by
  split
  . apply hx
  . apply hy

end Keeps

end Keeps
