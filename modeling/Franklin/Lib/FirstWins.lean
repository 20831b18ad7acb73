import Mathlib.Logic.Function.Basic

/-!
This module contains maps in which a value that is not free is never overwritten: of several values for a key the
first one stays.
-/

namespace FirstWins

variable {K V : Type} [DecidableEq K] (free : V → Prop) [DecidablePred free]

def insert (m : K → V) (k : K) (v : V) : K → V :=
  if free (m k) then
    Function.update m k v
  else
    m

def insertAll (m : K → V) : List (K × V) → (K → V)
  | [] => m
  | (k, v) :: kvs => insertAll (insert free m k v) kvs

theorem insertAll_append (m : K → V) (kvs kvs' : List (K × V))
    : insertAll free m (kvs ++ kvs') = insertAll free (insertAll free m kvs) kvs' := by
  induction kvs generalizing m with
  | nil => rfl
  | cons kv kvs ih => apply ih

variable {free} {m : K → V} {k : K} {v : V}

theorem insert_self (h : free (m k)) : insert free m k v k = v := by
  unfold insert
  rw [if_pos h, Function.update_self]

theorem insert_of_ne {k' : K} (h : k ≠ k') : insert free m k' v k = m k := by
  unfold insert
  split
  . rw [Function.update_of_ne h]
  . rfl

theorem insert_of_not_free (h : ¬free (m k)) : insert free m k v = m := by
  unfold insert
  rw [if_neg h]

theorem insertAll_of_eq {kvs : List (K × V)} (h : m k = v) (hunique : ∀ v', (k, v') ∈ kvs → v' = v)
    : insertAll free m kvs k = v := by
  induction kvs generalizing m with
  | nil => exact h
  | cons kv kvs ih =>
    obtain ⟨k', v'⟩ := kv
    unfold insertAll
    apply ih
    . by_cases hk : k = k'
      . subst hk
        obtain rfl := hunique v' (List.mem_cons_self ..)
        by_cases hfree : free (m k)
        . rw [insert_self hfree]
        . rw [insert_of_not_free hfree, h]
      . rw [insert_of_ne hk, h]
    . intro w hw
      apply hunique w (List.mem_cons_of_mem _ hw)

theorem insertAll_of_not_mem {kvs : List (K × V)} (h : ∀ v', (k, v') ∉ kvs)
    : insertAll free m kvs k = m k := by
  apply insertAll_of_eq rfl
  intro v' hv'
  exact absurd hv' (h v')

theorem insertAll_of_mem {kvs : List (K × V)} (hfree : free (m k)) (hmem : (k, v) ∈ kvs)
    (hunique : ∀ v', (k, v') ∈ kvs → v' = v) : insertAll free m kvs k = v := by
  induction kvs generalizing m with
  | nil => contradiction
  | cons kv kvs ih =>
    obtain ⟨k', v'⟩ := kv
    unfold insertAll
    have hunique' : ∀ w, (k, w) ∈ kvs → w = v := by
      intro w hw
      apply hunique w (List.mem_cons_of_mem _ hw)
    by_cases hk : k = k'
    . subst hk
      obtain rfl := hunique v' (List.mem_cons_self ..)
      apply insertAll_of_eq (insert_self hfree) hunique'
    . apply ih
      . rwa [insert_of_ne hk]
      . cases List.mem_cons.mp hmem with
        | inl heq => exact absurd (Prod.mk.inj heq).1 hk
        | inr hmem => exact hmem
      . exact hunique'

theorem insertAll_of_not_free {kvs : List (K × V)} (h : ¬free (m k)) : insertAll free m kvs k = m k := by
  induction kvs generalizing m with
  | nil => rfl
  | cons kv kvs ih =>
    obtain ⟨k', v'⟩ := kv
    have hinsert : insert free m k' v' k = m k := by
      by_cases hk : k = k'
      . subst hk
        rw [insert_of_not_free h]
      . rw [insert_of_ne hk]
    unfold insertAll
    rw [ih (by rwa [hinsert]), hinsert]

theorem insertAll_cases (m : K → V) (kvs : List (K × V)) (k : K)
    : insertAll free m kvs k = m k ∨ (k, insertAll free m kvs k) ∈ kvs := by
  induction kvs generalizing m with
  | nil => exact Or.inl rfl
  | cons kv kvs ih =>
    rcases kv with ⟨k', v'⟩
    unfold insertAll
    cases ih (insert free m k' v') with
    | inl h =>
      rw [h]
      by_cases hk : k = k'
      . subst hk
        by_cases hfree : free (m k)
        . rw [insert_self hfree]
          exact Or.inr (List.mem_cons_self ..)
        . rw [insert_of_not_free hfree]
          exact Or.inl rfl
      . rw [insert_of_ne hk]
        exact Or.inl rfl
    | inr h => exact Or.inr (List.mem_cons_of_mem _ h)

theorem not_free_insertAll {kvs : List (K × V)} (hmem : (k, v) ∈ kvs) (htaken : ∀ kv ∈ kvs, ¬free kv.2)
    : ¬free (insertAll free m kvs k) := by
  induction kvs generalizing m with
  | nil => contradiction
  | cons kv kvs ih =>
    obtain ⟨k', v'⟩ := kv
    unfold insertAll
    by_cases hk : k = k'
    . subst hk
      have hinsert : ¬free (insert free m k v' k) := by
        by_cases hfree : free (m k)
        . rw [insert_self hfree]
          apply htaken (k, v') (List.mem_cons_self ..)
        . rwa [insert_of_not_free hfree]
      rwa [insertAll_of_not_free hinsert]
    . apply ih
      . cases List.mem_cons.mp hmem with
        | inl heq => exact absurd (Prod.mk.inj heq).1 hk
        | inr hmem => exact hmem
      . intro kv hkv
        apply htaken kv (List.mem_cons_of_mem _ hkv)

end FirstWins
