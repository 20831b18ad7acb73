import Mathlib.Data.Set.Finite.Basic

/-!
This module contains repeating a step that may end: it ends if and only if it does not come to the same
value twice, as long as there are only finitely many values that it can come to.
-/

namespace Franklin

def orbit {α : Type} (f : α → Option α) (a : α) : Nat → Option α
  | 0 => some a
  | k + 1 => (orbit f a k).bind f

def Circles {α : Type} (f : α → Option α) (a : α) : Prop :=
  ∃ i j c, i < j ∧ orbit f a i = some c ∧ orbit f a j = some c

def Visited {α : Type} (f : α → Option α) (a b : α) : Prop :=
  ∃ k, orbit f a k = some b

def Ends {α : Type} (f : α → Option α) (a : α) : Prop :=
  ∃ k, orbit f a k = none

section Orbit

variable {α : Type} {f : α → Option α} {a b c : α} {i j k : Nat}

theorem orbit_add (i k : Nat) : orbit f a (i + k) = (orbit f a i).bind fun b => orbit f b k := by
  induction k with
  | zero => exact (Option.bind_fun_some (orbit f a i)).symm
  | succ k ih =>
    rw [← Nat.add_assoc, orbit, ih, Option.bind_assoc]
    rfl

theorem orbit_succ (k : Nat) : orbit f a (k + 1) = (f a).bind fun b => orbit f b k := by
  rw [Nat.add_comm, orbit_add]
  rfl

theorem orbit_succ_of_none (h : f a = none) (k : Nat) : orbit f a (k + 1) = none := by
  rw [orbit_succ, h]
  rfl

theorem orbit_succ_of_some (h : f a = some b) (k : Nat) : orbit f a (k + 1) = orbit f b k := by
  rw [orbit_succ, h]
  rfl

theorem orbit_none (h : orbit f a i = none) (hij : i ≤ j) : orbit f a j = none := by
  rcases Nat.exists_eq_add_of_le hij with ⟨k, rfl⟩
  rw [orbit_add, h]
  rfl

theorem Circles.orbit_ne_none (h : Circles f a) (k : Nat) : orbit f a k ≠ none := by
  rcases h with ⟨i, j, c, hij, hi, hj⟩
  have hback : ∀ n, orbit f a (i + n * (j - i)) = some c := by
    intro n
    induction n with
    | zero =>
      rw [Nat.zero_mul, Nat.add_zero]
      exact hi
    | succ n ih =>
      rw [Nat.succ_mul, ← Nat.add_assoc, orbit_add, ih, Option.bind_some]
      rw [← Nat.add_sub_cancel' (Nat.le_of_lt hij), orbit_add, hi, Option.bind_some] at hj
      exact hj
  intro hnone
  have hle : k ≤ i + k * (j - i) := by
    have := Nat.le_mul_of_pos_right k (Nat.sub_pos_of_lt hij)
    omega
  have hend := orbit_none hnone hle
  rw [hback] at hend
  cases hend

theorem ends_iff {S : Set α} (hfinite : S.Finite) (hS : ∀ k b, orbit f a (k + 1) = some b → b ∈ S)
    : (∃ k, orbit f a k = none) ↔ ¬ Circles f a := by
  constructor
  . rintro ⟨k, hk⟩ hcircles
    exact hcircles.orbit_ne_none k hk
  . intro hcircles
    by_contra hends
    rw [not_exists] at hends
    have hsome : ∀ k, ∃ b, orbit f a (k + 1) = some b := by
      intro k
      exact Option.ne_none_iff_exists'.mp (hends (k + 1))
    choose g hg using hsome
    have hinjective : Function.Injective g := by
      intro i j hij
      by_contra hne
      rcases Nat.lt_or_gt_of_ne hne with hlt | hlt
      . exact hcircles ⟨i + 1, j + 1, g i, by omega, hg i, by rw [hij, hg j]⟩
      . exact hcircles ⟨j + 1, i + 1, g i, by omega, by rw [hij, hg j], hg i⟩
    exact Set.infinite_of_injective_forall_mem hinjective (fun k => hS k _ (hg k)) hfinite

theorem Visited.self : Visited f a a :=
  ⟨0, rfl⟩

theorem Visited.step (h : Visited f a b) (hstep : f b = some c) : Visited f a c := by
  rcases h with ⟨k, hk⟩
  refine ⟨k + 1, ?_⟩
  rw [orbit, hk]
  exact hstep

theorem Visited.head (hstep : f a = some b) (h : Visited f b c) : Visited f a c := by
  rcases h with ⟨k, hk⟩
  exact ⟨k + 1, (orbit_succ_of_some hstep k).trans hk⟩

theorem Visited.eq_or (h : Visited f a c) : c = a ∨ ∃ b, f a = some b ∧ Visited f b c := by
  rcases h with ⟨k, hk⟩
  cases k with
  | zero => exact .inl (Option.some.inj hk).symm
  | succ k =>
    rw [orbit_succ] at hk
    rcases Option.bind_eq_some_iff.mp hk with ⟨b, hb, hk⟩
    exact .inr ⟨b, hb, k, hk⟩

theorem Visited.induct {P : α → Prop} (h : Visited f a b) (hself : P a)
    (hstep : ∀ b c, Visited f a b → P b → f b = some c → P c) : P b := by
  rcases h with ⟨k, hk⟩
  induction k generalizing b with
  | zero =>
    obtain rfl := Option.some.inj hk
    exact hself
  | succ k ih =>
    rw [orbit] at hk
    rcases Option.bind_eq_some_iff.mp hk with ⟨b', hb', hk⟩
    exact hstep b' b ⟨k, hb'⟩ (ih hb') hk

theorem Ends.of_none (h : f a = none) : Ends f a :=
  ⟨1, orbit_succ_of_none h 0⟩

theorem ends_of_some (h : f a = some b) : Ends f a ↔ Ends f b := by
  constructor
  . rintro ⟨k, hk⟩
    refine ⟨k, ?_⟩
    rw [← orbit_succ_of_some h]
    exact orbit_none hk (Nat.le_succ k)
  . rintro ⟨k, hk⟩
    exact ⟨k + 1, (orbit_succ_of_some h k).trans hk⟩

theorem Ends.induct {P : α → Prop} (h : Ends f a) (hnone : ∀ a, f a = none → P a)
    (hsome : ∀ a b, f a = some b → P b → P a) : P a := by
  rcases h with ⟨k, hk⟩
  induction k generalizing a with
  | zero => cases hk
  | succ k ih =>
    cases hf : f a with
    | none => exact hnone a hf
    | some b =>
      rw [orbit_succ_of_some hf] at hk
      exact hsome a b hf (ih hk)

theorem Ends.of_measure (m : α → Nat) (h : ∀ b c, Visited f a b → f b = some c → m c < m b) : Ends f a := by
  induction hm : m a using Nat.strongRecOn generalizing a with
  | ind n ih =>
    cases hf : f a with
    | none => exact .of_none hf
    | some b =>
      rw [ends_of_some hf]
      apply ih (m b) (by rw [← hm]; exact h a b .self hf) _ rfl
      intro c d hc
      exact h c d (.head hf hc)

end Orbit

end Franklin
