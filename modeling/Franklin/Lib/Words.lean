import Mathlib.Algebra.Group.Nat.Defs
import Mathlib.Logic.Function.Basic

/-!
This module contains a memory in which words lie one after another, and the stack that grows downwards in
it.
-/

namespace Franklin
namespace Words

variable {α : Type} {w : Nat} {k : BitVec w} {m m' : Nat → α} {sp : BitVec w} {v : α} {vs : List α}

/--
The words `vs`, each `k` bytes long, lie in the memory from the address `sp` on.
-/
def Lie (k : BitVec w) (m : Nat → α) : BitVec w → List α → Prop
  | _, [] => True
  | sp, v :: vs => m sp.toNat = v ∧ Lie k m (sp + k) vs

def push (k : BitVec w) (m : Nat → α) (sp : BitVec w) (v : α) : Nat → α :=
  Function.update m (sp - k).toNat v

theorem toNat_add_of_le (h : sp.toNat + k.toNat < 2 ^ w) : (sp + k).toNat = sp.toNat + k.toNat := by
  rw [BitVec.toNat_add, Nat.mod_eq_of_lt h]

theorem Lie.congr (h : Lie k m sp vs) (hfit : sp.toNat + k.toNat * vs.length < 2 ^ w)
    (hk : 0 < k.toNat)
    (hm : ∀ a, sp.toNat ≤ a → a < sp.toNat + k.toNat * vs.length → m' a = m a) : Lie k m' sp vs := by
  induction vs generalizing sp with
  | nil => trivial
  | cons v vs ih =>
    rw [List.length_cons, Nat.mul_succ] at hfit hm
    have hsp : (sp + k).toNat = sp.toNat + k.toNat := by
      apply toNat_add_of_le
      omega
    refine ⟨?_, ?_⟩
    . rw [hm]
      . exact h.1
      . omega
      . omega
    . apply ih h.2
      . rw [hsp]
        omega
      . intro a ha ha'
        rw [hsp] at ha ha'
        apply hm
        . omega
        . omega

theorem Lie.push (h : Lie k m sp vs) (hfit : sp.toNat + k.toNat * vs.length < 2 ^ w)
    (hk : 0 < k.toNat) (hsp : k.toNat ≤ sp.toNat) (v : α)
    : Lie k (Words.push k m sp v) (sp - k) (v :: vs) := by
  have hsub := BitVec.toNat_sub_of_le hsp
  refine ⟨?_, ?_⟩
  . unfold Words.push
    rw [Function.update_self]
  . rw [BitVec.sub_add_cancel]
    apply h.congr hfit hk
    intro a ha _
    unfold Words.push
    rw [Function.update_of_ne]
    omega

/--
The memory `m` after `vs` have been pushed on a stack that ended at `base` in the memory `m₀`.
-/
structure Grown (k : BitVec w) (m₀ : Nat → α) (base : BitVec w) (m : Nat → α) (sp : BitVec w) (vs : List α)
    : Prop where
  lie : Lie k m sp vs
  size : sp.toNat + k.toNat * vs.length = base.toNat
  frame : ∀ a, a < sp.toNat ∨ base.toNat ≤ a → m a = m₀ a

namespace Grown

variable {m₀ : Nat → α} {base : BitVec w}

theorem refl (m : Nat → α) (base : BitVec w) : Grown k m base m base [] :=
  ⟨trivial, rfl, fun _ _ => rfl⟩

theorem push (h : Grown k m₀ base m sp vs) (hk : 0 < k.toNat)
    (hbase : k.toNat * (vs.length + 1) ≤ base.toNat) (v : α)
    : Grown k m₀ base (Words.push k m sp v) (sp - k) (v :: vs) := by
  have hsize := h.size
  rw [Nat.mul_succ] at hbase
  have hsub : (sp - k).toNat = sp.toNat - k.toNat := by
    apply BitVec.toNat_sub_of_le
    show k.toNat ≤ sp.toNat
    omega
  constructor
  case lie =>
    apply h.lie.push
    . rw [hsize]
      exact base.isLt
    . exact hk
    . omega
  case size =>
    rw [List.length_cons, Nat.mul_succ]
    omega
  case frame =>
    intro a ha
    unfold Words.push
    rw [Function.update_of_ne]
    . apply h.frame
      omega
    . omega

end Grown

end Words
end Franklin
