import Franklin.Slab.Basic
import Mathlib.Data.Nat.Size

namespace Franklin
namespace Slab
namespace roundup

def Smeared (w : Nat) (x y : BitVec 32) : Prop :=
  ∀ i, y.getLsbD i = true ↔ ∃ d, d < w ∧ x.getLsbD (i + d) = true

theorem Smeared.self (x : BitVec 32) : Smeared 1 x x := by
  intro i
  constructor
  . intro h
    exact ⟨0, by omega, h⟩
  . intro h
    rcases h with ⟨d, hd, hbit⟩
    obtain rfl : d = 0 := by omega
    apply hbit

theorem Smeared.double {w : Nat} {x y : BitVec 32} (h : Smeared w x y)
    : Smeared (w + w) x (y ||| (y >>> w)) := by
  intro i
  rw [BitVec.getLsbD_or, BitVec.getLsbD_ushiftRight, Bool.or_eq_true, h i, h (w + i)]
  constructor
  . intro hor
    cases hor with
    | inl hlow =>
      rcases hlow with ⟨d, hd, hbit⟩
      exact ⟨d, by omega, hbit⟩
    | inr hhigh =>
      rcases hhigh with ⟨d, hd, hbit⟩
      refine ⟨w + d, by omega, ?_⟩
      rw [← hbit]
      congr 1
      omega
  . intro hex
    rcases hex with ⟨d, hd, hbit⟩
    by_cases hlt : d < w
    . exact Or.inl ⟨d, hlt, hbit⟩
    . refine Or.inr ⟨d - w, by omega, ?_⟩
      rw [← hbit]
      congr 1
      omega

theorem Smeared.toNat_eq {x y : BitVec 32} (h : Smeared 32 x y) : y.toNat = 2 ^ x.toNat.size - 1 := by
  apply Nat.eq_of_testBit_eq
  intro i
  rw [Nat.testBit_two_pow_sub_one, Bool.eq_iff_iff, decide_eq_true_iff, BitVec.testBit_toNat, h i]
  rw [Nat.lt_size]
  constructor
  . intro hex
    rcases hex with ⟨d, _, hbit⟩
    rw [← BitVec.testBit_toNat] at hbit
    have hge := Nat.ge_two_pow_of_testBit hbit
    have hpow : 2 ^ i ≤ 2 ^ (i + d) := Nat.pow_le_pow_right (by omega) (by omega)
    omega
  . intro hle
    rcases Nat.exists_ge_and_testBit_of_ge_two_pow hle with ⟨j, hj, hbit⟩
    rw [BitVec.testBit_toNat] at hbit
    have hj32 := BitVec.lt_of_getLsbD hbit
    refine ⟨j - i, by omega, ?_⟩
    rw [Nat.add_sub_cancel' hj]
    apply hbit

end roundup

theorem roundup_toNat {n : BitVec 32} (h1 : 1 ≤ n.toNat) (h2 : n.toNat ≤ 2 ^ 31)
    : (roundup n).toNat = 2 ^ (n.toNat - 1).size := by
  have hsub : (n - 1#32).toNat = n.toNat - 1 := by
    rw [BitVec.toNat_sub_of_le]
    . rfl
    . rw [BitVec.le_def]
      apply h1
  have hsmeared := ((((roundup.Smeared.self (n - 1#32)).double).double).double).double.double.toNat_eq
  have hsize : (n.toNat - 1).size ≤ 31 := by
    rw [Nat.size_le]
    omega
  have hpow : 2 ^ (n.toNat - 1).size ≤ 2 ^ 31 := Nat.pow_le_pow_right (by omega) hsize
  have hpos : 0 < 2 ^ (n.toNat - 1).size := Nat.two_pow_pos _
  unfold roundup
  rw [BitVec.toNat_add]
  rw [hsmeared, hsub]
  rw [show (1#32).toNat = 1 by rfl]
  rw [Nat.sub_add_cancel hpos]
  apply Nat.mod_eq_of_lt
  omega

theorem roundup_least {n : BitVec 32} (h1 : 1 ≤ n.toNat) (h2 : n.toNat ≤ 2 ^ 31)
    : ∃ k, (roundup n).toNat = 2 ^ k ∧ n.toNat ≤ 2 ^ k ∧ ∀ j, n.toNat ≤ 2 ^ j → 2 ^ k ≤ 2 ^ j := by
  refine ⟨(n.toNat - 1).size, roundup_toNat h1 h2, ?_, ?_⟩
  . have hlt := Nat.lt_size_self (n.toNat - 1)
    omega
  . intro j hj
    apply Nat.pow_le_pow_right (by omega)
    rw [Nat.size_le]
    omega

theorem roundup_least_five
    : ∃ k, (roundup 5#32).toNat = 2 ^ k ∧ (5#32).toNat ≤ 2 ^ k ∧ ∀ j, (5#32).toNat ≤ 2 ^ j → 2 ^ k ≤ 2 ^ j :=
  roundup_least (by decide) (by decide)

namespace kalloc

theorem blockSize_eq {size : Nat} (h : size ≤ PGSIZE)
    : ∃ k, 3 ≤ k ∧ k ≤ 12 ∧ size ≤ 2 ^ k ∧ blockSize size = 2 ^ k := by
  unfold blockSize
  generalize hsize : (if size < 8 then 8 else size) = size'
  have hle : size ≤ size' := by
    split at hsize <;> omega
  have h8 : 8 ≤ size' := by
    split at hsize <;> omega
  have hpg : size' ≤ 4096 := by
    unfold PGSIZE at h
    split at hsize <;> omega
  have hofNat : (BitVec.ofNat 32 size').toNat = size' := by
    rw [BitVec.toNat_ofNat]
    omega
  refine ⟨(size' - 1).size, ?_, ?_, ?_, ?_⟩
  . have := Nat.lt_size.mpr (show 2 ^ 2 ≤ size' - 1 by omega)
    omega
  . rw [Nat.size_le]
    omega
  . have := Nat.lt_size_self (size' - 1)
    omega
  . dsimp only
    rw [roundup_toNat (by omega) (by omega), hofNat]

end kalloc
end Slab
end Franklin
