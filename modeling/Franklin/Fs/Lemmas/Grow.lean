import Franklin.Fs.File
import Mathlib.Data.BitVec

/-!
This module contains when the loop that doubles the size of a file ends.
-/

namespace Franklin
namespace Fs

namespace ramfs_write

variable {fuel : Nat} {stop newsize m : BitVec 64}

theorem mul_two_shiftLeft (m : BitVec 64) (k : Nat) : (m * 2) <<< k = m <<< (k + 1) := by
  have htwo : m * (2 : BitVec 64) = m <<< (1 : Nat) := by
    apply BitVec.eq_of_toNat_eq
    simp [Nat.shiftLeft_eq]
  rw [htwo, Nat.add_comm, BitVec.shiftLeft_add]

theorem grow_isSome_iff : (grow fuel stop newsize).isSome ↔ ∃ k < fuel, stop < newsize <<< k := by
  induction fuel generalizing newsize with
  | zero => simp [grow]
  | succ fuel ih =>
    unfold grow
    split
    . next hle =>
      rw [ih]
      constructor
      . rintro ⟨k, hk, hlt⟩
        rw [mul_two_shiftLeft] at hlt
        exact ⟨k + 1, by omega, hlt⟩
      . rintro ⟨k, hk, hlt⟩
        cases k with
        | zero =>
          rw [BitVec.shiftLeft_zero] at hlt
          exact absurd hle (BitVec.not_le.mpr hlt)
        | succ k =>
          rw [← mul_two_shiftLeft] at hlt
          exact ⟨k, by omega, hlt⟩
    . next hle =>
      rw [BitVec.not_le] at hle
      simp only [Option.isSome_some, true_iff]
      exact ⟨0, by omega, by rw [BitVec.shiftLeft_zero]; exact hle⟩

theorem lt_of_grow (h : grow fuel stop newsize = some m) : stop < m := by
  induction fuel generalizing newsize with
  | zero => cases h
  | succ fuel ih =>
    unfold grow at h
    split at h
    . apply ih h
    . next hle =>
      rw [← Option.some.inj h]
      exact BitVec.not_le.mp hle

theorem grow_le (h : grow fuel stop newsize = some m) : m = newsize ∨ m.toNat ≤ 2 * stop.toNat := by
  induction fuel generalizing newsize with
  | zero => cases h
  | succ fuel ih =>
    unfold grow at h
    split at h
    . next hle =>
      right
      rcases ih h with hm | hm
      . rw [hm, BitVec.toNat_mul]
        rw [BitVec.le_def] at hle
        calc newsize.toNat * (2 : BitVec 64).toNat % 2 ^ 64 ≤ newsize.toNat * 2 := Nat.mod_le _ _
          _ ≤ 2 * stop.toNat := by omega
      . exact hm
    . left
      exact (Option.some.inj h).symm

theorem exists_shift (hsize : newsize ≠ 0) (hstop : stop.toNat < 2 ^ 63) : ∃ k < 64, stop < newsize <<< k := by
  have hpos : newsize.toNat ≠ 0 := by
    intro hzero
    exact hsize (BitVec.eq_of_toNat_eq hzero)
  have hlow := Nat.log2_self_le hpos
  have hhigh := Nat.lt_log2_self (n := newsize.toNat)
  have hbits : newsize.toNat.log2 < 64 := (Nat.log2_lt hpos).mpr newsize.isLt
  generalize newsize.toNat.log2 = l at *
  refine ⟨63 - l, by omega, ?_⟩
  rw [BitVec.lt_def, BitVec.toNat_shiftLeft, Nat.shiftLeft_eq]
  have hle : 2 ^ 63 ≤ newsize.toNat * 2 ^ (63 - l) := by
    calc 2 ^ 63 = 2 ^ l * 2 ^ (63 - l) := by rw [← Nat.pow_add]; congr 1; omega
      _ ≤ newsize.toNat * 2 ^ (63 - l) := Nat.mul_le_mul_right _ hlow
  have hlt : newsize.toNat * 2 ^ (63 - l) < 2 ^ 64 := by
    calc newsize.toNat * 2 ^ (63 - l) < 2 ^ (l + 1) * 2 ^ (63 - l) :=
          Nat.mul_lt_mul_of_pos_right hhigh (Nat.two_pow_pos _)
      _ = 2 ^ 64 := by rw [← Nat.pow_add]; congr 1; omega
  rw [Nat.mod_eq_of_lt hlt]
  omega

theorem shift_lt {k : Nat} (h : stop < newsize <<< k) : k < 64 := by
  by_contra hk
  rw [BitVec.shiftLeft_eq_zero (by omega)] at h
  exact BitVec.not_lt_zero h

/--
The loop ends if and only if some shift of `size + 1` is above the end of what is written, and it always does
for an end below `2 ^ 63`.
-/
theorem grow_ends_iff (size offset count : BitVec 64)
    : ((∃ fuel newsize, grow fuel (offset + count) (size + 1) = some newsize ∧ offset + count < newsize) ↔
          ∃ k < 64, offset + count < (size + 1) <<< k) ∧
        (size ≠ BitVec.allOnes 64 → (offset + count).toNat < 2 ^ 63 →
          ∃ k < 64, offset + count < (size + 1) <<< k) := by
  constructor
  . constructor
    . rintro ⟨fuel, newsize, hgrow, _⟩
      rcases grow_isSome_iff.mp (Option.isSome_of_eq_some hgrow) with ⟨k, _, hlt⟩
      exact ⟨k, shift_lt hlt, hlt⟩
    . intro hshift
      rcases Option.isSome_iff_exists.mp (grow_isSome_iff.mpr hshift) with ⟨newsize, hgrow⟩
      exact ⟨64, newsize, hgrow, lt_of_grow hgrow⟩
  . intro hsize hend
    apply exists_shift _ hend
    intro hzero
    apply hsize
    rw [← BitVec.add_sub_cancel size 1, hzero]
    decide

theorem not_grow_ends
    : ¬ ∃ fuel newsize, grow fuel (0 + 2 ^ 63) (0 + 1) = some newsize ∧ (0 + 2 ^ 63 : BitVec 64) < newsize := by
  rintro ⟨fuel, newsize, hgrow, _⟩
  rcases grow_isSome_iff.mp (Option.isSome_of_eq_some hgrow) with ⟨k, _, hlt⟩
  have hk := shift_lt hlt
  have hall : ∀ k < 64, ¬ (0 + 2 ^ 63 : BitVec 64) < (0 + 1) <<< k := by decide +kernel
  exact hall k hk hlt

end ramfs_write

end Fs
end Franklin
