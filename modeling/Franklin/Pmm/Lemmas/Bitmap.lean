import Mathlib.Data.Set.Lattice
import Mathlib.Order.CompletePartialOrder
import Mathlib.Order.Interval.Set.Basic
import Franklin.Pmm.Basic

namespace Franklin
namespace Pmm

theorem bitmap_test_eq_getLsbD (bm : Bitmap) (bit : Nat)
    : bitmap_test bm bit = (bm.byte (bit / 8)).getLsbD (bit % 8) := by
  have hbit : bit % 8 < 8 := Nat.mod_lt bit (by omega)
  unfold bitmap_test
  rw [← BitVec.twoPow_eq]
  rw [BitVec.and_twoPow]
  split
  . next h =>
    rw [h]
    simp only [bne_iff_ne, ne_eq]
    intro hzero
    have : (BitVec.twoPow 8 (bit % 8)).getLsbD (bit % 8) = false := by
      rw [hzero]
      simp
    simp [hbit] at this
  . next h =>
    simp only [Bool.not_eq_true] at h
    rw [h]
    simp

theorem bit_eq_iff (i bit : Nat) : i = bit ↔ i / 8 = bit / 8 ∧ bit % 8 = i % 8 := by
  omega

@[simp]
theorem bitmap_test_set (bm : Bitmap) (bit i : Nat)
    : bitmap_test (bitmap_set bm bit) i = (bitmap_test bm i || decide (i = bit)) := by
  have hbit : bit % 8 < 8 := Nat.mod_lt bit (by omega)
  simp only [bitmap_test_eq_getLsbD, bitmap_set, Bitmap.store, ← BitVec.twoPow_eq]
  split
  . next h =>
    rw [BitVec.getLsbD_or, BitVec.getLsbD_twoPow, h]
    simp [hbit, h, bit_eq_iff i bit]
  . next h =>
    simp [h, bit_eq_iff i bit]

@[simp]
theorem bitmap_test_reset (bm : Bitmap) (bit i : Nat)
    : bitmap_test (bitmap_reset bm bit) i = (bitmap_test bm i && decide (i ≠ bit)) := by
  have hbit : bit % 8 < 8 := Nat.mod_lt bit (by omega)
  have hi : i % 8 < 8 := Nat.mod_lt i (by omega)
  simp only [bitmap_test_eq_getLsbD, bitmap_reset, Bitmap.store, ← BitVec.twoPow_eq]
  split
  . next h =>
    rw [BitVec.getLsbD_and, BitVec.getLsbD_not, BitVec.getLsbD_twoPow, h]
    simp [hbit, hi, h, bit_eq_iff i bit]
  . next h =>
    simp [h, bit_eq_iff i bit]

@[simp]
theorem bitmap_set_size (bm : Bitmap) (bit : Nat) : (bitmap_set bm bit).size = bm.size := by
  rfl

@[simp]
theorem bitmap_reset_size (bm : Bitmap) (bit : Nat) : (bitmap_reset bm bit).size = bm.size := by
  rfl

@[simp]
theorem bitmap_reset_addr (bm : Bitmap) (bit : Nat) : (bitmap_reset bm bit).addr = bm.addr := by
  rfl

@[simp]
theorem setRun_size (bm : Bitmap) (start n : Nat) : (setRun bm start n).size = bm.size := by
  induction n generalizing bm start with
  | zero => rfl
  | succ n ih => simp [setRun, ih]

@[simp]
theorem resetRun_size (bm : Bitmap) (start n : Nat) : (resetRun bm start n).size = bm.size := by
  induction n generalizing bm start with
  | zero => rfl
  | succ n ih => simp [resetRun, ih]

/--
The bits that are set. The page of a bit is taken, for whatever reason.
-/
def Bitmap.taken (bm : Bitmap) : Set Nat :=
  { i | bitmap_test bm i = true }

@[simp]
theorem Bitmap.mem_taken (bm : Bitmap) (i : Nat) : i ∈ bm.taken ↔ bitmap_test bm i = true := by
  rfl

theorem setRun_taken (bm : Bitmap) (start n : Nat)
    : (setRun bm start n).taken = bm.taken ∪ Set.Ico start (start + n) := by
  induction n generalizing bm start with
  | zero => simp [setRun]
  | succ n ih =>
    unfold setRun
    rw [ih]
    ext i
    simp only [Set.mem_union, Bitmap.mem_taken, bitmap_test_set, Bool.or_eq_true, decide_eq_true_eq,
      Set.mem_Ico, or_assoc]
    apply or_congr_right
    omega

theorem resetRun_taken (bm : Bitmap) (start n : Nat)
    : (resetRun bm start n).taken = bm.taken \ Set.Ico start (start + n) := by
  induction n generalizing bm start with
  | zero => simp [resetRun]
  | succ n ih =>
    unfold resetRun
    rw [ih]
    ext i
    simp only [Set.mem_sdiff, Bitmap.mem_taken, bitmap_test_reset, Bool.and_eq_true,
      decide_eq_true_eq, Set.mem_Ico, and_assoc]
    apply and_congr_right
    omega

end Pmm
end Franklin
