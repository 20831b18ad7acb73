import Franklin.Lib.Block
import Mathlib.Algebra.Group.Nat.Defs
import Mathlib.Data.BitVec

/-!
This module contains the numbers that lie in a memory with their lowest byte first, and the words of 64 bits
in a block.
-/

namespace Franklin
namespace Endian

def value (f : Nat → UInt8) : Nat → Nat
  | 0 => 0
  | n + 1 => value f n + (f n).toNat * 256 ^ n

def byte (v : BitVec 64) (k : Nat) : UInt8 :=
  UInt8.ofNat (v.toNat / 256 ^ k)

def word (f : Nat → UInt8) : BitVec 64 :=
  BitVec.ofNat 64 (value f 8)

section Value

variable {f g : Nat → UInt8} {n k : Nat} {v : BitVec 64}

theorem value_lt (f : Nat → UInt8) (n : Nat) : value f n < 256 ^ n := by
  induction n with
  | zero => exact Nat.one_pos
  | succ n ih =>
    unfold value
    have hbyte := (f n).toNat_lt
    have hle : (f n).toNat * 256 ^ n ≤ 255 * 256 ^ n := Nat.mul_le_mul_right _ (by omega)
    rw [Nat.pow_succ]
    omega

theorem value_congr (h : ∀ k, k < n → f k = g k) : value f n = value g n := by
  induction n with
  | zero => rfl
  | succ n ih =>
    unfold value
    rw [ih (fun k hk => h k (by omega)), h n (by omega)]

theorem value_byte (v : BitVec 64) (n : Nat) : value (byte v) n = v.toNat % 256 ^ n := by
  induction n with
  | zero =>
    rw [Nat.pow_zero, Nat.mod_one]
    rfl
  | succ n ih =>
    unfold value
    rw [ih, Nat.mod_pow_succ, Nat.mul_comm (256 ^ n)]
    unfold byte
    rw [UInt8.toNat_ofNat']

theorem value_div (f : Nat → UInt8) (hk : k < n) : value f n / 256 ^ k % 256 = (f k).toNat := by
  induction n with
  | zero => omega
  | succ n ih =>
    unfold value
    have hbyte := (f n).toNat_lt
    by_cases hkn : k = n
    . subst hkn
      rw [Nat.add_mul_div_right _ _ (Nat.pow_pos (by omega)), Nat.div_eq_of_lt (value_lt f k), Nat.zero_add,
        Nat.mod_eq_of_lt hbyte]
    . have hlt : k < n := by omega
      have hsplit : (f n).toNat * 256 ^ n = (f n).toNat * 256 ^ (n - k - 1) * 256 * 256 ^ k := by
        rw [Nat.mul_assoc, Nat.mul_assoc, ← Nat.pow_succ', ← Nat.pow_add]
        congr 2
        omega
      rw [hsplit, Nat.add_mul_div_right _ _ (Nat.pow_pos (by omega)), Nat.add_mul_mod_self_right]
      exact ih hlt

@[simp]
theorem word_byte (v : BitVec 64) : word (byte v) = v := by
  unfold word
  rw [value_byte]
  exact BitVec.eq_of_toNat_eq (by rw [BitVec.toNat_ofNat]; omega)

theorem word_congr (h : ∀ k, k < 8 → f k = g k) : word f = word g := by
  unfold word
  rw [value_congr h]

theorem byte_word (f : Nat → UInt8) (hk : k < 8) : byte (word f) k = f k := by
  have hlt : value f 8 < 2 ^ 64 := value_lt f 8
  unfold byte word
  rw [BitVec.toNat_ofNat, Nat.mod_eq_of_lt hlt]
  apply UInt8.toNat.inj
  rw [UInt8.toNat_ofNat']
  exact value_div f hk

theorem getLsbD_byte (v : BitVec 64) (k : Nat) {j : Nat} (hj : j < 8)
    : (byte v k).toBitVec.getLsbD j = v.getLsbD (8 * k + j) := by
  unfold byte
  rw [UInt8.toBitVec_ofNat', BitVec.getLsbD_ofNat, decide_eq_true hj, Bool.true_and, show 256 = 2 ^ 8 from rfl,
    ← Nat.pow_mul, Nat.testBit_div_two_pow, Nat.add_comm]
  rfl

theorem getLsbD_word (f : Nat → UInt8) {j : Nat} (hj : j < 64)
    : (word f).getLsbD j = (f (j / 8)).toBitVec.getLsbD (j % 8) := by
  rw [← byte_word f (by omega), getLsbD_byte _ _ (Nat.mod_lt j (by omega)), Nat.div_add_mod]

end Value

end Endian

namespace Block

/--
The block `b'` is `b` with other bytes from the index `i` up to `j`.
-/
structure Kept (b b' : Block) (i j : Int) : Prop where
  size : b'.size = b.size
  byte : ∀ k : Nat, ¬ (i ≤ k ∧ k < j) → b'.byte k = b.byte k

def word (b : Block) (i : Int) : BitVec 64 :=
  Endian.word fun k => b.byte (i + k).toNat

def load (b : Block) (i : Int) : Option (BitVec 64) :=
  if b.Inside i 8 then some (b.word i) else none

def store (b : Block) (i : Int) (v : BitVec 64) : Option Block :=
  b.copy i { size := 8, byte := Endian.byte v } 0 8

def Lie (b : Block) : Int → List (BitVec 64) → Prop
  | _, [] => True
  | i, v :: vs => b.load i = some v ∧ Lie b (i + 8) vs

section Kept

variable {b b' b'' : Block} {i j i' j' : Int}

theorem Kept.refl (b : Block) (i j : Int) : Kept b b i j where
  size := by rfl
  byte _ _ := by rfl

theorem Kept.trans (h : Kept b b' i j) (h' : Kept b' b'' i j) : Kept b b'' i j where
  size := by rw [h'.size, h.size]
  byte k hk := by rw [h'.byte k hk, h.byte k hk]

theorem Kept.mono (h : Kept b b' i j) (hi : i' ≤ i) (hj : j ≤ j') : Kept b b' i' j' where
  size := h.size
  byte k hk := h.byte k (by omega)

theorem Kept.overlay (b src : Block) (i j : Int) (n : Nat) : Kept b (b.overlay i src j n) i (i + n) where
  size := by rfl
  byte _ hk := overlay_outside hk

theorem Kept.inside {n : Nat} (h : Kept b b' i j) (hin : b.Inside i' n) : b'.Inside i' n := by
  unfold Inside at *
  rw [h.size]
  exact hin

end Kept

section Word

variable {b b' : Block} {i j i' j' : Int} {v : BitVec 64} {vs ws : List (BitVec 64)}

theorem store_eq (hin : b.Inside i 8)
    : b.store i v = some (b.overlay i { size := 8, byte := Endian.byte v } 0 8) := by
  unfold store
  rw [copy_eq hin (by unfold Inside; dsimp only; omega)]

theorem store_none (hin : ¬ b.Inside i 8) : b.store i v = none := by
  unfold store
  rw [copy_none (by tauto)]

theorem inside_of_store (h : b.store i v = some b') : b.Inside i 8 := by
  by_contra hout
  rw [store_none hout] at h
  cases h

theorem load_eq (hin : b.Inside i 8) : b.load i = some (b.word i) := by
  unfold load
  rw [if_pos hin]

theorem exists_store (b : Block) (hi : 0 ≤ i) (hsize : i + 8 ≤ b.size) (v : BitVec 64)
    : ∃ b', b.store i v = some b' ∧ Kept b b' i (i + 8) ∧ b'.load i = some v := by
  have hin : b.Inside i 8 := by
    unfold Inside
    omega
  refine ⟨_, store_eq hin, Kept.overlay _ _ _ _ _, ?_⟩
  rw [load_eq (Kept.inside (Kept.overlay _ _ _ _ _) hin)]
  unfold word
  rw [Endian.word_congr (g := Endian.byte v), Endian.word_byte]
  intro k hk
  rw [overlay_inside (by omega)]
  dsimp only
  congr 1
  omega

theorem Kept.load (h : Kept b b' i j) (hj : j' + 8 ≤ i ∨ j ≤ j') : b'.load j' = b.load j' := by
  by_cases hin : b.Inside j' 8
  . rw [load_eq hin, load_eq (h.inside hin)]
    unfold word
    rw [Endian.word_congr]
    intro k hk
    apply h.byte
    unfold Inside at hin
    omega
  . have hin' : ¬ b'.Inside j' 8 := by
      unfold Inside at *
      rw [h.size]
      exact hin
    unfold Block.load
    rw [if_neg hin, if_neg hin']

theorem Kept.lie (h : Kept b b' i j) (hj : i' + 8 * vs.length ≤ i ∨ j ≤ i') (hlie : Lie b i' vs) : Lie b' i' vs := by
  induction vs generalizing i' with
  | nil => trivial
  | cons v vs ih =>
    rw [List.length_cons] at hj
    refine ⟨?_, ih (by omega) hlie.2⟩
    rw [h.load (by omega)]
    exact hlie.1

theorem Lie.append (h : Lie b i vs) (h' : Lie b (i + 8 * vs.length) ws) : Lie b i (vs ++ ws) := by
  induction vs generalizing i with
  | nil =>
    rw [List.length_nil, Int.natCast_zero, Int.mul_zero, Int.add_zero] at h'
    exact h'
  | cons v vs ih =>
    refine ⟨h.1, ih h.2 ?_⟩
    rw [List.length_cons] at h'
    rw [show i + 8 + 8 * (vs.length : Int) = i + 8 * ((vs.length + 1 : Nat) : Int) by omega]
    exact h'

theorem Lie.load {n : Nat} (h : Lie b i vs) (hn : vs[n]? = some v) : b.load (i + 8 * n) = some v := by
  induction vs generalizing i n with
  | nil => cases hn
  | cons w vs ih =>
    cases n with
    | zero =>
      rw [List.getElem?_cons_zero] at hn
      rw [← hn, Int.natCast_zero, Int.mul_zero, Int.add_zero]
      exact h.1
    | succ n =>
      rw [List.getElem?_cons_succ] at hn
      have hload := ih h.2 hn
      rw [show i + 8 + 8 * (n : Int) = i + 8 * ((n + 1 : Nat) : Int) by omega] at hload
      exact hload

end Word

end Block

end Franklin
