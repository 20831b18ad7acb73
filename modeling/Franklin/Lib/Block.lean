import Mathlib.Logic.Function.Basic

/-!
This module contains blocks of bytes and the copy of a range of one block to another, byte by byte, which fails
at the first index outside of a block.
-/

namespace Franklin

structure Block where
  size : Nat
  byte : Nat → UInt8

namespace Block

def get (b : Block) (i : Int) : Option UInt8 :=
  if 0 ≤ i ∧ i < b.size then some (b.byte i.toNat) else none

def set (b : Block) (i : Int) (c : UInt8) : Option Block :=
  if 0 ≤ i ∧ i < b.size then some { b with byte := Function.update b.byte i.toNat c } else none

/--
The copy of `n` bytes from the index `j` of `src` to the index `i` of `dest`.
-/
def copy (dest : Block) (i : Int) (src : Block) (j : Int) : Nat → Option Block
  | 0 => some dest
  | n + 1 => do
    let dest ← copy dest i src j n
    dest.set (i + n) (← src.get (j + n))

def Inside (b : Block) (i : Int) (n : Nat) : Prop :=
  n = 0 ∨ 0 ≤ i ∧ i + n ≤ b.size

instance (b : Block) (i : Int) (n : Nat) : Decidable (b.Inside i n) := by
  unfold Inside
  infer_instance

def overlay (dest : Block) (i : Int) (src : Block) (j : Int) (n : Nat) : Block :=
  { dest with byte := fun k => if i ≤ k ∧ k < i + n then src.byte (j + (k - i)).toNat else dest.byte k }

section Copy

variable {dest src : Block} {i j : Int} {n : Nat}

@[simp]
theorem overlay_size : (dest.overlay i src j n).size = dest.size := by
  rfl

theorem overlay_byte (k : Nat)
    : (dest.overlay i src j n).byte k =
        if i ≤ k ∧ k < i + n then src.byte (j + (k - i)).toNat else dest.byte k := by
  rfl

theorem overlay_inside {k : Nat} (hk : i ≤ k ∧ k < i + n)
    : (dest.overlay i src j n).byte k = src.byte (j + (k - i)).toNat := by
  rw [overlay_byte, if_pos hk]

theorem overlay_outside {k : Nat} (hk : ¬ (i ≤ k ∧ k < i + n)) : (dest.overlay i src j n).byte k = dest.byte k := by
  rw [overlay_byte, if_neg hk]

theorem overlay_congr {src' : Block} (h : ∀ k : Nat, k < n → src.byte (j + k).toNat = src'.byte (j + k).toNat)
    : dest.overlay i src j n = dest.overlay i src' j n := by
  have hbyte : (dest.overlay i src j n).byte = (dest.overlay i src' j n).byte := by
    funext k
    by_cases hk : i ≤ k ∧ k < i + n
    . rw [overlay_inside hk, overlay_inside hk]
      have hoffset := h (k - i).toNat (by omega)
      rw [Int.toNat_of_nonneg (by omega)] at hoffset
      exact hoffset
    . rw [overlay_outside hk, overlay_outside hk]
  exact congrArg (Block.mk dest.size) hbyte

theorem copy_congr {src' : Block} (hsize : src.size = src'.size)
    (h : ∀ k : Nat, k < n → src.byte (j + k).toNat = src'.byte (j + k).toNat)
    : dest.copy i src j n = dest.copy i src' j n := by
  induction n with
  | zero => rfl
  | succ n ih =>
    have hget : src.get (j + n) = src'.get (j + n) := by
      unfold get
      rw [hsize, h n (Nat.lt_succ_self n)]
    unfold copy
    rw [ih fun k hk => h k (Nat.lt_succ_of_lt hk), hget]

theorem overlay_zero : dest.overlay i src j 0 = dest := by
  have hbyte : (dest.overlay i src j 0).byte = dest.byte := by
    funext k
    rw [overlay_outside (by omega)]
  exact congrArg (Block.mk dest.size) hbyte

theorem overlay_succ (hi : 0 ≤ i)
    : Function.update (dest.overlay i src j n).byte (i + n).toNat (src.byte (j + n).toNat) =
        (dest.overlay i src j (n + 1)).byte := by
  funext k
  by_cases hk : k = (i + n).toNat
  . subst hk
    rw [Function.update_self, overlay_inside (by omega)]
    congr 2
    omega
  . rw [Function.update_of_ne hk]
    by_cases hin : i ≤ k ∧ k < i + n
    . rw [overlay_inside hin, overlay_inside (by omega)]
    . rw [overlay_outside hin, overlay_outside (by omega)]

theorem copy_eq (hdest : dest.Inside i n) (hsrc : src.Inside j n)
    : copy dest i src j n = some (dest.overlay i src j n) := by
  induction n with
  | zero =>
    rw [overlay_zero]
    rfl
  | succ n ih =>
    unfold Inside at hdest hsrc
    unfold copy
    rw [ih (by unfold Inside; omega) (by unfold Inside; omega), Option.bind_eq_bind, Option.bind_some]
    unfold get set
    rw [if_pos (by omega), Option.bind_eq_bind, Option.bind_some, overlay_size, if_pos (by omega),
      overlay_succ (by omega)]
    rfl

theorem copy_none (h : ¬ (dest.Inside i n ∧ src.Inside j n)) : copy dest i src j n = none := by
  induction n with
  | zero =>
    unfold Inside at h
    simp at h
  | succ n ih =>
    unfold copy
    by_cases hin : dest.Inside i n ∧ src.Inside j n
    . rw [copy_eq hin.1 hin.2, Option.bind_eq_bind, Option.bind_some]
      unfold Inside at h hin
      unfold get set
      by_cases hget : 0 ≤ j + (n : Int) ∧ j + n < src.size
      . rw [if_pos hget, Option.bind_eq_bind, Option.bind_some, overlay_size, if_neg (by omega)]
      . rw [if_neg hget]
        rfl
    . rw [ih hin]
      rfl

end Copy

end Block

end Franklin
