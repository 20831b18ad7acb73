import Franklin.Fs.Initramfs
import Franklin.Lib.Orbit
import Mathlib.Algebra.Order.Ring.Int
import Mathlib.Tactic.Ring

/-!
This module contains how far the loop of `initramfs` moves its pointer from header to header, whatever the characters
of the size field are.
-/

namespace Franklin
namespace Fs

open Vmm (Addr ALIGN_UP P2V V2P)

namespace oct2int

variable {oct : Nat → UInt8} {val v : Int} {i len : Nat}

def value (oct : Nat → UInt8) (val : Int) (i : Nat) : Nat → Int
  | 0 => val
  | len + 1 => if oct i = 0 then val else value oct (val * 8 + ((oct i).toBitVec.toInt - 48)) (i + 1) len

theorem digit_eq (c : UInt8) : digit c = BitVec.ofInt 64 (c.toBitVec.toInt - 48) := by
  unfold digit
  apply BitVec.eq_of_toNat_eq
  rw [BitVec.signExtend]
  simp only [BitVec.toNat_sub, BitVec.toNat_ofInt, BitVec.toNat_ofNat]
  have hlt := BitVec.toInt_lt (x := c.toBitVec)
  have hle := BitVec.le_toInt c.toBitVec
  omega

theorem loop_value : loop oct (BitVec.ofInt 64 val) i len = BitVec.ofInt 64 (value oct val i len) := by
  induction len generalizing val i with
  | zero => rfl
  | succ len ih =>
    unfold loop value
    split
    . rfl
    . rw [← ih, digit_eq, BitVec.ofInt_add, BitVec.ofInt_mul]
      rfl

theorem value_bounds {K : Int} (len : Nat) (hlo : 26 - K ≤ val) (hhi : val ≤ K - 26)
    : 26 - K * 8 ^ len ≤ value oct val i len ∧ value oct val i len ≤ K * 8 ^ len - 26 := by
  induction len generalizing val i K with
  | zero =>
    unfold value
    rw [Int.pow_zero, Int.mul_one]
    exact ⟨hlo, hhi⟩
  | succ len ih =>
    unfold value
    split
    . have hK : K ≤ K * 8 ^ (len + 1) := le_mul_of_one_le_right (by omega) (one_le_pow₀ (by omega))
      omega
    . have hlt := BitVec.toInt_lt (x := (oct i).toBitVec)
      have hle := BitVec.le_toInt (oct i).toBitVec
      have hbounds := @ih (val * 8 + ((oct i).toBitVec.toInt - 48)) (i + 1) (K * 8) (by omega) (by omega)
      have hpow : K * 8 * 8 ^ len = K * 8 ^ (len + 1) := by
        rw [Int.mul_assoc, pow_succ']
      rw [hpow] at hbounds
      exact hbounds

end oct2int

namespace initramfs

variable {mem : Addr → UInt8} {p q : Addr}

def sizeValue (mem : Addr → UInt8) (p : Addr) : Int :=
  oct2int.value (tar.size (view mem p)) 0 0 tar.sizeofSize

def rounded (n : Int) : Int :=
  512 * ((n + 511) / 512)

/--
The header that the loop comes to after the one at `p`.
-/
def next (mem : Addr → UInt8) (p : Addr) : Option Addr :=
  if found (view mem p) then some (p + step (view mem p)) else none

theorem sizeValue_bounds (mem : Addr → UInt8) (p : Addr) : -2 ^ 41 < sizeValue mem p ∧ sizeValue mem p < 2 ^ 41 := by
  have hbounds := @oct2int.value_bounds (tar.size (view mem p)) 0 0 26 tar.sizeofSize (by omega) (by omega)
  unfold sizeValue
  have hpow : (26 : Int) * 8 ^ tar.sizeofSize = 1786706395136 := by decide
  rw [hpow] at hbounds
  omega

theorem size_eq (mem : Addr → UInt8) (p : Addr) : size (view mem p) = BitVec.ofInt 64 (sizeValue mem p) :=
  @oct2int.loop_value _ 0 _ _

theorem step_eq (mem : Addr → UInt8) (p : Addr)
    : step (view mem p) = BitVec.ofInt 64 (512 + rounded (sizeValue mem p)) := by
  have hbounds := sizeValue_bounds mem p
  unfold step
  rw [size_eq]
  generalize sizeValue mem p = v at *
  unfold ALIGN_UP TAR_HEADER_SIZE rounded
  have hone : (1 : BitVec 64).toNat = 1 := rfl
  apply BitVec.eq_of_toNat_eq
  simp only [BitVec.toNat_mul, BitVec.toNat_udiv, BitVec.toNat_sub, BitVec.toNat_add, BitVec.toNat_ofInt,
    BitVec.toNat_ofNat, hone, Nat.reducePow, Nat.reduceMod]
  omega

structure Forward (mem : Addr → UInt8) (p : Addr) : Prop where
  lt : p.toNat < (p + step (view mem p)).toNat
  exact : ((p + step (view mem p)).toNat : Int) = p.toNat + 512 + rounded (sizeValue mem p)

/--
What is expected of the loop from the first header on, whatever is done with a member.
-/
structure Progresses (mem : Addr → UInt8) (p : Addr) : Prop where
  forward : ∀ q, Visited (next mem) p q → found (view mem q) → Forward mem q
  ends : ∃ fuel, ∀ (σ : Type) (member : Addr → EStateM Stop σ Unit), (∀ q s, ∃ s', member q s = .ok () s') →
    ∀ s, ∃ s', loop member mem fuel p s = .ok () s'

/--
The size field is not so negative that the header is not behind the one before, and the member ends in the address
space.
-/
def Sized (mem : Addr → UInt8) (p : Addr) : Prop :=
  -512 < sizeValue mem p ∧ p.toNat + 512 + rounded (sizeValue mem p) < 2 ^ 64

theorem next_of_found (h : found (view mem p)) : next mem p = some (p + step (view mem p)) := by
  unfold next
  rw [if_pos h]

theorem next_eq_some (h : next mem p = some q) : found (view mem p) ∧ q = p + step (view mem p) := by
  unfold next at h
  split at h
  . next hfound => exact ⟨hfound, (Option.some.inj h).symm⟩
  . cases h

theorem not_found_of_next (h : next mem p = none) : ¬ found (view mem p) := by
  intro hfound
  rw [next_of_found hfound] at h
  cases h

theorem forward_iff : Forward mem p ↔ Sized mem p := by
  have hp := p.isLt
  have hnext := (p + step (view mem p)).isLt
  constructor
  . rintro ⟨hlt, hexact⟩
    unfold Sized rounded at *
    omega
  . rintro ⟨hsize, hend⟩
    have hstep : ((p + step (view mem p)).toNat : Int) = p.toNat + 512 + rounded (sizeValue mem p) := by
      rw [BitVec.toNat_add, step_eq, BitVec.toNat_ofInt]
      unfold rounded at *
      omega
    refine ⟨?_, hstep⟩
    unfold rounded at *
    omega

theorem ends_of_forward (h : ∀ q, Visited (next mem) p q → found (view mem q) → Forward mem q)
    : Ends (next mem) p := by
  apply Ends.of_measure fun q => 2 ^ 64 - q.toNat
  intro q q' hvisited hnext
  rcases next_eq_some hnext with ⟨hfound, rfl⟩
  have hlt := (h q hvisited hfound).lt
  have hq' := (q + step (view mem q)).isLt
  omega

theorem loop_of_ends (h : Ends (next mem) p)
    : ∃ fuel, ∀ (σ : Type) (member : Addr → EStateM Stop σ Unit), (∀ q s, ∃ s', member q s = .ok () s') →
        ∀ s, ∃ s', loop member mem fuel p s = .ok () s' := by
  apply h.induct
  . intro q hnone
    refine ⟨1, fun σ member _ s => ⟨s, ?_⟩⟩
    unfold loop
    rw [if_neg (not_found_of_next hnone)]
    rfl
  . intro q q' hsome ih
    rcases ih with ⟨fuel, hfuel⟩
    rcases next_eq_some hsome with ⟨hfound, rfl⟩
    refine ⟨fuel + 1, fun σ member hmember s => ?_⟩
    rcases hmember q s with ⟨s₁, hs₁⟩
    rcases hfuel σ member hmember s₁ with ⟨s', hs'⟩
    refine ⟨s', ?_⟩
    unfold loop
    rw [if_pos hfound, bind_of_ok hs₁, hs']

end initramfs

theorem initramfs_progresses_iff (mem : Addr → UInt8) (module : LimineFile)
    : initramfs.Progresses mem module.address
        ↔
      ∀ q, Visited (initramfs.next mem) module.address q → initramfs.found (initramfs.view mem q) →
        initramfs.Sized mem q := by
  constructor
  . intro h q hvisited hfound
    exact initramfs.forward_iff.mp (h.forward q hvisited hfound)
  . intro h
    have hforward := fun q hvisited hfound => initramfs.forward_iff.mpr (h q hvisited hfound)
    exact ⟨hforward, initramfs.loop_of_ends (initramfs.ends_of_forward hforward)⟩

/--
The memory with a module at `0x1000`: an empty file and then the header of a directory. The first character of the
size of the directory is a slash, the one before `0`.
-/
def zeroStep (a : Addr) : UInt8 :=
  let file : List (BitVec 64 × UInt8) :=
    [(0x1000#64, 97), (0x107c#64, 48), (0x109c#64, 48), (0x1101#64, 117), (0x1102#64, 115), (0x1103#64, 116),
      (0x1104#64, 97), (0x1105#64, 114)]
  let directory : List (BitVec 64 × UInt8) :=
    [(0x1200#64, 98), (0x127c#64, 47), (0x127d#64, 48), (0x127e#64, 48), (0x127f#64, 48), (0x129c#64, 53),
      (0x1301#64, 117), (0x1302#64, 115), (0x1303#64, 116), (0x1304#64, 97), (0x1305#64, 114)]
  ((file ++ directory).lookup (V2P a)).getD 0

theorem zeroStep_end_le : (P2V 0x1000#64).toNat + (1536#64).toNat ≤ 2 ^ 64 := by
  decide

theorem initramfs_not_progresses
    : ¬ initramfs.Progresses zeroStep (LimineFile.mk (P2V 0x1000#64) 1536#64 zeroStep_end_le).address := by
  intro h
  have hvisited : Visited (initramfs.next zeroStep) (P2V 0x1000#64) (P2V 0x1200#64) :=
    .step .self (by decide +kernel)
  have hlt := (h.forward _ hvisited (by decide +kernel)).lt
  exact absurd hlt (by decide +kernel)

end Fs
end Franklin
