import Franklin.Lib.Endian
import Franklin.Vmm.Lemmas.Walk

/-!
This module contains the bytes of the memory whose pages are the tables of `kernel/vmm.c`.
-/

namespace Franklin
namespace Exec

open Vmm (Addr Mem walk P2V PTE_GET_ADDR PTE_PRESENT)

def pageStart (a : Addr) : Addr :=
  BitVec.ofNat 64 (a.toNat / PGSIZE * PGSIZE)

def readByte (mem : Mem) (a : Addr) : UInt8 :=
  Endian.byte (mem (pageStart a) (BitVec.ofNat 9 (a.toNat / 8))) (a.toNat % 8)

def readWord (mem : Mem) (a : Addr) : BitVec 64 :=
  Endian.word fun k => readByte mem (a + BitVec.ofNat 64 k)

/--
The memory after `n` bytes have been written from the address `a` on.
-/
def writeBytes (mem : Mem) (a : Addr) (n : Nat) (f : Nat → UInt8) : Mem :=
  fun t i =>
    if t.toNat % PGSIZE = 0 then
      Endian.word fun k =>
        let offset := (t + BitVec.ofNat 64 (8 * i.toNat + k) - a).toNat
        if offset < n then f offset else Endian.byte (mem t i) k
    else
      mem t i

def window (mem : Mem) (a : Addr) (n : Nat) : Block where
  size := n
  byte k := readByte mem (a + BitVec.ofNat 64 k)

/--
What a program reads at an address, `none` is a page fault.
-/
def readVirt (mem : Mem) (top_level : Addr) (vaddr : BitVec 64) : Option UInt8 :=
  let entry := walk mem top_level vaddr
  if entry &&& PTE_PRESENT ≠ 0#64 then
    some (readByte mem (P2V (PTE_GET_ADDR entry) + BitVec.ofNat 64 (vaddr.toNat % PGSIZE)))
  else
    none

section ReadWrite

variable {mem mem' : Mem} {a b t : Addr} {n : Nat} {f g : Nat → UInt8}

theorem readByte_writeBytes (mem : Mem) (a b : Addr) (n : Nat) (f : Nat → UInt8)
    : readByte (writeBytes mem a n f) b = if (b - a).toNat < n then f (b - a).toNat else readByte mem b := by
  have hb := b.isLt
  have halign : (pageStart b).toNat % PGSIZE = 0 := by
    unfold pageStart PGSIZE
    rw [BitVec.toNat_ofNat]
    omega
  have haddr : pageStart b + BitVec.ofNat 64 (8 * (BitVec.ofNat 9 (b.toNat / 8)).toNat + b.toNat % 8) = b := by
    apply BitVec.eq_of_toNat_eq
    unfold pageStart PGSIZE
    simp only [BitVec.toNat_add, BitVec.toNat_ofNat]
    omega
  unfold readByte writeBytes
  rw [if_pos halign, Endian.byte_word _ (Nat.mod_lt _ (by omega))]
  dsimp only
  rw [haddr]

theorem writeBytes_of_disjoint (h : ∀ k, k < PGSIZE → ¬ (t + BitVec.ofNat 64 k - a).toNat < n)
    : writeBytes mem a n f t = mem t := by
  funext i
  unfold writeBytes
  split
  . conv => rhs; rw [← Endian.word_byte (mem t i)]
    apply Endian.word_congr
    intro k hk
    have hi := i.isLt
    dsimp only
    rw [if_neg (h _ (by unfold PGSIZE; omega))]
  . rfl

theorem readByte_congr (h : mem' (pageStart b) = mem (pageStart b)) : readByte mem' b = readByte mem b := by
  unfold readByte
  rw [h]

theorem pageStart_add (ht : t.toNat % PGSIZE = 0) {k : Nat} (hk : k < PGSIZE)
    : pageStart (t + BitVec.ofNat 64 k) = t := by
  have hlt := t.isLt
  apply BitVec.eq_of_toNat_eq
  unfold pageStart
  unfold PGSIZE at *
  simp only [BitVec.toNat_add, BitVec.toNat_ofNat]
  omega

end ReadWrite

end Exec
end Franklin
