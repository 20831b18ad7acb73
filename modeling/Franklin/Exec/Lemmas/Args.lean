import Franklin.Exec.Lemmas.Copyargs
import Franklin.Exec.Lemmas.Isolation

/-!
This module contains what `exec` writes to the stack of the new program, and with which stack pointer it starts.
-/

namespace Franklin
namespace Exec

open Vmm (Addr Mem P2V)
open Pmm (bitmap_test FreeRun setRun)

section Putargs

variable {s s' : State} {mem : Mem} {paddr a sp stack : Addr} {argv : List Arg} {arg : Arg} {aux : Auxval} {b : Block}
variable {k n : Nat} {v : BitVec 64}

theorem sub_P2V_zero (a : Addr) : P2V 0#64 + BitVec.ofNat 64 (a - P2V 0#64).toNat = a := by
  rw [BitVec.ofNat_toNat, BitVec.setWidth_eq, BitVec.add_comm, BitVec.sub_add_cancel]

theorem address_natCast (base : BitVec 64) (k : Nat) : address base k = base + BitVec.ofNat 64 k := by
  unfold address
  rw [BitVec.ofInt_natCast]

theorem readWord_written (hk : k + 8 ≤ n) (hn : n < 2 ^ 64)
    : readWord (writeBytes mem (P2V 0#64) n b.byte) (P2V 0#64 + BitVec.ofNat 64 k) = b.word k := by
  unfold readWord Block.word
  apply Endian.word_congr
  intro i hi
  have hindex : (P2V 0#64 + BitVec.ofNat 64 k + BitVec.ofNat 64 i - P2V 0#64).toNat = k + i := by
    rw [BitVec.add_assoc, BitVec.add_comm (P2V 0#64), BitVec.add_sub_cancel, ← BitVec.ofNat_add, BitVec.toNat_ofNat,
      Nat.mod_eq_of_lt (by omega)]
  rw [readByte_writeBytes, hindex, if_pos (by omega)]
  rfl

def imageStart (paddr : Addr) (argv : List Arg) : Nat :=
  paddr.toNat - imageSize argv

structure Written (paddr : Addr) (argv : List Arg) (mem mem' : Mem) : Prop where
  kept : ∀ a, ¬ (imageStart paddr argv ≤ (a - P2V 0#64).toNat ∧ (a - P2V 0#64).toNat < paddr.toNat) →
    readByte mem' a = readByte mem a
  argc : readWord mem' (P2V 0#64 + BitVec.ofNat 64 (imageStart paddr argv)) = BitVec.ofNat 64 argv.length
  pointer : ∀ (i : Nat) arg, argv[i]? = some arg →
    readWord mem' (P2V 0#64 + BitVec.ofNat 64 (imageStart paddr argv + 8 * (i + 1))) =
      address (P2V 0#64) (place paddr.toNat argv i)

theorem putargs_eq (hfit : imageSize argv ≤ paddr.toNat)
    : ∃ mem, exec.putargs paddr argv aux s =
          .ok (P2V 0#64 + BitVec.ofNat 64 (imageStart paddr argv)) { s with mem }
        ∧ Written paddr argv s.mem mem := by
  have hlt := paddr.isLt
  rcases @copyargs_eq (P2V 0#64) (exec.below s paddr) paddr.toNat argv aux (Int.le_refl _) (by omega) with
    ⟨b, hb, hkept, hlie, _⟩
  have hstart : (paddr.toNat : Int) - imageSize argv = (imageStart paddr argv : Nat) := by
    unfold imageStart
    omega
  have hsize : b.size = paddr.toNat := hkept.size
  rw [hstart] at hb hkept hlie
  have hword : ∀ {n : Nat} {v : BitVec 64}, b.load (imageStart paddr argv + 8 * n) = some v →
      readWord (writeBytes s.mem (P2V 0#64) paddr.toNat b.byte)
        (P2V 0#64 + BitVec.ofNat 64 (imageStart paddr argv + 8 * n)) = v := by
    intro n v hload
    unfold Block.load at hload
    split at hload
    . next hin =>
      unfold Block.Inside at hin
      rw [readWord_written (by omega) hlt]
      exact Option.some.inj hload
    . cases hload
  refine ⟨writeBytes s.mem (P2V 0#64) paddr.toNat b.byte, ?_, ?_, ?_, ?_⟩
  . unfold exec.putargs
    rw [hb, ← address_natCast]
  . intro a ha
    rw [readByte_writeBytes]
    split
    . next hin =>
      rw [hkept.byte _ (by omega)]
      unfold exec.below window
      dsimp only
      rw [sub_P2V_zero]
    . rfl
  . exact @hword 0 _ (hlie.load rfl)
  . intro i arg hi
    exact hword (hlie.load (stackWords_pointer hi _))

theorem putargs_error (hfit : ¬ imageSize argv ≤ paddr.toNat) : exec.putargs paddr argv aux s = .error .fault s := by
  have hnone : copyargs (P2V 0#64) (exec.below s paddr) paddr.toNat argv aux = none := by
    have hiff := @copyargs_isSome_iff (P2V 0#64) (exec.below s paddr) paddr.toNat argv aux (Int.le_refl _)
    rw [← Option.not_isSome_iff_eq_none, hiff]
    omega
  unfold exec.putargs
  rw [hnone]

def InStack (stack a : Addr) : Prop :=
  (a - P2V stack).toNat < STACKSIZE

/--
`copyargs` returns, and only bytes of the stack can be other ones afterwards, whatever the memory holds before.
-/
def ArgsInside (stack : Addr) (argv : List Arg) (aux : Auxval) (s : State) : Prop :=
  ∀ mem, wp (exec.putargs (stack + BitVec.ofNat 64 STACKSIZE) argv aux)
    (fun _ s' => ∀ a, ¬ InStack stack a → readByte s'.mem a = readByte mem a) (fun _ _ => False) { s with mem }

theorem stackEnd_toNat (hstack : stack.toNat + STACKSIZE < 2 ^ 64)
    : (stack + BitVec.ofNat 64 STACKSIZE).toNat = stack.toNat + STACKSIZE := by
  unfold STACKSIZE at *
  rw [BitVec.toNat_add, BitVec.toNat_ofNat]
  omega

theorem sub_P2V (stack a : Addr) : a - P2V stack = a - P2V 0#64 - stack := by
  rw [show P2V stack = P2V (0#64 + stack) by rw [BitVec.zero_add], P2V_add, sub_add_eq_sub_sub]

theorem inStack_of_index (hstack : stack.toNat + STACKSIZE < 2 ^ 64) (hfit : imageSize argv ≤ STACKSIZE)
    (hlow : imageStart (stack + BitVec.ofNat 64 STACKSIZE) argv ≤ (a - P2V 0#64).toNat)
    (hhigh : (a - P2V 0#64).toNat < (stack + BitVec.ofNat 64 STACKSIZE).toNat) : InStack stack a := by
  unfold InStack
  unfold imageStart at hlow
  rw [stackEnd_toNat hstack] at hlow hhigh
  rw [sub_P2V, BitVec.toNat_sub_of_le (BitVec.le_def.mpr (by omega))]
  omega

theorem readByte_eq (mem : Mem) (a : Addr) : readByte mem a = Endian.byte (readWord mem a) 0 := by
  unfold readWord
  rw [Endian.byte_word _ (by omega), BitVec.add_zero]

theorem not_inStack (hstack : stack.toNat + STACKSIZE < 2 ^ 64) (hfit : ¬ imageSize argv ≤ STACKSIZE)
    (hbelow : imageSize argv ≤ (stack + BitVec.ofNat 64 STACKSIZE).toNat)
    : ¬ InStack stack (P2V 0#64 + BitVec.ofNat 64 (imageStart (stack + BitVec.ofNat 64 STACKSIZE) argv)) := by
  have hend := stackEnd_toNat hstack
  have hlow : imageStart (stack + BitVec.ofNat 64 STACKSIZE) argv < stack.toNat := by
    unfold imageStart
    omega
  unfold InStack
  rw [sub_P2V, BitVec.add_comm, BitVec.add_sub_cancel, BitVec.toNat_sub, BitVec.toNat_ofNat]
  omega

theorem argsInside_iff (hstack : stack.toNat + STACKSIZE < 2 ^ 64)
    : ArgsInside stack argv aux s ↔ imageSize argv ≤ STACKSIZE := by
  have hend := stackEnd_toNat hstack
  constructor
  . intro h
    by_contra hfit
    by_cases hbelow : imageSize argv ≤ (stack + BitVec.ofNat 64 STACKSIZE).toNat
    . generalize ha : P2V 0#64 + BitVec.ofNat 64 (imageStart (stack + BitVec.ofNat 64 STACKSIZE) argv) = a
      have hout : ¬ InStack stack a := by
        rw [← ha]
        exact not_inStack hstack hfit hbelow
      -- A memory that holds something else than the first byte of `argc` at the start of the image.
      rcases exists_ne (Endian.byte (BitVec.ofNat 64 argv.length) 0) with ⟨c, hc⟩
      rcases @putargs_eq { s with mem := writeBytes s.mem a 1 fun _ => c } (stack + BitVec.ofNat 64 STACKSIZE) argv aux
        hbelow with ⟨mem', hrun, hwritten⟩
      have hkept := h (writeBytes s.mem a 1 fun _ => c)
      rw [wp_of_ok hrun] at hkept
      have hargc := hwritten.argc
      have hbyte := hkept a hout
      rw [ha] at hargc
      rw [readByte_eq, hargc, readByte_writeBytes, BitVec.sub_self] at hbyte
      exact hc hbyte.symm
    . have herror := h s.mem
      rw [wp_of_error (putargs_error hbelow)] at herror
      exact herror
  . intro hfit mem
    rcases @putargs_eq { s with mem } (stack + BitVec.ofNat 64 STACKSIZE) argv aux (by omega) with
      ⟨mem', hrun, hwritten⟩
    rw [wp_of_ok hrun]
    intro a ha
    apply hwritten.kept
    rintro ⟨hlow, hhigh⟩
    exact ha (inStack_of_index hstack hfit hlow hhigh)

end Putargs

end Exec
end Franklin
