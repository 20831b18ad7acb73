import Franklin.Lib.Endian
import Franklin.Pmm.Basic

/-!
This module contains the accessors of `franklin/mmu.h`, which work on the words of `bitmap`, and `pallocaddr`.
-/

namespace Franklin
namespace Pmm

namespace Bitmap

def word (bm : Bitmap) (i : Nat) : BitVec 64 :=
  Endian.word fun k => UInt8.ofBitVec (bm.byte (8 * i + k))

def storeWord (bm : Bitmap) (i : Nat) (val : BitVec 64) : Bitmap :=
  { bm with byte := fun k => if k / 8 = i then (Endian.byte val (k % 8)).toBitVec else bm.byte k }

end Bitmap

def isfree (bm : Bitmap) (page : BitVec 32) : Bool :=
  bm.word (page.toNat / 64) &&& (1#64 <<< (page.toNat % 64)) == 0#64

def togglepage (bm : Bitmap) (page : BitVec 32) : Bitmap :=
  bm.storeWord (page.toNat / 64) (bm.word (page.toNat / 64) ^^^ (1#64 <<< (page.toNat % 64)))

/--
`n` rounds of the loop, the first one with `i`. `none` is the call of `panic`.
-/
def pallocaddr.loop (bm : Bitmap) (i : BitVec 32) : Nat → Option Bitmap
  | 0 => some bm
  | n + 1 => if !isfree bm i then none else loop (togglepage bm i) (i + 1) n

def pallocaddr (bm : Bitmap) (size : BitVec 32) (paddr : BitVec 64) : Option (BitVec 64 × Bitmap) := do
  let pfn := (paddr / BitVec.ofNat 64 PGSIZE).setWidth 32
  let bm ← pallocaddr.loop bm pfn ((pfn + size).toNat - pfn.toNat)
  some (paddr, bm)

inductive PageCall where
  | palloc (pages : Nat)
  | pallocaddr (size : BitVec 32) (paddr : BitVec 64)
  | freepg (addr length : Nat)

/--
What a call returns and the bitmap after it, `none` if it does not return.
-/
def PageCall.exec (bm : Bitmap) : PageCall → Option (Option Nat × Bitmap)
  | .palloc pages => (Pmm.palloc bm pages).map fun res => (some res.1, res.2)
  | .pallocaddr size paddr => (Pmm.pallocaddr bm size paddr).map fun res => (some res.1.toNat, res.2)
  | .freepg addr length => some (none, Pmm.freepg bm addr length)

end Pmm
end Franklin
