import Mathlib.Data.BitVec

/-!
This module contains the descriptors of task state segments of `kernel/gdt.c`.
-/

namespace Franklin
namespace Gdt

structure Gdtdesc where
  segment_limit : BitVec 16
  base_addr : Vector (BitVec 8) 3
  attributes_1 : BitVec 8
  segment_limit2 : BitVec 4
  attributes_2 : BitVec 4
  base_addr2 : BitVec 8
  deriving DecidableEq, Repr

structure Tssdesc where
  desc : Gdtdesc
  base_high : BitVec 32
  deriving DecidableEq, Repr

def Tssdesc.base (tssdesc : Tssdesc) : BitVec 64 :=
  tssdesc.base_high ++ tssdesc.desc.base_addr2 ++ tssdesc.desc.base_addr[2] ++ tssdesc.desc.base_addr[1]
    ++ tssdesc.desc.base_addr[0]

/--
The descriptor that `alloc_tss` returns, `tss` is the address of its local variable `tss`. The members without an
initializer are zero.
-/
def alloc_tss (tss : BitVec 64) : Tssdesc where
  desc :=
    { segment_limit := 0x67
      segment_limit2 := 0
      base_addr := #v[tss.setWidth 8, (tss >>> 8).setWidth 8, (tss >>> 16).setWidth 8]
      -- 9 = TSS
      attributes_1 := 9 ||| 1 <<< 7
      attributes_2 := 0
      base_addr2 := 0 }
  base_high := (tss >>> 32).setWidth 32

/--
The descriptor at `gdt[9]` after `load_tss(tss)`, before the call it is `tssdesc`.
-/
def load_tss (tssdesc : Tssdesc) (tss : BitVec 64) : Tssdesc :=
  { tssdesc with
    desc :=
      { tssdesc.desc with
        segment_limit := 0x67
        segment_limit2 := 0
        base_addr := #v[tss.setWidth 8, (tss >>> 8).setWidth 8, (tss >>> 16).setWidth 8]
        -- 9 = TSS
        attributes_1 := 9 ||| 1 <<< 7
        attributes_2 := 0 }
    base_high := (tss >>> 32).setWidth 32 }

end Gdt
end Franklin
