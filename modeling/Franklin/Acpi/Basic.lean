import Franklin.Lib.Endian
import Franklin.Lib.Orbit
import Franklin.Vmm.Basic

/-!
This module contains the tables of the firmware as `kernel/acpi.c` and `kernel/apic.c` read them. `mem` is the whole
memory, and the tables are where the firmware has put them.
-/

namespace Franklin
namespace Acpi

open Vmm (Addr HHDM_OFFSET)

def uint32 (mem : Addr → UInt8) (a : Addr) : BitVec 32 :=
  BitVec.ofNat 32 (Endian.value (fun k => mem (a + BitVec.ofNat 64 k)) 4)

namespace defaultheader

def signature (mem : Addr → UInt8) (hdr : Addr) : BitVec 32 :=
  uint32 mem hdr

def length (mem : Addr → UInt8) (hdr : Addr) : BitVec 32 :=
  uint32 mem (hdr + 4#64)

end defaultheader

structure RSDT where
  mem : Addr → UInt8
  addr : Addr
  -- The length is the one of the whole table.
  le_length : 36 ≤ (defaultheader.length mem addr).toNat

namespace RSDT

def length (rsdt : RSDT) : BitVec 32 :=
  defaultheader.length rsdt.mem rsdt.addr

def entries (rsdt : RSDT) : Nat :=
  (rsdt.length.toNat - 36) / 4

def entry (rsdt : RSDT) (i : Nat) : BitVec 32 :=
  uint32 rsdt.mem (rsdt.addr + BitVec.ofNat 64 (36 + 4 * i))

end RSDT

/--
The value of `rsdt`. What the loop assigns to `hdr` is not used.
-/
def init_acpi (mem : Addr → UInt8) (rsdp : Addr) : Addr :=
  (uint32 mem (rsdp + 16#64)).setWidth 64 + HHDM_OFFSET

namespace get_acpi_sdt

def hdr (rsdt : RSDT) (i : Nat) : Addr :=
  (rsdt.entry i).setWidth 64 + HHDM_OFFSET

/--
The table has a signature of 32 bits, and the one that is wanted has 64.
-/
def found (rsdt : RSDT) (signature : BitVec 64) (i : Nat) : Prop :=
  (defaultheader.signature rsdt.mem (hdr rsdt i)).setWidth 64 = signature

instance (rsdt : RSDT) (signature : BitVec 64) (i : Nat) : Decidable (found rsdt signature i) := by
  unfold found
  infer_instance

def loop (rsdt : RSDT) (signature : BitVec 64) : Nat → Nat → Option Addr
  | 0, _ => none
  | fuel + 1, i =>
    -- The entry is read once more, after `--i`.
    if found rsdt signature i then some (hdr rsdt i) else loop rsdt signature fuel (i + 1)

def step (rsdt : RSDT) (signature : BitVec 64) (i : Nat) : Option Nat :=
  if found rsdt signature i then none else some (i + 1)

end get_acpi_sdt

def get_acpi_sdt (fuel : Nat) (rsdt : RSDT) (signature : BitVec 64) : Option Addr :=
  get_acpi_sdt.loop rsdt signature fuel 0

structure MADT where
  mem : Addr → UInt8
  addr : Addr
  le_length : 44 ≤ (defaultheader.length mem addr).toNat

namespace MADT

def length (madt : MADT) : BitVec 32 :=
  defaultheader.length madt.mem madt.addr

def area (madt : MADT) : Nat :=
  madt.length.toNat - 44

def entry (madt : MADT) (i : BitVec 32) : UInt8 :=
  madt.mem (madt.addr + BitVec.ofNat 64 (44 + i.toNat))

end MADT

namespace walk_madt

structure State where
  i : BitVec 32
  lapicId : Block
  x : BitVec 8
  NMI_LINT : UInt8

def size (madt : MADT) (i : BitVec 32) : BitVec 32 :=
  (madt.entry (i + 1#32)).toBitVec.setWidth 32

/--
The body of the loop. It has no result if the index of `lapicId` is not inside of the array.
-/
def body (madt : MADT) (s : State) : Option State := do
  let lapicId ←
    if madt.entry s.i = 0 then s.lapicId.set s.x.toNat (madt.entry (s.i + 3#32)) else some s.lapicId
  some {
    i := s.i + size madt s.i
    lapicId
    x := if madt.entry s.i = 0 then s.x + 1#8 else s.x
    NMI_LINT := if madt.entry s.i = 4 then madt.entry (s.i + 5#32) else s.NMI_LINT }

def loop (madt : MADT) : Nat → State → Option State
  | 0, _ => none
  | fuel + 1, s =>
    if s.i < madt.length then do
      loop madt fuel (← body madt s)
    else
      some s

def step (madt : MADT) (s : State) : Option State :=
  if s.i < madt.length then body madt s else none

def reads (madt : MADT) (i : BitVec 32) : List (BitVec 32) :=
  [i, i + 1#32] ++ (if madt.entry i = 0 then [i + 3#32] else []) ++ (if madt.entry i = 4 then [i + 5#32] else [])

def start (stack : Nat → UInt8) (lint : UInt8) : State where
  i := 0#32
  lapicId := { size := 100, byte := stack }
  x := 1#8
  NMI_LINT := lint

end walk_madt

def walk_madt (fuel : Nat) (madt : MADT) (stack : Nat → UInt8) (lint : UInt8) : Option UInt8 :=
  (walk_madt.loop madt fuel (walk_madt.start stack lint)).map walk_madt.State.NMI_LINT

end Acpi
end Franklin
