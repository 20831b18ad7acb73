import Franklin.Fs.File
import Franklin.Fs.Vfs
import Franklin.Lib.Cstring
import Franklin.Vmm.Basic

/-!
This module contains the archive of `fs/ramfs/initramfs.c` that is copied to the file system. `file` is the memory
from a header on, and `mem` the whole memory.
-/

namespace Franklin
namespace Fs

open Vmm (Addr ALIGN_UP)

/--
The `int` that the character is converted to, minus the one of `'0'`.
-/
def oct2int.digit (c : UInt8) : BitVec 64 :=
  c.toBitVec.signExtend 64 - 48#64

/--
The loop goes on at the character `i`. It ends without `len` as well, whatever the next character is.
-/
def oct2int.loop (oct : Nat → UInt8) (val : BitVec 64) (i : Nat) : Nat → BitVec 64
  | 0 => val
  | len + 1 => if oct i = 0 then val else loop oct (val * 8#64 + digit (oct i)) (i + 1) len

def oct2int (oct : Nat → UInt8) (len : Nat) : BitVec 64 :=
  oct2int.loop oct 0#64 0 len

-- `struct tar`
namespace tar

/--
A member of the structure that consists of `n` characters from an offset on.
-/
def chars (file : Nat → UInt8) (offset n : Nat) : Name :=
  (List.range n).map fun k => Char.ofNat (file (offset + k)).toNat

def magic (file : Nat → UInt8) : Name :=
  chars file 257 6

def size (file : Nat → UInt8) (k : Nat) : UInt8 :=
  file (124 + k)

def sizeofSize : Nat := 12

def type (file : Nat → UInt8) : UInt8 :=
  file 156

end tar

def TAR_HEADER_SIZE : BitVec 64 := 512#64

def TAR_FILETYPE_REG : UInt8 := 48

namespace initramfs

/--
`name` is a buffer of 100 bytes on the stack, and `file` the memory from the header of the member on, which begins
with its name.
-/
def name (fuel : Nat) (stack file : Nat → UInt8) : Option Block := do
  let name ← ({ size := 100, byte := stack } : Block).set 0 '/'.toUInt8
  strcpy fuel name 1 file

def found (file : Nat → UInt8) : Prop :=
  strncmp (tar.magic file) "ustar".toList 5 = 0

instance (file : Nat → UInt8) : Decidable (found file) := by
  unfold found
  infer_instance

def size (file : Nat → UInt8) : BitVec 64 :=
  oct2int (tar.size file) tar.sizeofSize

def step (file : Nat → UInt8) : BitVec 64 :=
  TAR_HEADER_SIZE + ALIGN_UP (size file) TAR_HEADER_SIZE

def view (mem : Addr → UInt8) (a : Addr) (k : Nat) : UInt8 :=
  mem (a + BitVec.ofNat 64 k)

/--
The loop over the members of the archive, `member` is its body up to the assignment to `file`.
-/
def loop {σ : Type} (member : Addr → EStateM Stop σ Unit) (mem : Addr → UInt8) : Nat → Addr → EStateM Stop σ Unit
  | 0, _ => throw .fuel
  | fuel + 1, file =>
    if found (view mem file) then do
      member file
      loop member mem fuel (file + step (view mem file))
    else
      pure ()

/--
`file v` is the vnode `v` with its contents, and `vn` the local variable.
-/
structure State where
  fs : St
  file : Nat → File
  vn : Ptr

abbrev Prog := EStateM Stop State

def vfs_create (name : Name) (fuel : Nat) : Prog Unit := fun s =>
  match Fs.vfs_create name .VREG fuel s.fs with
  | .ok (_, some v) fs => .ok () { fs, file := Function.update s.file v (File.new .VREG [] 0), vn := .ref v }
  -- The result is not looked at, `vn` is what it was.
  | .ok (_, none) fs => .ok () { s with fs }
  | .error e fs => .error e { s with fs }

def vfs_write (fuel : Nat) (junk : Nat → UInt8) (buf : Block) (count : BitVec 64) : Prog Unit := fun s =>
  match s.vn with
  | .ref v =>
    if (s.fs.vnodes v).freed then
      .error .fault s
    else
      match Fs.vfs_write fuel junk buf 0#64 count (s.file v) with
      | .ok _ file => .ok () { s with file := Function.update s.file v file }
      | .error e file => .error e { s with file := Function.update s.file v file }
  | _ => .error .fault s

def vfs_close : Prog Unit := fun s =>
  match s.vn with
  | .ref v =>
    match Fs.vfs_close v s.fs with
    | .ok _ fs => .ok () { s with fs }
    | .error e fs => .error e { s with fs }
  | _ => .error .fault s

def path (b : Block) : Name :=
  (tar.chars b.byte 0 b.size).takeWhile fun c => c ≠ Char.ofNat 0

/--
`case TAR_FILETYPE_REG`, `junk` is what the memory from `kalloc` has been before.
-/
def regular (fuel : Nat) (junk : Nat → UInt8) (mem : Addr → UInt8) (file : Addr) (name : Name) : Prog Unit := do
  vfs_create name fuel
  let s ← get
  if s.vn = .null then
    throw (.panic "initramfs: file create")
  else
    let size := size (view mem file)
    vfs_write fuel junk { size := size.toNat, byte := view mem (file + TAR_HEADER_SIZE) } size

def member (fuel : Nat) (stack junk : Nat → UInt8) (mem : Addr → UInt8) (file : Addr) : Prog Unit := do
  match name fuel stack (view mem file) with
  | none => throw .fault
  | some b =>
    if tar.type (view mem file) = TAR_FILETYPE_REG then
      regular fuel junk mem file (path b)
    vfs_close

end initramfs

/--
`struct limine_file`, a module that the bootloader has put in the memory.
-/
structure LimineFile where
  address : Addr
  size : BitVec 64
  -- The module ends inside the address space.
  end_le : address.toNat + size.toNat ≤ 2 ^ 64

def initramfs (fuel : Nat) (stack junk : Nat → UInt8) (mem : Addr → UInt8) (module : Option LimineFile)
    : initramfs.Prog Unit :=
  match module with
  | none => throw (.panic "initramfs: module")
  | some module => initramfs.loop (initramfs.member fuel stack junk mem) mem fuel module.address

end Fs
end Franklin
