import Franklin.Lib.Block
import Franklin.Lib.Wp
import Franklin.Fs.Basic

/-!
This module contains the contents of files in `fs/ramfs/ramfs.c` and `fs/vfs.c`. `off_t` and `size_t` have 64
bits, and what is computed from both is unsigned.
-/

namespace Franklin
namespace Fs

inductive Data where
  | null
  | wild
  | block (b : Block)

namespace Data

def mem : Data → Block
  | block b => b
  | _ => { size := 0, byte := fun _ => 0 }

def store (b : Block) : Data → Data
  | block _ => block b
  | data => data

def string (data : Data) : List UInt8 :=
  ((List.range data.mem.size).map data.mem.byte).takeWhile (· ≠ 0)

end Data

/--
A vnode with its ramnode. `data` and `size` are the words of the union that `reg` names: the first one is
`lnk.link` of a symbolic link, and both are not written for a device.
-/
structure File where
  type : VType
  lock : Bool
  ramlock : Bool
  data : Data
  size : BitVec 64

abbrev FileProg := EStateM Stop File

/--
The `int` that `vfs_read` and `vfs_write` return: a negative error or a number of bytes.
-/
abbrev Ret := Except Errno Int

namespace File

/--
A new file, where `size` is what the memory has been before.
-/
def new (type : VType) (link : List UInt8) (size : BitVec 64) : File :=
  match type with
  | .VLNK =>
    let name := link ++ [0]
    { type, lock := false, ramlock := false, size,
      data := .block { size := name.length, byte := fun i => name.getD i 0 } }
  | .VREG => { type, lock := false, ramlock := false, data := .null, size := 0 }
  | _ => { type, lock := false, ramlock := false, data := .wild, size }

def read : FileProg File :=
  fun file => .ok file file

def update (f : File → File) : FileProg Unit :=
  fun file => .ok () (f file)

def acquire : FileProg Unit := do
  let file ← read
  if file.lock then throw .hang else update fun file => { file with lock := true }

def release : FileProg Unit :=
  update fun file => { file with lock := false }

def acquireNode : FileProg Unit := do
  let file ← read
  if file.ramlock then throw .hang else update fun file => { file with ramlock := true }

def releaseNode : FileProg Unit :=
  update fun file => { file with ramlock := false }

def memcpy (dest : Block) (i : Int) (src : Block) (j : Int) (n : Nat) : FileProg Block :=
  match dest.copy i src j n with
  | some b => pure b
  | none => throw .fault

/--
The block is not used any more. `NULL` is not given back.
-/
def kfree : Data → FileProg Unit
  | .wild => throw .fault
  | _ => pure ()

end File

/--
The loop that doubles `newsize` as long as `stop` is not below it.
-/
def ramfs_write.grow : Nat → BitVec 64 → BitVec 64 → Option (BitVec 64)
  | 0, _, _ => none
  | fuel + 1, stop, newsize => if newsize ≤ stop then grow fuel stop (newsize * 2) else some newsize

/--
The file gets a larger buffer, `junk` is what the memory from `kalloc` has been before.
-/
def ramfs_write.enlarge (fuel : Nat) (junk : Nat → UInt8) (stop : BitVec 64) : FileProg Unit := do
  let node ← File.read
  match grow fuel stop (node.size + 1) with
  | none => throw .fuel
  | some newsize =>
    let newdata ← File.memcpy { size := newsize.toNat, byte := junk } 0 node.data.mem 0 node.size.toNat
    File.kfree node.data
    File.update fun node => { node with data := .block newdata, size := newsize }

def ramfs_write (fuel : Nat) (junk : Nat → UInt8) (buf : Block) (offset count : BitVec 64) : FileProg Ret := do
  File.acquireNode
  let node ← File.read
  if node.size ≤ offset + count then
    ramfs_write.enlarge fuel junk (offset + count)
  else
    pure ()
  let node ← File.read
  let data ← File.memcpy node.data.mem offset.toInt buf 0 count.toNat
  File.update fun node => { node with data := node.data.store data }
  File.releaseNode
  pure (.ok 0)

def ramfs_read (buf : Block) (offset count : BitVec 64) : FileProg (Ret × Block) := do
  File.acquireNode
  let node ← File.read
  if node.size < offset + count then
    File.releaseNode
    pure (.error .EINVAL, buf)
  else
    match node.data with
    | .null =>
      File.releaseNode
      pure (.ok 0, buf)
    | _ =>
      let buf ← File.memcpy buf 0 node.data.mem offset.toInt count.toNat
      File.releaseNode
      pure (.ok (count.setWidth 32).toInt, buf)

def vfs_read (buf : Block) (offset count : BitVec 64) : FileProg (Ret × Block) := do
  File.acquire
  let vn ← File.read
  if vn.type = .VDIR then
    File.release
    pure (.error .EISDIR, buf)
  else
    let r ← ramfs_read buf offset count
    File.release
    pure r

def vfs_write (fuel : Nat) (junk : Nat → UInt8) (buf : Block) (offset count : BitVec 64) : FileProg Ret := do
  File.acquire
  let vn ← File.read
  if vn.type = .VDIR then
    File.release
    pure (.error .EISDIR)
  else
    let r ← ramfs_write fuel junk buf offset count
    File.release
    pure r

end Fs
end Franklin
