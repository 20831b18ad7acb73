import Franklin.Fs.Vfs

/-!
This module contains the listing of directories in `fs/ramfs/ramfs.c` and `fs/vfs.c`. `pos` is the offset of
`name` in `struct dirent`, which depends on the type `ino_t` of the compiler.
-/

namespace Franklin
namespace Fs

def SEQ_DOT : Nat := 0
def SEQ_DOTDOT : Nat := 1
def SEQ_EOF : Nat := 2

def DT_CHR : Nat := 2
def DT_DIR : Nat := 4
def DT_BLK : Nat := 6
def DT_LNK : Nat := 10
def DT_SOCK : Nat := 12

structure Dirent where
  ino : Nat
  reclen : Nat
  type : Nat
  name : Name
  deriving DecidableEq, Repr

def get_reclen (pos : Nat) (name : Name) : Nat :=
  (pos + name.length + 1) % 2 ^ 16

/--
`name` is copied to a buffer of 256 characters, and `strlen` reads behind the end of an empty string.
-/
def ramfs_make_dirent (pos n type : Nat) (name : Name) : Prog Dirent :=
  if name = [] ∨ 256 ≤ name.length then
    throw .fault
  else
    pure { ino := n, reclen := get_reclen pos name, type, name }

/--
The records that `ramfs_readdir` has written to the buffer, with the space that is left in it.
-/
structure Listing where
  resid : BitVec 64
  offset : Nat
  records : List Dirent
  deriving DecidableEq, Repr

namespace Listing

def write (r : Listing) (d : Dirent) (offset : Nat) : Listing :=
  { resid := r.resid - BitVec.ofNat 64 d.reclen, offset, records := r.records ++ [d] }

end Listing

namespace ramfs_readdir

/--
The case of `VREG` falls through to the one of `VDIR`.
-/
def dtype : VType → Option Nat
  | .VBLK => some DT_BLK
  | .VREG => some DT_DIR
  | .VDIR => some DT_DIR
  | .VSOCK => some DT_SOCK
  | .VLNK => some DT_LNK
  | .VCHR => some DT_CHR
  | .VNON => none

/--
The first entry of a directory, or `none` at the end of the list.
-/
def first (node : RamNode) (entries : List RamDentry) : Prog (Option RamDentry) :=
  match entries with
  | de :: _ => pure (some de)
  | [] => if node.wild then throw .fault else pure none

/--
The loop over the entries, which only ends early if exactly nothing is left of the buffer.
-/
def loop (pos : Nat) (parent : RamNode) : List RamDentry → Listing → Prog Listing
  | [], r => do
    let _ ← first parent []
    pure r
  | de :: entries, r => do
    let d ← ramfs_make_dirent pos de.node 0 de.name
    let node ← getNode de.node
    match dtype node.type with
    | none => throw (.panic "ramfs_readdir: unknown type")
    | some type =>
      let r := r.write { d with type } de.seq
      if r.resid = 0 then pure r else loop pos parent entries r

/--
The entries `.` and `..`, for which the `type` of the record is never written.
-/
def dots (pos n : Nat) (parent : RamNode) (r : Listing) : Prog Listing := do
  let st ← getSt
  let r ←
    if r.offset = SEQ_DOT then do
      let d ← ramfs_make_dirent pos n st.junk.dtype ['.']
      pure (r.write d SEQ_DOTDOT)
    else
      pure r
  if r.offset = SEQ_DOTDOT then
    let d ← ramfs_make_dirent pos parent.parent st.junk.dtype ['.', '.']
    let de ← first parent parent.dentry
    pure (r.write d (de.elim SEQ_EOF (·.seq)))
  else
    pure r

end ramfs_readdir

def ramfs_readdir (pos vdir : Nat) (count : BitVec 64) (offset : Nat) : Prog (Code × Listing) := do
  let vd ← getVnode vdir
  acquireNode vd.data
  let parent ← getNode vd.data
  let r ← ramfs_readdir.dots pos vd.data parent { resid := count, offset, records := [] }
  if r.offset = SEQ_EOF then
    releaseNode vd.data
    pure (none, r)
  else
    let entries := parent.dentry.dropWhile (·.seq ≠ r.offset)
    match ← ramfs_readdir.first parent entries with
    | none =>
      releaseNode vd.data
      pure (some .EINVAL, r)
    | some _ =>
      let r ← ramfs_readdir.loop pos parent entries r
      releaseNode vd.data
      pure (none, r)

/--
The number of bytes that were written is computed from what is left of the buffer, and the error of
`ramfs_readdir` is lost.
-/
def vfs_readdir (pos vdir : Nat) (nbytes : BitVec 64) (offset : Nat)
    : Prog (Code × BitVec 64 × Listing) := do
  acquire vdir
  let vd ← getVnode vdir
  if vd.type ≠ .VDIR then
    release vdir
    pure (some .EINVAL, 0, { resid := nbytes, offset, records := [] })
  else
    let (_, r) ← ramfs_readdir pos vdir nbytes offset
    release vdir
    pure (none, nbytes - r.resid, r)

end Fs
end Franklin
