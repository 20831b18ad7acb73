import Franklin.Lib.Wp
import Mathlib.Algebra.Group.Int.Defs
import Mathlib.Logic.Function.Basic

/-!
This module contains the data of `fs/vfs.c` and `fs/ramfs/ramfs.c` and the accesses to it. An object is
represented by a number that is never given to another object of its kind, so a pointer to an object that
was freed is not equal to one to what `kalloc` puts there next. A call that follows such a pointer, or one
that was never written, stops with a fault: what it would do then is up to the contents of other objects.
-/

namespace Franklin
namespace Fs

abbrev Name := List Char

inductive VType where
  | VNON
  | VREG
  | VDIR
  | VLNK
  | VSOCK
  | VBLK
  | VCHR
  deriving DecidableEq, Repr

inductive Errno where
  | ENOENT
  | EBUSY
  | EEXIST
  | ENOTDIR
  | EISDIR
  | EINVAL
  | ENOTEMPTY
  deriving DecidableEq, Repr

/--
The `int` that a function returns: `none` is `0` and `some e` is `-e`.
-/
abbrev Code := Option Errno

inductive Ptr where
  | null
  | ref (id : Nat)
  | wild
  deriving DecidableEq, Repr

/--
`struct vnode`. `vroot` is the flag `VROOT` and `data` the ramnode.
-/
structure Vnode where
  vfs : Nat
  mountedhere : Option Nat
  type : VType
  refcount : Int
  vroot : Bool
  lock : Bool
  data : Nat
  freed : Bool
  deriving DecidableEq, Repr

structure RamDentry where
  name : Name
  node : Nat
  seq : Nat
  deriving DecidableEq, Repr

/--
`struct ramnode`. The list of the dentries of a directory ends in a pointer that was never initialised
if `wild` is set.
-/
structure RamNode where
  prev : Ptr
  next : Ptr
  vnode : Option Nat
  type : VType
  ramlock : Bool
  linkcount : Int
  dentry : List RamDentry
  wild : Bool
  parent : Nat
  lastseq : Nat
  link : Name
  freed : Bool
  deriving DecidableEq, Repr

/--
`struct vfs` with its `struct ramvfs`. `rootfs` is the flag `MNT_ROOTFS`.
-/
structure Vfs where
  next : Option Nat
  mountpoint : Ptr
  rootfs : Bool
  root : Nat
  nodes : Ptr
  deriving DecidableEq, Repr

/--
What a call reads without having written it: `follow` is the flag `FOLLOW` of its `struct nameidata`,
`vroot n` the flag `VROOT` in the memory that `kalloc` returns for a new vnode of the ramnode `n`, and
`dentry n`, `prev n`, `nodes v` and `rootfs v` tell whether these pointers and flags are set in the memory
for the new ramnode `n` or the new file system `v`. `relinked` tells whether `kfree` writes to the blocks
it is given, and `dtype` is the field `type` of the `struct dirent` on the stack of `ramfs_readdir`.
-/
structure Junk where
  follow : Bool
  vroot : Nat → Bool
  dentry : Nat → Bool
  prev : Nat → Bool
  nodes : Nat → Bool
  rootfs : Nat → Bool
  relinked : Bool
  dtype : Nat

structure St where
  vnodes : Nat → Vnode
  nodes : Nat → RamNode
  vfss : Nat → Vfs
  nextVnode : Nat
  nextNode : Nat
  nextVfs : Nat
  rootfs : Option Nat
  rootvn : Option Nat
  mountedlist : Option Nat
  vfslistLock : Bool
  junk : Junk

/--
Why a call does not return: `fault` is an access through a pointer that is NULL, wild or refers to
something freed, or behind the end of a buffer, `hang` waits for a lock that the call holds itself and
`fuel` is a loop that has not ended yet.
-/
inductive Stop where
  | panic (msg : String)
  | fault
  | hang
  | fuel
  deriving DecidableEq, Repr

abbrev Prog := EStateM Stop St

/-!
The functions of `kernel/string.c` on strings. `strlen` reads behind the end of an empty string, so its
callers copy garbage behind the terminator, but the copy is still an empty string.
-/

def strcmp (s s2 : Name) : Int :=
  if s = s2 then 0 else -1

def strncmp (s s2 : Name) : Nat → Int
  | 0 => 0
  | n + 1 => if s.head? ≠ s2.head? then -1 else strncmp s.tail s2.tail n

def strldup (s : Name) (len : Nat) : Name :=
  s.take len

def getSt : Prog St :=
  fun st => .ok st st

def setVnode (v : Nat) (f : Vnode → Vnode) : Prog Unit :=
  fun st => .ok () { st with vnodes := Function.update st.vnodes v (f (st.vnodes v)) }

def setNode (n : Nat) (f : RamNode → RamNode) : Prog Unit :=
  fun st => .ok () { st with nodes := Function.update st.nodes n (f (st.nodes n)) }

def setVfs (vfs : Nat) (f : Vfs → Vfs) : Prog Unit :=
  fun st => .ok () { st with vfss := Function.update st.vfss vfs (f (st.vfss vfs)) }

def getVnode (v : Nat) : Prog Vnode :=
  fun st => if (st.vnodes v).freed then .error .fault st else .ok (st.vnodes v) st

def getNode (n : Nat) : Prog RamNode :=
  fun st => .ok (st.nodes n) st

def getVfs (vfs : Nat) : Prog Vfs :=
  fun st => .ok (st.vfss vfs) st

/--
The access to a ramnode through a pointer that may be older than the ramnode's end.
-/
def deref (n : Nat) : Prog Unit := do
  let node ← getNode n
  if node.freed then throw .fault else pure ()

/--
`acquire(&vn->lock)`, with only one thread a lock that is held is never released.
-/
def acquire (v : Nat) : Prog Unit := do
  let vn ← getVnode v
  if vn.lock then
    throw .hang
  else
    setVnode v fun vn => { vn with lock := true }

def release (v : Nat) : Prog Unit := do
  let _ ← getVnode v
  setVnode v fun vn => { vn with lock := false }

def acquireNode (n : Nat) : Prog Unit := do
  let node ← getNode n
  if node.ramlock then
    throw .hang
  else
    setNode n fun node => { node with ramlock := true }

def releaseNode (n : Nat) : Prog Unit :=
  setNode n fun node => { node with ramlock := false }

def vref_locked (v : Nat) : Prog Unit := do
  let vn ← getVnode v
  if vn.refcount = 2 ^ 31 - 1 then
    throw .fault
  else
    setVnode v fun vn => { vn with refcount := vn.refcount + 1 }

def vref (v : Nat) : Prog Unit := do
  acquire v
  vref_locked v
  release v

end Fs
end Franklin
