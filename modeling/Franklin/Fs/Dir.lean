import Franklin.Fs.Ramfs

/-!
This module contains the directory of a ramnode in `fs/ramfs/ramfs.c` with the numbers of its dentries as the machine
has them, and sequences of `ramfs_dir_attach` and `ramfs_dir_detach`.
-/

namespace Franklin
namespace Fs

structure Dentry where
  addr : Nat
  name : Name
  node : Nat
  seq : BitVec 64
  deriving DecidableEq, Repr

/--
The fields of `dir` in `struct ramnode`, `dentry` is the list that begins with the dentry it points to.
-/
structure Dir where
  dentry : List Dentry
  lastseq : BitVec 64
  deriving DecidableEq, Repr

namespace Dir

def new : Dir where
  dentry := []
  lastseq := BitVec.ofNat 64 SEQ_START

def ramfs_dir_attach (dir : Dir) (de : Dentry) : Dir where
  dentry := { de with seq := dir.lastseq } :: dir.dentry
  lastseq := dir.lastseq + 1#64

/--
There is no result if the dentry is not in the list.
-/
def ramfs_dir_detach.remove (addr : Nat) : List Dentry → Option (List Dentry)
  | [] => none
  | de :: entries => if de.addr = addr then some entries else (remove addr entries).map (de :: ·)

def ramfs_dir_detach (dir : Dir) (addr : Nat) : Option Dir :=
  (ramfs_dir_detach.remove addr dir.dentry).map fun dentry => { dir with dentry }

inductive Op where
  | attach (de : Dentry)
  | detach (addr : Nat)
  deriving DecidableEq, Repr

/--
A dentry that is attached comes from `kalloc`, and no other one in the list is at its address.
-/
def run : Dir → List Op → Option Dir
  | dir, [] => some dir
  | dir, .attach de :: ops => if ∀ e ∈ dir.dentry, e.addr ≠ de.addr then run (dir.ramfs_dir_attach de) ops else none
  | dir, .detach addr :: ops => (dir.ramfs_dir_detach addr).bind fun dir => run dir ops

def attaches : List Op → Nat
  | [] => 0
  | .attach _ :: ops => attaches ops + 1
  | .detach _ :: ops => attaches ops

end Dir

def Dentry.ram (de : Dentry) : RamDentry where
  name := de.name
  node := de.node
  seq := de.seq.toNat

/--
The directory is the one of the ramnode, and its list of dentries is terminated.
-/
structure Dir.Of (dir : Dir) (node : RamNode) : Prop where
  dentry : node.dentry = dir.dentry.map Dentry.ram
  lastseq : node.lastseq = dir.lastseq.toNat
  wild : node.wild = false

end Fs
end Franklin
