import Franklin.Fs.Update

/-!
This module contains the operations on one mounted file system with the vnodes that the calls of `vfs.c`
give them.
-/

namespace Franklin
namespace Fs

inductive Op where
  | root
  | lookup (vdir : Nat) (name : Name) (len : Nat)
  | close (v : Nat)
  | create (vdir : Nat) (name : Name) (len : Nat) (type : VType)
  | mkdir (vdir : Nat) (name : Name) (len : Nat)
  | symlink (vdir : Nat) (target name : Name) (len : Nat)
  | link (vdir vn : Nat) (name : Name)
  | remove (vdir vn : Nat) (name : Name)
  | rmdir (vdir vn : Nat) (name : Name) (len : Nat)

def Op.run : Op → Prog Code
  | root => do
    let _ ← ramfs_root 0
    pure none
  | lookup vdir name len => do
    let (error, _) ← ramfs_lookup vdir none name len
    pure error
  | close v => do
    vfs_close v
    pure none
  | create vdir name len type => do
    let (error, _) ← ramfs_create vdir name len type
    pure error
  | mkdir vdir name len => do
    let (error, _) ← ramfs_mkdir vdir name len
    pure error
  | symlink vdir target name len => ramfs_symlink vdir target name len
  | link vdir vn name => ramfs_link vdir vn name
  | remove vdir vn name => ramfs_remove vdir vn name
  | rmdir vdir vn name len => ramfs_rmdir vdir vn name len

def HasDentry (s : St) (n : Nat) : Prop :=
  ∃ m, ∃ de ∈ (s.nodes m).dentry, de.node = n

/--
The vnode is in use and stands for a file of the current tree.
-/
def InTree (s : St) (v : Nat) : Prop :=
  v < s.nextVnode ∧ (s.vnodes v).freed = false ∧
    ((s.vnodes v).data = (s.vfss 0).root ∨ HasDentry s (s.vnodes v).data)

/--
`ramfs_lookup` finds `vn`, which is already in use, as a component of a path.
-/
def Finds (s : St) (vdir : Nat) (name : Name) (len vn : Nat) : Prop :=
  len = compLen name ∧ vn < s.nextVnode ∧
    ∃ s', ramfs_lookup vdir none name len s = .ok (none, some vn) s'

/--
What the calls of `vfs.c` make sure of before an operation.
-/
def Op.Allowed (s : St) : Op → Prop
  | root => True
  | lookup vdir _ _ => InTree s vdir
  | close v => v < s.nextVnode ∧ (s.vnodes v).freed = false
  | create vdir _ _ _ => InTree s vdir
  | mkdir vdir _ _ => InTree s vdir
  | symlink vdir _ _ _ => InTree s vdir
  | link vdir vn _ => InTree s vdir ∧ InTree s vn ∧ (s.vnodes vdir).type = .VDIR ∧
    (s.vnodes vn).type ≠ .VDIR
  | remove vdir vn _ => InTree s vdir ∧ InTree s vn
  | rmdir vdir vn name len => InTree s vdir ∧ Finds s vdir name len vn ∧ vn ≠ vdir ∧
    (s.vnodes vn).type = .VDIR

/--
The states that operations lead to after the boot, where `Cond` holds before every operation.
-/
inductive Op.Reached (Cond : St → Op → Prop) (junk : Junk) : St → Prop where
  | boot {s : St} (h : boot (.empty junk) = .ok () s) : Reached Cond junk s
  | step {s s' : St} {op : Op} {error : Code} (h : Reached Cond junk s) (hop : op.Allowed s)
    (hcond : Cond s op) (hrun : op.run s = .ok error s') : Reached Cond junk s'

def Op.Any (_ : St) (_ : Op) : Prop := True

/--
The number of dentries in the whole file system that refer to a ramnode.
-/
def St.links (s : St) (n : Nat) : Nat :=
  ∑ m ∈ Finset.range s.nextNode, (s.nodes m).dentry.countP fun de => de.node = n

end Fs
end Franklin
