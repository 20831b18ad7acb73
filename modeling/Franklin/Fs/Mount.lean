import Franklin.Fs.Calls
import Franklin.Lib.SList

/-!
This module contains the table of mounted file systems, which `vfs.c` keeps as the list `mountedlist` and
as pointers between a file system and the vnode that it covers.
-/

namespace Franklin
namespace Fs

/--
The root file system, or one that its mountpoint refers back to.
-/
def Mounted (s : St) (v : Nat) : Prop :=
  s.rootfs = some v ∨
    ∃ mp, (s.vfss v).mountpoint = .ref mp ∧ (s.vnodes mp).freed = false ∧
      (s.vnodes mp).mountedhere = some v

def vfsAddr : Option Nat → Nat
  | none => 0
  | some v => v + 1

def St.vfsNext (s : St) (p : Nat) : Nat :=
  vfsAddr (s.vfss (p - 1)).next

/--
The list that starts at `mountedlist` has every mounted file system once and no other one.
-/
def MountTable (s : St) : Prop :=
  ∃ vs : List Nat, SList s.vfsNext (vfsAddr s.mountedlist) (vs.map (· + 1)) ∧ vs.Nodup ∧
    ∀ v, v ∈ vs ↔ Mounted s v

/--
The list of ramnodes that starts at a pointer comes by the ramnode.
-/
inductive Follows (s : St) : Ptr → Nat → Prop where
  | here (n : Nat) : Follows s (.ref n) n
  | next {n m : Nat} (h : Follows s (s.nodes n).next m) : Follows s (.ref n) m

/--
The ramnode is on the list of all nodes of the file system.
-/
def Listed (s : St) (v n : Nat) : Prop :=
  Follows s (s.vfss v).nodes n

/--
No vnode in use is in the file system or stands for a ramnode on its list, and no dentry leads from its
list to another one or back.
-/
structure Unused (s : St) (v : Nat) : Prop where
  vnode : ∀ w, w < s.nextVnode → (s.vnodes w).freed = false →
    (s.vnodes w).vfs ≠ v ∧ ¬ Listed s v (s.vnodes w).data
  dentry : ∀ d, ∀ de ∈ (s.nodes d).dentry, Listed s v d ↔ Listed s v de.node

/--
The calls with those that only the kernel makes when it boots: `vfs_mount` with `NULL` for the mountpoint
and `init_rootvn`.
-/
inductive KCall where
  | vfs_mount_root (fstype : Name)
  | init_rootvn
  | call (call : Call)

namespace KCall

def run (fuel : Nat) : KCall → Prog (Code × Option Nat)
  | vfs_mount_root fstype => do
    let error ← Fs.vfs_mount none fstype fuel
    pure (error, none)
  | init_rootvn => do
    Fs.init_rootvn
    pure (none, none)
  | call c => c.run fuel

/--
The states that calls lead to from the memory before anything is mounted. `Cond` holds before every
call. Between two calls the memory that the next one finds unwritten may change.
-/
inductive Reached (Cond : St → Nat → KCall → Prop) (junk : Junk) : St → Prop where
  | empty : Reached Cond junk (.empty junk)
  | memory {s : St} (h : Reached Cond junk s) (junk' : Junk) : Reached Cond junk { s with junk := junk' }
  | step {s s' : St} {fuel : Nat} {call : KCall} {r : Code × Option Nat} (h : Reached Cond junk s)
    (hcond : Cond s fuel call) (hrun : call.run fuel s = .ok r s') : Reached Cond junk s'

/--
`vfs_unmount` of the path passes its checks: the path leads to the root of a file system other than the
root file system.
-/
def Unmounts (st : St) (fuel : Nat) (name : Name) : Prop :=
  ∃ e V, resolve st name fuel = some e ∧ e.vn = some V ∧ V.vroot st = true ∧
    (st.vfss (V.vfs st)).rootfs = false

/--
The call takes no file system away: it is no `vfs_unmount` that passes its checks, and no second mount of
a root file system.
-/
def Lasting (st : St) (fuel : Nat) : KCall → Prop
  | vfs_mount_root fstype => strcmp ['r', 'a', 'm', 'f', 's'] fstype = 0 → st.rootfs = none
  | call (.vfs_unmount name) => ¬ Unmounts st fuel name
  | _ => True

/--
A `vfs_unmount` that passes its checks takes away a file system that is not in use: the only vnode of it is
the one for the root directory that the walk of the path makes.
-/
def Orderly (st : St) (fuel : Nat) : KCall → Prop
  | call (.vfs_unmount name) => ∀ e V, resolve st name fuel = some e → e.vn = some V →
    V.vroot st = true → (st.vfss (V.vfs st)).rootfs = false →
    Unused st (V.vfs st) ∧ e.vdir.vfs st ≠ V.vfs st ∧ ¬ Listed st (V.vfs st) (e.vdir.node st)
  | _ => True

variable {C : St → Nat → KCall → Prop} {junk : Junk} {s : St}

theorem Reached.after {fuel : Nat} {call : KCall} (h : Reached C junk s) (hcond : C s fuel call)
    (hret : returns (call.run fuel) s = true) : Reached C junk (Fs.after (call.run fuel) s) := by
  rcases ok_of_returns hret with ⟨r, hrun⟩
  exact Reached.step h hcond hrun

end KCall

end Fs
end Franklin
