import Franklin.Fs.Resolve

/-!
This module contains sequences of calls of `vfs.c` by one caller.
-/

namespace Franklin
namespace Fs

inductive Call where
  | vfs_open (name : Name) (type : VType) (create : Bool)
  | vfs_mkdir (name : Name)
  | vfs_rmdir (name : Name)
  | vfs_unlink (name : Name)
  | vfs_link (name target : Name)
  | vfs_symlink (name target : Name)
  | vfs_mount (mntpoint fstype : Name)
  | vfs_unmount (name : Name)
  | vfs_close (v : Nat)
  deriving DecidableEq, Repr

namespace Call

/--
The second component of the result is the vnode that the caller is given.
-/
def run (fuel : Nat) : Call → Prog (Code × Option Nat)
  | vfs_open name type create => Fs.vfs_open name type create fuel
  | vfs_mkdir name => Fs.vfs_mkdir name fuel
  | vfs_rmdir name => do
    let error ← Fs.vfs_rmdir name fuel
    pure (error, none)
  | vfs_unlink name => do
    let error ← Fs.vfs_unlink name fuel
    pure (error, none)
  | vfs_link name target => do
    let error ← Fs.vfs_link name target fuel
    pure (error, none)
  | vfs_symlink name target => do
    let error ← Fs.vfs_symlink name target fuel
    pure (error, none)
  | vfs_mount mntpoint fstype => do
    let error ← Fs.vfs_mount (some mntpoint) fstype fuel
    pure (error, none)
  | vfs_unmount name => do
    let error ← Fs.vfs_unmount name fuel
    pure (error, none)
  | vfs_close v => do
    Fs.vfs_close v
    pure (none, none)

def Allowed (own : List Nat) : Call → Prop
  | vfs_close v => v ∈ own
  | _ => True

/--
The vnodes that the caller has after a call with the result `r`.
-/
def ledger (own : List Nat) (r : Code × Option Nat) : Call → List Nat
  | vfs_close v => own.erase v
  | _ => r.2.toList ++ own

/--
The states that calls lead to after the boot, with the vnodes that the caller has then. `Cond` holds
before every call. Between two calls the memory that the next one finds unwritten may change.
-/
inductive Reached (Cond : St → Nat → Call → Prop) (junk : Junk) : List Nat → St → Prop where
  | boot {s : St} (h : boot (.empty junk) = .ok () s) : Reached Cond junk [] s
  | memory {s : St} {own : List Nat} (h : Reached Cond junk own s) (junk' : Junk)
    : Reached Cond junk own { s with junk := junk' }
  | step {s s' : St} {own : List Nat} {fuel : Nat} {call : Call} {r : Code × Option Nat}
    (h : Reached Cond junk own s) (hcall : call.Allowed own) (hcond : Cond s fuel call)
    (hrun : call.run fuel s = .ok r s') : Reached Cond junk (call.ledger own r) s'

def Any (_ : St) (_ : Nat) (_ : Call) : Prop := True

variable {C : St → Nat → Call → Prop} {junk : Junk} {own : List Nat} {s : St}

theorem Reached.boots (hret : returns Fs.boot (.empty junk) = true)
    : Reached C junk [] (Fs.after Fs.boot (.empty junk)) := by
  rcases ok_of_returns hret with ⟨_, hrun⟩
  apply Reached.boot hrun

theorem Reached.after {fuel : Nat} {call : Call} (h : Reached C junk own s) (hcall : call.Allowed own)
    (hcond : C s fuel call) (hret : returns (call.run fuel) s = true)
    : ∃ r, Reached C junk (call.ledger own r) (after (call.run fuel) s) := by
  rcases ok_of_returns hret with ⟨r, hrun⟩
  exact ⟨r, Reached.step h hcall hcond hrun⟩

end Call

end Fs
end Franklin
