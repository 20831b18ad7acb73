import Franklin.Fs.Lemmas.Last
import Franklin.Fs.Lemmas.Leaks

/-!
This module contains the files and directories as the callers of `vfs.c` see them, without vnodes, references, locks
and link counts, and what every call returns and changes, as a function of the state in which it starts.
-/

namespace Franklin
namespace Fs

/--
A file, of which a directory has names for other files.
-/
structure FileView where
  type : VType
  parent : Nat
  link : Name
  entries : List (Name × Nat)
  deriving DecidableEq, Repr

/--
The files with numbers below `next` are the ones that have been made.
-/
structure View where
  file : Nat → FileView
  next : Nat

def RamNode.view (node : RamNode) : FileView where
  type := node.type
  parent := node.parent
  link := node.link
  entries := node.dentry.map fun de => (de.name, de.node)

def St.view (s : St) : View where
  file n := (s.nodes n).view
  next := s.nextNode

/--
A change to the directories. `create` is for a new file and `link` for one that there is.
-/
inductive Edit where
  | create (d : Nat) (name : Name) (n : Nat) (type : VType) (link : Name)
  | link (d : Nat) (name : Name) (n : Nat)
  | remove (d : Nat) (name : Name)
  | mount (n : Nat)
  | unmount (ns : List Nat)
  deriving DecidableEq, Repr

namespace View

def add (w : View) (n : Nat) (file : FileView) : View where
  file := Function.update w.file n file
  next := n + 1

def setEntries (w : View) (d : Nat) (entries : List (Name × Nat)) : View :=
  { w with file := Function.update w.file d { w.file d with entries } }

def bind (w : View) (d : Nat) (name : Name) (n : Nat) : View :=
  w.setEntries d ((name, n) :: (w.file d).entries)

def apply (w : View) : Edit → View
  | .create d name n type link => (w.add n { type, parent := d, link, entries := [] }).bind d name n
  | .link d name n => w.bind d name n
  | .remove d name => w.setEntries d ((w.file d).entries.eraseP fun entry => entry.1 = name)
  | .mount n => w.add n { type := .VDIR, parent := n, link := [], entries := [] }
  | .unmount ns =>
    { w with
      file := fun n =>
        if n ∈ ns ∧ (w.file n).type = .VDIR then { w.file n with entries := [] } else w.file n }

def edited (w : View) : Option Edit → View
  | none => w
  | some edit => w.apply edit

end View

/--
What a call returns, with the file of the vnode that the caller is given, and what it changes.
-/
structure Outcome where
  error : Code
  file : Option Nat
  edit : Option Edit
  deriving DecidableEq, Repr

def St.chain (st : St) : Nat → Ptr → List Nat
  | fuel + 1, .ref n => n :: chain st fuel (st.nodes n).next
  | _, _ => []

namespace Outcome

def refused (error : Code) : Outcome where
  error
  file := none
  edit := none

def done (edit : Edit) : Outcome where
  error := none
  file := none
  edit := some edit

def created (st : St) (L : Loc) (name : Name) (len : Nat) (type : VType) (link : Name) : Outcome where
  error := none
  file := some st.nextNode
  edit := some (.create (L.node st) (strldup name len) st.nextNode type link)

/--
The end of `ramfs_remove` and `ramfs_rmdir`, which panic if the name in `D` is not one of `V`.
-/
def removed (st : St) (D V : Loc) (name : Name) : Option Outcome :=
  if ((st.nodes (D.node st)).dentry.find? fun de => strcmp de.name name = 0).map (·.node) = some (V.node st) then
    some (done (.remove (D.node st) name))
  else
    none

/-!
The calls behind their walk, which has ended at `e`.
-/

def vfs_open (st : St) (type : VType) (create : Bool) (e : Exit) : Option Outcome :=
  if create then
    match e with
    | .missing L name len => if type = .VLNK then none else some (created st L name len type [])
    | _ => some (refused e.error)
  else
    some { error := e.error, file := e.vn.map (Loc.node st), edit := none }

def vfs_mkdir (st : St) : Exit → Option Outcome
  | .missing L name len => some (created st L name len .VDIR [])
  | e => some (refused (some (e.error.getD .EEXIST)))

/--
The error is the one of the walk also if the link is made.
-/
def vfs_symlink (st : St) (target : Name) : Exit → Option Outcome
  | .missing L name len => some { created st L name len .VLNK target with error := some .ENOENT, file := none }
  | e => some (refused e.error)

/--
The walk to the new name ends in `s`, the file is at `V`.
-/
def vfs_link (st s : St) (V : Loc) : Exit → Option Outcome
  | .missing L name _ => some (done (.link (L.node s) name (V.node st)))
  | e => some (refused e.error)

def vfs_unlink (st : St) (name : Name) (e : Exit) : Option Outcome :=
  match e.vn with
  | none => some (refused e.error)
  | some V =>
    if V.vroot st then
      some (refused (some .EBUSY))
    else if V.type st = .VDIR then
      some (refused (some .EISDIR))
    else if e.vdir.type st ≠ .VDIR then
      some (refused (some .ENOTDIR))
    else
      removed st e.vdir V name

def vfs_rmdir (st : St) (name : Name) (e : Exit) : Option Outcome :=
  match e.vn with
  | none => some (refused e.error)
  | some V =>
    if e.vdir = V then
      some (refused (some .EINVAL))
    else if V.type st ≠ .VDIR then
      some (refused (some .ENOTDIR))
    else if V.vroot st then
      some (refused (some .EBUSY))
    else if compLen name = 2 ∧ name.take 2 = ['.', '.'] then
      some (refused (some .ENOTEMPTY))
    else if (st.nodes (V.node st)).parent ≠ e.vdir.node st then
      none
    else if (st.nodes (V.node st)).dentry ≠ [] ∨ (st.nodes (V.node st)).wild then
      some (refused (some .ENOTEMPTY))
    else
      removed st e.vdir V name

def vfs_mount (st : St) (e : Exit) : Option Outcome :=
  match e.vn with
  | none => some (refused e.error)
  | some V =>
    if V.type st ≠ .VDIR then
      some (refused (some .ENOTDIR))
    else if V.mountedhere st ≠ none then
      some (refused (some .EBUSY))
    else
      some (done (.mount st.nextNode))

def vfs_unmount (st : St) (e : Exit) : Option Outcome :=
  match e.vn with
  | none => some (refused e.error)
  | some V =>
    if !V.vroot st ∨ (st.vfss (V.vfs st)).rootfs then
      some (refused (some .EINVAL))
    else
      match (st.vfss (V.vfs st)).mountpoint with
      | .ref _ => some (done (.unmount (st.chain (st.nextNode + 1) (st.vfss (V.vfs st)).nodes)))
      | _ => none

end Outcome

/--
What a call does, there is no outcome if it does not return.
-/
def Call.outcome (st : St) (fuel : Nat) : Call → Option Outcome
  | vfs_open path type create => (resolve st path fuel).bind (Outcome.vfs_open st type create)
  | vfs_mkdir path =>
    if path = [] then some (.refused (some .EINVAL)) else (resolve st path fuel).bind (Outcome.vfs_mkdir st)
  | vfs_rmdir path => (resolve st path fuel).bind (Outcome.vfs_rmdir st (lastName st path fuel))
  | vfs_unlink path => (resolve st path fuel).bind (Outcome.vfs_unlink st (lastName st path fuel))
  | vfs_link path target =>
    (resolve st target fuel).bind fun e =>
      match e.vn with
      | none => some (.refused e.error)
      | some V =>
        if V.type st = .VDIR then
          some (.refused (some .EISDIR))
        else
          let s := after (Fs.vfs_link.find target fuel) st
          (resolve s path fuel).bind (Outcome.vfs_link st s V)
  | vfs_symlink path target => (resolve st path fuel).bind (Outcome.vfs_symlink st target)
  | vfs_mount path fstype =>
    if strcmp ['r', 'a', 'm', 'f', 's'] fstype ≠ 0 then
      some (.refused (some .ENOENT))
    else
      (resolve st.mounting path fuel).bind (Outcome.vfs_mount st)
  | vfs_unmount path => (resolve st path fuel).bind (Outcome.vfs_unmount st)
  | vfs_close _ => some (.refused none)

end Fs
end Franklin
