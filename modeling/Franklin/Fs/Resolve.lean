import Franklin.Fs.Vfs

/-!
This module contains the path walk without its references and locks, as a function of the state in which
it starts.
-/

namespace Franklin
namespace Fs

/--
A vnode that a walk comes by: one that was there before the walk, or one that the walk makes for a
ramnode.
-/
inductive Loc where
  | old (v : Nat)
  | new (vfs n : Nat)
  deriving DecidableEq, Repr

namespace Loc

def node (st : St) : Loc → Nat
  | old v => (st.vnodes v).data
  | new _ n => n

def type (st : St) : Loc → VType
  | old v => (st.vnodes v).type
  | new _ n => (st.nodes n).type

def vfs (st : St) : Loc → Nat
  | old v => (st.vnodes v).vfs
  | new vfs _ => vfs

def vroot (st : St) : Loc → Bool
  | old v => (st.vnodes v).vroot
  | new _ n => st.junk.vroot n || decide ((st.nodes n).type = .VDIR ∧ (st.nodes n).parent = n)

def mountedhere (st : St) : Loc → Option Nat
  | old v => (st.vnodes v).mountedhere
  | new _ _ => none

/--
The vnode of the ramnode `n`, which may be one that the walk has made for it before.
-/
def get (st : St) (held : List Loc) (vfs n : Nat) : Loc :=
  match (st.nodes n).vnode with
  | some v => .old v
  | none =>
    match held.find? fun L => match L with | new _ m => m = n | old _ => false with
    | some L => L
    | none => .new vfs n

end Loc

/--
How a walk ends: `found` at its last component, `here` at an empty path, `tail` at an empty component
behind the directory `vn`, whose parent `vdir` was given back before, and `link` at a symbolic link with
the path `next` behind it.
-/
inductive Exit where
  | found (vdir vn : Loc)
  | here (vdir : Loc)
  | tail (vdir vn : Loc)
  | link (vdir vn : Loc) (next : Name)
  | missing (vdir : Loc) (name : Name) (len : Nat)
  | notdir (vdir : Loc)
  deriving DecidableEq, Repr

def Exit.error : Exit → Code
  | found _ _ => none
  | here _ => none
  | tail _ _ => none
  | link _ _ _ => none
  | missing _ _ _ => some .ENOENT
  | notdir _ => some .ENOTDIR

def Exit.vn : Exit → Option Loc
  | found _ vn => some vn
  | here vdir => some vdir
  | tail vdir _ => some vdir
  | link _ vn _ => some vn
  | missing _ _ _ => none
  | notdir _ => none

def Exit.vdir : Exit → Loc
  | found vdir _ => vdir
  | here vdir => vdir
  | tail vdir _ => vdir
  | link vdir _ _ => vdir
  | missing vdir _ _ => vdir
  | notdir vdir => vdir

def Loc.isRootvn (st : St) : Loc → Bool
  | old v => st.rootvn = some v
  | new _ _ => false

namespace Resolve

/--
The loop for `..`: the root directory, which ignores it, or the directory in which to look it up.
-/
inductive Up where
  | root (L : Loc)
  | dir (L : Loc)
  deriving DecidableEq, Repr

def up (st : St) : Nat → Loc → Option Up
  | 0, _ => none
  | fuel + 1, L =>
    if L.isRootvn st then
      some (.root L)
    else if !L.vroot st then
      some (.dir L)
    else
      match (st.vfss (L.vfs st)).mountpoint with
      | .ref v => if (st.vnodes v).freed then none else up st fuel (.old v)
      | _ => none

/--
The loop for mountpoints, `held` is the directory that the walk comes from.
-/
def cross (st : St) (held : Loc) : Nat → Loc → Option Loc
  | 0, _ => none
  | fuel + 1, L =>
    match if L.type st = .VDIR then L.mountedhere st else none with
    | none => some L
    | some vfs =>
      if (st.nodes (st.vfss vfs).root).freed then
        none
      else
        cross st held fuel (Loc.get st [held] vfs (st.vfss vfs).root)

/--
`ramfs_lookup`. It waits for ever if the directory is its own entry.
-/
def look (st : St) (L : Loc) (name : Name) (len : Nat) : Option (Except Errno Loc) :=
  let node := st.nodes (L.node st)
  let get (n : Nat) : Option (Except Errno Loc) :=
    if n = L.node st ∨ (st.nodes n).freed then none else some (.ok (Loc.get st [L] (L.vfs st) n))
  if node.freed then
    none
  else if L.type st ≠ .VDIR then
    some (.error .ENOTDIR)
  else if strcmp name ['.'] = 0 then
    some (.ok L)
  else if strcmp name ['.', '.'] = 0 then
    get node.parent
  else
    match ramfs_lookup.find name len node.dentry with
    | some entry => get entry.node
    | none => if node.wild then none else some (.error .ENOENT)

/--
One round of the loop over the components. `next` has the directory that was given back, the one that
the walk has come to and the path that is left.
-/
inductive Round where
  | done (exit : Exit)
  | next (vdir vn : Loc) (name : Name)
  deriving DecidableEq, Repr

def nextname (vdir vn : Loc) (next : Name) : Round :=
  if next = [] then .done (.found vdir vn) else .next vdir vn (skipSlashes next)

def component (st : St) (L : Loc) (name : Name) : Option Round :=
  let len := compLen name
  let next := name.drop len
  match look st L name len with
  | none => none
  | some (.error .ENOTDIR) => some (.done (.notdir L))
  | some (.error _) => some (.done (.missing L name len))
  | some (.ok V) =>
    match cross st L (st.nextVfs + 1) V with
    | none => none
    | some V =>
      if V.type st = .VLNK ∧ (st.junk.follow ∨ next.head? = some '/') then
        some (.done (.link L V next))
      else
        some (nextname L V next)

/--
`prev` is the directory that the round before has given back.
-/
def round (st : St) (prev : Option Loc) (L : Loc) (name : Name) : Option Round :=
  if name = [] then
    match prev with
    | none => some (.done (.here L))
    | some (.old v) => some (.done (.tail (.old v) L))
    | some (.new vfs n) => if .new vfs n = L then some (.done (.tail L L)) else none
  else if strncmp name ['.', '.'] 2 = 0 then
    match up st (st.nextVfs + 1) L with
    | none => none
    | some (.root L) => some (nextname L L (name.drop (compLen name)))
    | some (.dir L) => component st L name
  else
    component st L name

def lookup (st : St) : Nat → Option Loc → Loc → Name → Option Exit
  | 0, _, _, _ => none
  | fuel + 1, prev, L, name =>
    match round st prev L name with
    | none => none
    | some (.done exit) => some exit
    | some (.next vdir vn name) => lookup st fuel (some vdir) vn name

def start (st : St) (name : Name) (L : Option Loc) : Option Loc :=
  if name.head? = some '/' then
    match st.rootfs with
    | none => none
    | some vfs =>
      if (st.nodes (st.vfss vfs).root).freed then none else some (Loc.get st [] vfs (st.vfss vfs).root)
  else
    L

def namei (st : St) : Nat → Name → Option Loc → Option Exit
  | 0, _, _ => none
  | fuel + 1, name, L =>
    match start st name L with
    | none => none
    | some L =>
      match lookup st ((skipSlashes name).length + 1) none L (skipSlashes name) with
      | none => none
      | some (.link vdir vn next) =>
        let link := (st.nodes (vn.node st)).link
        if namei.bufsize ≤ (link ++ next).length then
          none
        else
          namei st fuel (namei.concat link next) (some vdir)
      | some exit => some exit

end Resolve

def resolve (st : St) (name : Name) (fuel : Nat) : Option Exit :=
  Resolve.namei st fuel name none

end Fs
end Franklin
