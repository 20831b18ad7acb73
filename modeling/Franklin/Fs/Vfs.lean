import Franklin.Fs.Ramfs

/-!
This module contains the path walk and the calls of `fs/vfs.c`.
-/

namespace Franklin
namespace Fs

/--
`in: lock held or not, out: lock released`. The vnode is freed with its lock held.
-/
def vfs_close (v : Nat) : Prog Unit := do
  let vn ← getVnode v
  setVnode v fun vn => { vn with lock := true, refcount := vn.refcount - 1 }
  if vn.refcount - 1 = 0 then
    ramfs_inactive vn.data
    setVnode v fun vn => { vn with freed := true }
  else
    release v

def vput (v : Nat) : Prog Unit :=
  vfs_close v

def vrele (v : Nat) : Prog Unit :=
  vput v

def vputOpt : Option Nat → Prog Unit
  | none => pure ()
  | some v => vput v

/--
`struct nameidata`. `name` and `len` are the component `cn`, where `name` is not cut at the end of the
component.
-/
structure Nameidata where
  vdir : Nat
  vn : Option Nat
  name : Name
  len : Nat
  issymlink : Bool
  deriving DecidableEq, Repr

def Nameidata.next (nd : Nameidata) : Name :=
  nd.name.drop nd.len

def compLen (name : Name) : Nat :=
  (name.takeWhile (· ≠ '/')).length

def skipSlashes (name : Name) : Name :=
  name.dropWhile (· = '/')

namespace lookup

inductive Climb where
  | root (v : Nat)
  | dir (v : Nat)

def climb : Nat → Nat → Prog Climb
  | 0, _ => throw .fuel
  | fuel + 1, vdir => do
    let st ← getSt
    if st.rootvn = some vdir then
      vref vdir
      pure (.root vdir)
    else
      acquire vdir
      let vd ← getVnode vdir
      if !vd.vroot then
        release vdir
        pure (.dir vdir)
      else
        let vfs ← getVfs vd.vfs
        vrele vdir
        match vfs.mountpoint with
        | .ref vdir =>
          vref vdir
          climb fuel vdir
        | _ => throw .fault

/--
The loop for mountpoints, `vdir` is locked before and after it.
-/
def cross : Nat → Nat → Prog Nat
  | 0, _ => throw .fuel
  | fuel + 1, vdir => do
    let vd ← getVnode vdir
    match if vd.type = .VDIR then vd.mountedhere else none with
    | none => pure vdir
    | some vfs =>
      vrele vdir
      let vdir ← ramfs_root vfs
      acquire vdir
      cross fuel vdir

inductive Round where
  | done (error : Code) (nd : Nameidata)
  | next (vdir : Nat) (nd : Nameidata)

def nextname (vdir : Nat) (nd : Nameidata) : Prog Round := do
  if nd.next = [] then
    release vdir
    pure (.done none nd)
  else
    vput nd.vdir
    release vdir
    pure (.next vdir { nd with name := skipSlashes nd.next })

def component (follow : Bool) (vdir : Nat) (nd : Nameidata) : Prog Round := do
  let nd := { nd with vdir }
  acquire vdir
  let (error, vn) ← ramfs_lookup vdir nd.vn nd.name nd.len
  release vdir
  let nd := { nd with vn }
  match error, vn with
  | some e, _ => pure (.done (some e) nd)
  | none, none => throw .fault
  | none, some vdir =>
    acquire vdir
    let st ← getSt
    let vdir ← cross (st.nextVfs + 1) vdir
    let nd := { nd with vn := some vdir }
    let vd ← getVnode vdir
    if vd.type = .VLNK ∧ (follow ∨ nd.next.head? = some '/') then
      pure (.done none { nd with issymlink := true })
    else
      nextname vdir nd

def round (follow : Bool) (vdir : Nat) (nd : Nameidata) : Prog Round := do
  let nd := { nd with len := compLen nd.name }
  if nd.name = [] then
    vref nd.vdir
    pure (.done none { nd with vn := some nd.vdir })
  else if strncmp nd.name ['.', '.'] 2 = 0 then
    let st ← getSt
    match ← climb (st.nextVfs + 1) vdir with
    | .root v => nextname v { nd with vdir := v, vn := some v }
    | .dir vdir => component follow vdir nd
  else
    component follow vdir nd

def loop (follow : Bool) : Nat → Nat → Nameidata → Prog (Code × Nameidata)
  | 0, _, _ => throw .fuel
  | fuel + 1, vdir, nd => do
    match ← round follow vdir nd with
    | .done error nd => pure (error, nd)
    | .next vdir nd => loop follow fuel vdir nd

end lookup

/--
Every round of the loop takes at least one character of the name.
-/
def lookup (nd : Nameidata) : Prog (Code × Nameidata) := do
  let st ← getSt
  lookup.loop st.junk.follow (nd.name.length + 1) nd.vdir { nd with issymlink := false }

namespace namei

/--
The size of the buffer for a link and the rest of the path.
-/
def bufsize : Nat := 512

def concat (link rest : Name) : Name :=
  if link = [] then [] else link ++ rest

/--
The directory in which a round starts, `vn` is not initialised in the first one.
-/
def start (name : Name) (vn : Option Nat) : Prog Nat := do
  if name.head? = some '/' then
    vputOpt vn
    let st ← getSt
    match st.rootfs with
    | none => throw .fault
    | some vfs => ramfs_root vfs
  else
    match vn with
    | none => throw .fault
    | some v => pure v

def loop : Nat → Name → Option Nat → Nameidata → Prog (Code × Nameidata)
  | 0, _, _, _ => throw .fuel
  | fuel + 1, name, vn, nd => do
    let vdir ← start name vn
    let (error, nd) ← lookup { nd with vdir, name := skipSlashes name }
    match error, nd.issymlink, nd.vn with
    | none, true, some vn =>
      -- Concat the symbolic link and the path together
      let link ← ramfs_readlink vn
      if bufsize ≤ (link ++ nd.next).length then
        throw .fault
      else
        vput vn
        loop fuel (concat link nd.next) (some nd.vdir) nd
    | _, _, _ => pure (error, nd)

end namei

def namei (name : Name) (fuel : Nat) : Prog (Code × Nameidata) :=
  namei.loop fuel name none { vdir := 0, vn := none, name, len := 0, issymlink := false }

/-!
The calls. The second component of a result is `*vpp` if the call has written it.
-/

def vfs_link (name target : Name) (fuel : Nat) : Prog Code := do
  let (error, nd) ← namei target fuel
  match error, nd.vn with
  | some e, _ => pure (some e)
  | none, none => throw .fault
  | none, some vn =>
    acquire vn
    let v ← getVnode vn
    if v.type = .VDIR then
      vput nd.vdir
      vrele vn
      pure (some .EISDIR)
    else
      vput nd.vdir
      let (error, nd) ← namei name fuel
      if error ≠ some .ENOENT then
        pure error
      else
        acquire nd.vdir
        let error ← ramfs_link nd.vdir vn nd.name
        release nd.vdir
        vput nd.vdir
        vrele vn
        pure error

def vfs_symlink (name target : Name) (fuel : Nat) : Prog Code := do
  let (error, nd) ← namei name fuel
  if error ≠ some .ENOENT then
    vput nd.vdir
    vputOpt nd.vn
    pure error
  else
    acquire nd.vdir
    let _ ← ramfs_symlink nd.vdir target nd.name nd.len
    vrele nd.vdir
    pure error

def newVfs : Prog Nat :=
  fun st =>
    let vfs : Vfs :=
      { next := none, mountpoint := .wild, rootfs := st.junk.rootfs st.nextVfs, root := 0, nodes := .null }
    .ok st.nextVfs
      { st with
        vfss := Function.update st.vfss st.nextVfs vfs
        nextVfs := st.nextVfs + 1 }

def acquireList : Prog Unit :=
  fun st => if st.vfslistLock then .error .hang st else .ok () { st with vfslistLock := true }

def releaseList : Prog Unit :=
  fun st => .ok () { st with vfslistLock := false }

namespace vfs_mount

def finish (vfs : Nat) : Prog Code := do
  let st ← getSt
  setVfs vfs fun vfs => { vfs with next := st.mountedlist }
  fun st => .ok () { st with mountedlist := some vfs }
  let error ← ramfs_mount vfs
  releaseList
  pure error

def fail2 (error : Errno) (n : Nameidata) : Prog Code := do
  vputOpt n.vn
  vput n.vdir
  releaseList
  pure (some error)

end vfs_mount

def vfs_mount (mntpoint : Option Name) (fstype : Name) (fuel : Nat) : Prog Code := do
  acquireList
  if strcmp ['r', 'a', 'm', 'f', 's'] fstype ≠ 0 then
    releaseList
    pure (some .ENOENT)
  else
    let vfs ← newVfs
    match mntpoint with
    | none =>
      setVfs vfs fun vfs => { vfs with rootfs := true }
      fun st => .ok () { st with rootfs := some vfs }
      vfs_mount.finish vfs
    | some mntpoint =>
      let (error, n) ← namei mntpoint fuel
      match error, n.vn with
      | some e, _ => vfs_mount.fail2 e n
      | none, none => throw .fault
      | none, some mntvnode =>
        acquire mntvnode
        let mnt ← getVnode mntvnode
        if mnt.type ≠ .VDIR then
          vfs_mount.fail2 .ENOTDIR n
        else if mnt.mountedhere ≠ none then
          vfs_mount.fail2 .EBUSY n
        else
          setVfs vfs fun vfs => { vfs with mountpoint := .ref mntvnode }
          setVnode mntvnode fun vn => { vn with mountedhere := some vfs }
          vrele mntvnode
          vput n.vdir
          vfs_mount.finish vfs

def vfs_unmount (name : Name) (fuel : Nat) : Prog Code := do
  let (error, n) ← namei name fuel
  match error, n.vn with
  | some e, _ =>
    vputOpt n.vn
    vput n.vdir
    pure (some e)
  | none, none => throw .fault
  | none, some vn =>
    let v ← getVnode vn
    let vfs ← getVfs v.vfs
    acquire vn
    if !v.vroot then
      vrele vn
      pure (some .EINVAL)
    else if vfs.rootfs then
      vrele vn
      pure (some .EINVAL)
    else
      vrele vn
      let _ ← ramfs_unmount v.vfs
      match vfs.mountpoint with
      | .ref mntvnode =>
        acquire mntvnode
        setVnode mntvnode fun vn => { vn with mountedhere := none }
        release mntvnode
        vput n.vdir
        pure none
      | _ => throw .fault

def vfs_unlink (name : Name) (fuel : Nat) : Prog Code := do
  let (error, nd) ← namei name fuel
  match error, nd.vn with
  | some e, _ =>
    vputOpt nd.vn
    vput nd.vdir
    pure (some e)
  | none, none => throw .fault
  | none, some vn =>
    acquire vn
    if nd.vdir ≠ vn then acquire nd.vdir else pure ()
    let v ← getVnode vn
    let error ← if v.vroot then pure (some .EBUSY) else ramfs_remove nd.vdir vn nd.name
    vput nd.vdir
    vrele vn
    pure error

def vfs_open (name : Name) (type : VType) (create : Bool) (fuel : Nat) : Prog (Code × Option Nat) := do
  let (error, nd) ← namei name fuel
  if create then
    if error ≠ some .ENOENT then
      vput nd.vdir
      vputOpt nd.vn
      pure (error, none)
    else
      acquire nd.vdir
      let (error, vn) ← ramfs_create nd.vdir nd.name nd.len type
      vrele nd.vdir
      pure (error, vn)
  else
    vput nd.vdir
    pure (error, if error = none then nd.vn else none)

def vfs_create (name : Name) (type : VType) (fuel : Nat) : Prog (Code × Option Nat) :=
  vfs_open name type true fuel

def vfs_mkdir (name : Name) (fuel : Nat) : Prog (Code × Option Nat) := do
  if name = [] then
    pure (some .EINVAL, none)
  else
    let (error, n) ← namei name fuel
    if error ≠ some .ENOENT then
      vput n.vdir
      vputOpt n.vn
      pure (if error = none then some .EEXIST else error, none)
    else
      acquire n.vdir
      let vd ← getVnode n.vdir
      if vd.type ≠ .VDIR then
        vrele n.vdir
        pure (some .ENOTDIR, none)
      else
        let (error, vn) ← ramfs_mkdir n.vdir n.name n.len
        vrele n.vdir
        pure (error, vn)

def vfs_rmdir (name : Name) (fuel : Nat) : Prog Code := do
  let (error, nd) ← namei name fuel
  match error, nd.vn with
  | some e, _ =>
    vputOpt nd.vn
    vput nd.vdir
    pure (some e)
  | none, none => throw .fault
  | none, some vdir =>
    acquire vdir
    let error ←
      -- "." is not allowed
      if nd.vdir = vdir then
        pure (some .EINVAL)
      else do
        acquire nd.vdir
        let v ← getVnode vdir
        if v.type ≠ .VDIR then
          pure (some .ENOTDIR)
        else if v.vroot then
          pure (some .EBUSY)
        else
          ramfs_rmdir nd.vdir vdir nd.name nd.len
    vput nd.vdir
    vrele vdir
    pure error

def init_rootvn : Prog Unit := do
  let st ← getSt
  match st.rootfs with
  | none => pure ()
  | some vfs =>
    let v ← ramfs_root vfs
    fun st => .ok () { st with rootvn := some v }

def St.empty (junk : Junk) : St where
  vnodes _ :=
    { vfs := 0
      mountedhere := none
      type := .VNON
      refcount := 0
      vroot := false
      lock := false
      data := 0
      freed := true }
  nodes _ :=
    { prev := .null
      next := .null
      vnode := none
      type := .VNON
      ramlock := false
      linkcount := 0
      dentry := []
      wild := false
      parent := 0
      lastseq := 0
      link := []
      freed := true }
  vfss _ := { next := none, mountpoint := .null, rootfs := false, root := 0, nodes := .null }
  nextVnode := 0
  nextNode := 0
  nextVfs := 0
  rootfs := none
  rootvn := none
  mountedlist := none
  vfslistLock := false
  junk

def boot : Prog Unit := do
  let _ ← vfs_mount none ['r', 'a', 'm', 'f', 's'] 0
  init_rootvn

def zeroed : Junk where
  follow := false
  vroot _ := false
  dentry _ := false
  prev _ := false
  nodes _ := false
  rootfs _ := false
  relinked := false
  dtype := 0

def after {α : Type} (x : Prog α) (s : St) : St :=
  match x s with
  | .ok _ s' => s'
  | .error _ s' => s'

def returns {α : Type} (x : Prog α) (s : St) : Bool :=
  match x s with
  | .ok _ _ => true
  | .error _ _ => false

theorem ok_of_returns {α : Type} {x : Prog α} {s : St} (h : returns x s = true)
    : ∃ a, x s = .ok a (after x s) := by
  unfold returns at h
  unfold after
  split at h
  . next a s' hx => exact ⟨a, hx⟩
  . cases h

def result {α : Type} (x : Prog α) (s : St) : Option α :=
  match x s with
  | .ok a _ => some a
  | .error _ _ => none

theorem ok_of_result {α : Type} {x : Prog α} {s : St} {a : α} (h : result x s = some a)
    : x s = .ok a (after x s) := by
  unfold result at h
  unfold after
  split at h
  . next b s' hx =>
    rw [hx, Option.some.inj h]
  . cases h

def stops {α : Type} (x : Prog α) (s : St) (e : Stop) : Bool :=
  match x s with
  | .ok _ _ => false
  | .error e' _ => e' = e

theorem error_of_stops {α : Type} {x : Prog α} {s : St} {e : Stop} (h : stops x s e = true)
    : x s = .error e (after x s) := by
  unfold stops at h
  unfold after
  split at h
  . cases h
  . next e' s' hx =>
    rw [hx, of_decide_eq_true h]

end Fs
end Franklin
