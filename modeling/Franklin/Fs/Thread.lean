import Franklin.Fs.Calls

/-!
This module contains the calls of `vfs.c` as threads, which take one step at a time: they take and give
back the locks of vnodes and ramnodes, count the references to vnodes and access the memory in between.
The functions are the ones of `Franklin.Fs.Ramfs` and `Franklin.Fs.Vfs` in this form.
-/

namespace Franklin
namespace Fs

inductive Lock where
  | vnode (v : Nat)
  | ram (n : Nat)
  deriving DecidableEq, Repr

/--
`acquire`, which stops with `hang` as long as the lock is taken.
-/
def Lock.acquire : Lock → Prog Unit
  | vnode v => Fs.acquire v
  | ram n => Fs.acquireNode n

def Lock.release : Lock → Prog Unit
  | vnode v => Fs.release v
  | ram n => Fs.releaseNode n

def addRefs (v : Nat) (d : Int) : Prog Int := do
  let vn ← getVnode v
  if d = 1 ∧ vn.refcount = 2 ^ 31 - 1 then
    throw .fault
  else
    setVnode v fun vn => { vn with refcount := vn.refcount + d }
    pure (vn.refcount + d)

/--
The steps that a thread has ahead of it. `nextname` is the `release` at the label `nextname` of `lookup`,
which has steps of its own, as it also runs without the lock.
-/
inductive Thread (α : Type) : Type 1 where
  | ret (a : α)
  | stop (e : Stop)
  | lock (l : Lock) (k : Thread α)
  | unlock (l : Lock) (k : Thread α)
  | nextname (v : Nat) (k : Thread α)
  | trylock (v : Nat) (k : Bool → Thread α)
  | count (v : Nat) (d : Int) (k : Int → Thread α)
  | atom {β : Type} (p : Prog β) (k : β → Thread α)

namespace Thread

def bind {α β : Type} : Thread α → (α → Thread β) → Thread β
  | ret a, f => f a
  | stop e, _ => stop e
  | lock l k, f => lock l (k.bind f)
  | unlock l k, f => unlock l (k.bind f)
  | nextname v k, f => nextname v (k.bind f)
  | trylock v k, f => trylock v fun r => (k r).bind f
  | count v d k, f => count v d fun r => (k r).bind f
  | atom p k, f => atom p fun r => (k r).bind f

instance : Monad Thread where
  pure := ret
  bind := bind

def run {α : Type} : Thread α → Prog α
  | ret a => pure a
  | stop e => throw e
  | lock l k => do
    l.acquire
    k.run
  | unlock l k => do
    l.release
    k.run
  | nextname v k => do
    Fs.release v
    k.run
  | trylock v k => do
    let vn ← getVnode v
    (k vn.lock).run
  | count v d k => do
    let refcount ← addRefs v d
    (k refcount).run
  | atom p k => do
    let r ← p
    (k r).run

def fail {α : Type} (e : Stop) : Thread α :=
  stop e

def acquire (v : Nat) : Thread Unit :=
  lock (.vnode v) (ret ())

def release (v : Nat) : Thread Unit :=
  unlock (.vnode v) (ret ())

def acquireNode (n : Nat) : Thread Unit :=
  lock (.ram n) (ret ())

def releaseNode (n : Nat) : Thread Unit :=
  unlock (.ram n) (ret ())

def access {β : Type} (p : Prog β) : Thread β :=
  atom p ret

def vref_locked (v : Nat) : Thread Unit :=
  count v 1 fun _ => ret ()

def vref (v : Nat) : Thread Unit := do
  acquire v
  vref_locked v
  release v

def ramfs_free_node (n : Nat) : Thread Unit :=
  access (Fs.ramfs_free_node n)

def ramfs_inactive (n : Nat) : Thread Unit := do
  access (deref n)
  acquireNode n
  access (setNode n fun node => { node with vnode := none })
  let node ← access (getNode n)
  if node.linkcount = 0 then
    ramfs_free_node n
    releaseNode n
  else
    releaseNode n

def vfs_close (v : Nat) : Thread Unit := do
  let held ← trylock v ret
  if held then pure () else acquire v
  let vn ← access (getVnode v)
  let refcount ← count v (-1) ret
  if refcount = 0 then
    ramfs_inactive vn.data
    access (setVnode v fun vn => { vn with freed := true })
  else
    release v

def vput (v : Nat) : Thread Unit :=
  vfs_close v

def vrele (v : Nat) : Thread Unit :=
  vput v

def vputOpt : Option Nat → Thread Unit
  | none => pure ()
  | some v => vput v

def ramfs_vget (vfs n : Nat) : Thread Nat := do
  access (deref n)
  acquireNode n
  let node ← access (getNode n)
  match node.vnode with
  | some v =>
    acquire v
    vref_locked v
    release v
    releaseNode n
    pure v
  | none =>
    let v ← access (newVnode vfs n)
    release v
    releaseNode n
    pure v

def ramfs_root (vfs : Nat) : Thread Nat := do
  let vfs' ← access (getVfs vfs)
  ramfs_vget vfs vfs'.root

def ramfs_lookup (vdir : Nat) (vpp : Option Nat) (name : Name) (len : Nat)
    : Thread (Code × Option Nat) := do
  let vd ← access (getVnode vdir)
  access (deref vd.data)
  acquireNode vd.data
  let node ← access (getNode vd.data)
  if vd.type ≠ .VDIR then
    releaseNode vd.data
    pure (some .ENOTDIR, vpp)
  else if strcmp name ['.'] = 0 then
    vref_locked vdir
    releaseNode vd.data
    pure (none, some vdir)
  else if strcmp name ['.', '.'] = 0 then
    let v ← ramfs_vget vd.vfs node.parent
    releaseNode vd.data
    pure (none, some v)
  else
    match Fs.ramfs_lookup.find name len node.dentry with
    | some entry =>
      let v ← ramfs_vget vd.vfs entry.node
      releaseNode vd.data
      pure (none, some v)
    | none =>
      if node.wild then
        fail .fault
      else
        releaseNode vd.data
        pure (some .ENOENT, none)

namespace lookup

open Fs.lookup (Climb Round)

def climb : Nat → Nat → Thread Climb
  | 0, _ => fail .fuel
  | fuel + 1, vdir => do
    let st ← access getSt
    if st.rootvn = some vdir then
      vref vdir
      pure (.root vdir)
    else
      acquire vdir
      let vd ← access (getVnode vdir)
      if !vd.vroot then
        release vdir
        pure (.dir vdir)
      else
        let vfs ← access (getVfs vd.vfs)
        vrele vdir
        match vfs.mountpoint with
        | .ref vdir =>
          vref vdir
          climb fuel vdir
        | _ => fail .fault

def cross : Nat → Nat → Thread Nat
  | 0, _ => fail .fuel
  | fuel + 1, vdir => do
    let vd ← access (getVnode vdir)
    match if vd.type = .VDIR then vd.mountedhere else none with
    | none => pure vdir
    | some vfs =>
      vrele vdir
      let vdir ← ramfs_root vfs
      acquire vdir
      cross fuel vdir

def nextname (vdir : Nat) (nd : Nameidata) : Thread Round := do
  if nd.next = [] then
    Thread.nextname vdir (ret ())
    pure (.done none nd)
  else
    vput nd.vdir
    Thread.nextname vdir (ret ())
    pure (.next vdir { nd with name := skipSlashes nd.next })

def component (follow : Bool) (vdir : Nat) (nd : Nameidata) : Thread Round := do
  let nd := { nd with vdir }
  acquire vdir
  let (error, vn) ← ramfs_lookup vdir nd.vn nd.name nd.len
  release vdir
  let nd := { nd with vn }
  match error, vn with
  | some e, _ => pure (.done (some e) nd)
  | none, none => fail .fault
  | none, some vdir =>
    acquire vdir
    let st ← access getSt
    let vdir ← cross (st.nextVfs + 1) vdir
    let nd := { nd with vn := some vdir }
    let vd ← access (getVnode vdir)
    if vd.type = .VLNK ∧ (follow ∨ nd.next.head? = some '/') then
      pure (.done none { nd with issymlink := true })
    else
      nextname vdir nd

def round (follow : Bool) (vdir : Nat) (nd : Nameidata) : Thread Round := do
  let nd := { nd with len := compLen nd.name }
  if nd.name = [] then
    vref nd.vdir
    pure (.done none { nd with vn := some nd.vdir })
  else if strncmp nd.name ['.', '.'] 2 = 0 then
    let st ← access getSt
    match ← climb (st.nextVfs + 1) vdir with
    | .root v => nextname v { nd with vdir := v, vn := some v }
    | .dir vdir => component follow vdir nd
  else
    component follow vdir nd

def loop (follow : Bool) : Nat → Nat → Nameidata → Thread (Code × Nameidata)
  | 0, _, _ => fail .fuel
  | fuel + 1, vdir, nd => do
    match ← round follow vdir nd with
    | .done error nd => pure (error, nd)
    | .next vdir nd => loop follow fuel vdir nd

end lookup

def lookup (nd : Nameidata) : Thread (Code × Nameidata) := do
  let st ← access getSt
  lookup.loop st.junk.follow (nd.name.length + 1) nd.vdir { nd with issymlink := false }

def ramfs_readlink (vn : Nat) : Thread Name := do
  let v ← access (getVnode vn)
  acquireNode v.data
  let node ← access (getNode v.data)
  releaseNode v.data
  pure node.link

namespace namei

def start (name : Name) (vn : Option Nat) : Thread Nat := do
  if name.head? = some '/' then
    vputOpt vn
    let st ← access getSt
    match st.rootfs with
    | none => fail .fault
    | some vfs => ramfs_root vfs
  else
    match vn with
    | none => fail .fault
    | some v => pure v

def loop : Nat → Name → Option Nat → Nameidata → Thread (Code × Nameidata)
  | 0, _, _, _ => fail .fuel
  | fuel + 1, name, vn, nd => do
    let vdir ← start name vn
    let (error, nd) ← lookup { nd with vdir, name := skipSlashes name }
    match error, nd.issymlink, nd.vn with
    | none, true, some vn =>
      let link ← ramfs_readlink vn
      if Fs.namei.bufsize ≤ (link ++ nd.next).length then
        fail .fault
      else
        vput vn
        loop fuel (Fs.namei.concat link nd.next) (some nd.vdir) nd
    | _, _, _ => pure (error, nd)

end namei

def namei (name : Name) (fuel : Nat) : Thread (Code × Nameidata) :=
  namei.loop fuel name none { vdir := 0, vn := none, name, len := 0, issymlink := false }

def ramfs_dir_lookup (dir : Nat) (name : Name) : Thread (Option RamDentry) := do
  acquireNode dir
  let node ← access (getNode dir)
  match node.dentry.find? fun de => strcmp de.name name = 0 with
  | some de =>
    releaseNode dir
    pure (some de)
  | none =>
    if node.wild then
      fail .fault
    else
      releaseNode dir
      pure none

def ramfs_alloc_dentry (n : Nat) (name : Name) : Thread RamDentry := do
  acquireNode n
  access (setNode n fun node => { node with linkcount := node.linkcount + 1 })
  releaseNode n
  pure { name, node := n, seq := 0 }

def ramfs_dir_attach (parent : Nat) (dentry : RamDentry) : Thread Code := do
  acquireNode parent
  let node ← access (getNode parent)
  if node.type ≠ .VDIR then
    releaseNode parent
    pure (some .EINVAL)
  else
    access (setNode parent fun node =>
      { node with
        dentry := { dentry with seq := node.lastseq } :: node.dentry
        lastseq := node.lastseq + 1
        linkcount := node.linkcount + 1 })
    releaseNode parent
    pure none

def ramfs_alloc_file (vdir : Nat) (name : Name) (len : Nat) (type : VType) (target : Option Name)
    : Thread (Code × Option Nat) := do
  let vd ← access (getVnode vdir)
  let name := strldup name len
  if vd.type ≠ .VDIR ∨ (target.isSome ∧ type ≠ .VLNK) then
    pure (some .EINVAL, none)
  else
    let n ← access (ramfs_alloc_node vd.vfs (some vd.data) type target)
    let de ← ramfs_alloc_dentry n name
    let _ ← ramfs_dir_attach vd.data de
    let v ← ramfs_vget vd.vfs n
    pure (none, some v)

def ramfs_create (vdir : Nat) (name : Name) (len : Nat) (type : VType)
    : Thread (Code × Option Nat) :=
  ramfs_alloc_file vdir name len type none

def ramfs_mkdir (vdir : Nat) (name : Name) (len : Nat) : Thread (Code × Option Nat) :=
  ramfs_alloc_file vdir name len .VDIR none

def ramfs_symlink (vdir : Nat) (target name : Name) (len : Nat) : Thread Code := do
  let (error, _) ← ramfs_alloc_file vdir name len .VLNK (some target)
  pure error

def ramfs_link (vdir vn : Nat) (name : Name) : Thread Code := do
  let vd ← access (getVnode vdir)
  let v ← access (getVnode vn)
  let de ← ramfs_alloc_dentry v.data name
  let _ ← ramfs_dir_attach vd.data de
  pure none

def ramfs_free_dentry (de : RamDentry) : Thread Unit := do
  acquireNode de.node
  let node ← access (getNode de.node)
  if node.linkcount ≤ 0 then
    fail (.panic "ramfs_free_dentry: linkcount <= 0")
  else
    access (setNode de.node fun node => { node with linkcount := node.linkcount - 1 })
    releaseNode de.node

def ramfs_dir_detach (parent : Nat) (de : RamDentry) : Thread Unit := do
  acquireNode parent
  access (setNode parent fun node =>
    { node with linkcount := node.linkcount - 1, dentry := node.dentry.erase de })
  releaseNode parent

def ramfs_remove (vdir vn : Nat) (name : Name) : Thread Code := do
  let vd ← access (getVnode vdir)
  let v ← access (getVnode vn)
  if v.type = .VDIR then
    pure (some .EISDIR)
  else if vd.type ≠ .VDIR then
    pure (some .ENOTDIR)
  else
    match ← ramfs_dir_lookup vd.data name with
    | none => fail (.panic "ramfs_remove: parent")
    | some de =>
      if de.node ≠ v.data then
        fail (.panic "ramfs_remove: parent")
      else
        access (unlinkNode v.data)
        ramfs_dir_detach vd.data de
        ramfs_free_dentry de
        pure none

def ramfs_rmdir (vdir vn : Nat) (name : Name) (len : Nat) : Thread Code := do
  let vd ← access (getVnode vdir)
  let v ← access (getVnode vn)
  if len = 2 ∧ name.take 2 = ['.', '.'] then
    pure (some .ENOTEMPTY)
  else
    acquireNode v.data
    let node ← access (getNode v.data)
    if node.parent ≠ vd.data then
      fail (.panic "ramfs_rmdir: parent")
    else if node.dentry ≠ [] ∨ node.wild then
      releaseNode v.data
      pure (some .ENOTEMPTY)
    else
      access (setNode v.data fun node => { node with linkcount := node.linkcount - 1 })
      releaseNode v.data
      match ← ramfs_dir_lookup vd.data name with
      | none => fail (.panic "ramfs_rmdir: node")
      | some de =>
        if de.node ≠ v.data then
          fail (.panic "ramfs_rmdir: node")
        else
          access (unlinkNode v.data)
          ramfs_dir_detach vd.data de
          ramfs_free_dentry de
          pure none

namespace ramfs_unmount

def freeDentries (n : Nat) : List RamDentry → Thread Unit
  | [] => do
    let node ← access (getNode n)
    if node.wild then fail .fault else pure ()
  | de :: entries => do
    access (deref de.node)
    access (setNode de.node fun node => { node with vnode := none })
    ramfs_dir_detach n de
    ramfs_free_dentry de
    let st ← access getSt
    if st.junk.relinked then
      fail .fault
    else
      freeDentries n entries

def freeAllDentries : Nat → Ptr → Thread Unit
  | _, .null => pure ()
  | _, .wild => fail .fault
  | 0, .ref _ => fail .fuel
  | fuel + 1, .ref n => do
    access (deref n)
    access (setNode n fun node => { node with vnode := none })
    let node ← access (getNode n)
    if node.type ≠ .VDIR then
      freeAllDentries fuel node.next
    else
      freeDentries n node.dentry
      let node ← access (getNode n)
      freeAllDentries fuel node.next

def freeAllNodes : Nat → Ptr → Thread Unit
  | _, .null => pure ()
  | _, .wild => fail .fault
  | 0, .ref _ => fail .fuel
  | fuel + 1, .ref n => do
    ramfs_free_node n
    let node ← access (getNode n)
    freeAllNodes fuel node.next

end ramfs_unmount

def ramfs_unmount (vfs : Nat) : Thread Code := do
  let st ← access getSt
  ramfs_unmount.freeAllDentries (st.nextNode + 1) (st.vfss vfs).nodes
  ramfs_unmount.freeAllNodes (st.nextNode + 1) (st.vfss vfs).nodes
  pure none

def vfs_link (name target : Name) (fuel : Nat) : Thread Code := do
  let (error, nd) ← namei target fuel
  match error, nd.vn with
  | some e, _ => pure (some e)
  | none, none => fail .fault
  | none, some vn =>
    acquire vn
    let v ← access (getVnode vn)
    if v.type = .VDIR then
      vput nd.vdir
      vrele vn
      pure (some .EISDIR)
    else
      vput nd.vdir
      let (error, nd) ← namei name fuel
      if error ≠ some .ENOENT then
        pure error
      else
        acquire nd.vdir
        let error ← ramfs_link nd.vdir vn nd.name
        release nd.vdir
        vput nd.vdir
        vrele vn
        pure error

def vfs_symlink (name target : Name) (fuel : Nat) : Thread Code := do
  let (error, nd) ← namei name fuel
  if error ≠ some .ENOENT then
    vput nd.vdir
    vputOpt nd.vn
    pure error
  else
    acquire nd.vdir
    let _ ← ramfs_symlink nd.vdir target nd.name nd.len
    vrele nd.vdir
    pure error

namespace vfs_mount

def finish (vfs : Nat) : Thread Code := do
  let st ← access getSt
  access (setVfs vfs fun vfs => { vfs with next := st.mountedlist })
  access fun st => .ok () { st with mountedlist := some vfs }
  let error ← access (ramfs_mount vfs)
  access releaseList
  pure error

def fail2 (error : Errno) (n : Nameidata) : Thread Code := do
  vputOpt n.vn
  vput n.vdir
  access releaseList
  pure (some error)

end vfs_mount

def vfs_mount (mntpoint : Option Name) (fstype : Name) (fuel : Nat) : Thread Code := do
  access acquireList
  if strcmp ['r', 'a', 'm', 'f', 's'] fstype ≠ 0 then
    access releaseList
    pure (some .ENOENT)
  else
    let vfs ← access newVfs
    match mntpoint with
    | none =>
      access (setVfs vfs fun vfs => { vfs with rootfs := true })
      access fun st => .ok () { st with rootfs := some vfs }
      vfs_mount.finish vfs
    | some mntpoint =>
      let (error, n) ← namei mntpoint fuel
      match error, n.vn with
      | some e, _ => vfs_mount.fail2 e n
      | none, none => fail .fault
      | none, some mntvnode =>
        acquire mntvnode
        let mnt ← access (getVnode mntvnode)
        if mnt.type ≠ .VDIR then
          vfs_mount.fail2 .ENOTDIR n
        else if mnt.mountedhere ≠ none then
          vfs_mount.fail2 .EBUSY n
        else
          access (setVfs vfs fun vfs => { vfs with mountpoint := .ref mntvnode })
          access (setVnode mntvnode fun vn => { vn with mountedhere := some vfs })
          vrele mntvnode
          vput n.vdir
          vfs_mount.finish vfs

def vfs_unmount (name : Name) (fuel : Nat) : Thread Code := do
  let (error, n) ← namei name fuel
  match error, n.vn with
  | some e, _ =>
    vputOpt n.vn
    vput n.vdir
    pure (some e)
  | none, none => fail .fault
  | none, some vn =>
    let v ← access (getVnode vn)
    let vfs ← access (getVfs v.vfs)
    acquire vn
    if !v.vroot then
      vrele vn
      pure (some .EINVAL)
    else if vfs.rootfs then
      vrele vn
      pure (some .EINVAL)
    else
      vrele vn
      let _ ← ramfs_unmount v.vfs
      match vfs.mountpoint with
      | .ref mntvnode =>
        acquire mntvnode
        access (setVnode mntvnode fun vn => { vn with mountedhere := none })
        release mntvnode
        vput n.vdir
        pure none
      | _ => fail .fault

def vfs_unlink (name : Name) (fuel : Nat) : Thread Code := do
  let (error, nd) ← namei name fuel
  match error, nd.vn with
  | some e, _ =>
    vputOpt nd.vn
    vput nd.vdir
    pure (some e)
  | none, none => fail .fault
  | none, some vn =>
    acquire vn
    if nd.vdir ≠ vn then acquire nd.vdir else pure ()
    let v ← access (getVnode vn)
    let error ← if v.vroot then pure (some .EBUSY) else ramfs_remove nd.vdir vn nd.name
    vput nd.vdir
    vrele vn
    pure error

def vfs_open (name : Name) (type : VType) (create : Bool) (fuel : Nat)
    : Thread (Code × Option Nat) := do
  let (error, nd) ← namei name fuel
  if create then
    if error ≠ some .ENOENT then
      vput nd.vdir
      vputOpt nd.vn
      pure (error, none)
    else
      acquire nd.vdir
      let (error, vn) ← ramfs_create nd.vdir nd.name nd.len type
      vrele nd.vdir
      pure (error, vn)
  else
    vput nd.vdir
    pure (error, if error = none then nd.vn else none)

def vfs_mkdir (name : Name) (fuel : Nat) : Thread (Code × Option Nat) := do
  if name = [] then
    pure (some .EINVAL, none)
  else
    let (error, n) ← namei name fuel
    if error ≠ some .ENOENT then
      vput n.vdir
      vputOpt n.vn
      pure (if error = none then some .EEXIST else error, none)
    else
      acquire n.vdir
      let vd ← access (getVnode n.vdir)
      if vd.type ≠ .VDIR then
        vrele n.vdir
        pure (some .ENOTDIR, none)
      else
        let (error, vn) ← ramfs_mkdir n.vdir n.name n.len
        vrele n.vdir
        pure (error, vn)

def vfs_rmdir (name : Name) (fuel : Nat) : Thread Code := do
  let (error, nd) ← namei name fuel
  match error, nd.vn with
  | some e, _ =>
    vputOpt nd.vn
    vput nd.vdir
    pure (some e)
  | none, none => fail .fault
  | none, some vdir =>
    acquire vdir
    let error ←
      if nd.vdir = vdir then
        pure (some .EINVAL)
      else do
        acquire nd.vdir
        let v ← access (getVnode vdir)
        if v.type ≠ .VDIR then
          pure (some .ENOTDIR)
        else if v.vroot then
          pure (some .EBUSY)
        else
          ramfs_rmdir nd.vdir vdir nd.name nd.len
    vput nd.vdir
    vrele vdir
    pure error

/--
The locks of the calls that only access the contents of a file, which the model leaves out. `ok` is the
test of the type of the file.
-/
def vfs_contents (ok : VType → Bool) (vn : Nat) : Thread Unit := do
  acquire vn
  let v ← access (getVnode vn)
  if !ok v.type then
    release vn
  else
    acquireNode v.data
    releaseNode v.data
    release vn

def vfs_read (vn : Nat) : Thread Unit :=
  vfs_contents (fun type => type ≠ .VDIR) vn

def vfs_write (vn : Nat) : Thread Unit :=
  vfs_contents (fun type => type ≠ .VDIR) vn

def vfs_readdir (vdir : Nat) : Thread Unit :=
  vfs_contents (fun type => type = .VDIR) vdir

def vfs_readlink (vn : Nat) : Thread Unit :=
  vfs_contents (fun type => type = .VLNK) vn

end Thread

def Call.thread (fuel : Nat) : Call → Thread (Code × Option Nat)
  | vfs_open name type create => Thread.vfs_open name type create fuel
  | vfs_mkdir name => Thread.vfs_mkdir name fuel
  | vfs_rmdir name => do
    let error ← Thread.vfs_rmdir name fuel
    pure (error, none)
  | vfs_unlink name => do
    let error ← Thread.vfs_unlink name fuel
    pure (error, none)
  | vfs_link name target => do
    let error ← Thread.vfs_link name target fuel
    pure (error, none)
  | vfs_symlink name target => do
    let error ← Thread.vfs_symlink name target fuel
    pure (error, none)
  | vfs_mount mntpoint fstype => do
    let error ← Thread.vfs_mount (some mntpoint) fstype fuel
    pure (error, none)
  | vfs_unmount name => do
    let error ← Thread.vfs_unmount name fuel
    pure (error, none)
  | vfs_close v => do
    Thread.vfs_close v
    pure (none, none)

inductive Job where
  | call (fuel : Nat) (call : Call)
  | vfs_read (vn : Nat)
  | vfs_write (vn : Nat)
  | vfs_readdir (vdir : Nat)
  | vfs_readlink (vn : Nat)

def Job.thread : Job → Thread Unit
  | call fuel c => do
    let _ ← c.thread fuel
    pure ()
  | vfs_read vn => Thread.vfs_read vn
  | vfs_write vn => Thread.vfs_write vn
  | vfs_readdir vdir => Thread.vfs_readdir vdir
  | vfs_readlink vn => Thread.vfs_readlink vn

/--
The calls that walk to a path and at most remove what is there.
-/
inductive Walker where
  | walk (path : Name)
  | vfs_unlink (path : Name)
  | vfs_rmdir (path : Name)
  deriving DecidableEq, Repr

namespace Walker

def path : Walker → Name
  | walk path => path
  | vfs_unlink path => path
  | vfs_rmdir path => path

def thread (fuel : Nat) : Walker → Thread Unit
  | walk path => do
    let _ ← Thread.namei path fuel
    pure ()
  | vfs_unlink path => do
    let _ ← Thread.vfs_unlink path fuel
    pure ()
  | vfs_rmdir path => do
    let _ ← Thread.vfs_rmdir path fuel
    pure ()

end Walker

def Job.threads : List Job → Thread Unit
  | [] => pure ()
  | job :: jobs => do
    job.thread
    threads jobs

end Fs
end Franklin
