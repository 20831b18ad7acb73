import Franklin.Fs.Basic

/-!
This module contains the operations of `fs/ramfs/ramfs.c`.
-/

namespace Franklin
namespace Fs

def SEQ_START : Nat := 3

/--
The vnode that `ramfs_vget` makes for a ramnode that has none, its lock is held.
-/
def newVnode (vfs n : Nat) : Prog Nat :=
  fun st =>
    let node := st.nodes n
    let v := st.nextVnode
    let vn : Vnode :=
      { vfs
        mountedhere := none
        type := node.type
        refcount := 1
        vroot := st.junk.vroot n || decide (node.type = .VDIR ∧ node.parent = n)
        lock := true
        data := n
        freed := false }
    .ok v
      { st with
        vnodes := Function.update st.vnodes v vn
        nodes := Function.update st.nodes n { node with vnode := some v }
        nextVnode := v + 1 }

def ramfs_vget (vfs n : Nat) : Prog Nat := do
  deref n
  acquireNode n
  let node ← getNode n
  match node.vnode with
  | some v =>
    acquire v
    vref_locked v
    release v
    releaseNode n
    pure v
  | none =>
    let v ← newVnode vfs n
    release v
    releaseNode n
    pure v

def ramfs_root (vfs : Nat) : Prog Nat := do
  let vfs' ← getVfs vfs
  ramfs_vget vfs vfs'.root

/--
The search of `ramfs_lookup` for the name that is the first `len` characters of `name`.
-/
def ramfs_lookup.find (name : Name) (len : Nat) (entries : List RamDentry) : Option RamDentry :=
  entries.find? fun entry => strncmp entry.name name len = 0

def ramfs_lookup (vdir : Nat) (vpp : Option Nat) (name : Name) (len : Nat)
    : Prog (Code × Option Nat) := do
  let vd ← getVnode vdir
  deref vd.data
  acquireNode vd.data
  let node ← getNode vd.data
  if vd.type ≠ .VDIR then
    releaseNode vd.data
    pure (some .ENOTDIR, vpp)
  else if strcmp name ['.'] = 0 then
    vref_locked vdir
    releaseNode vd.data
    pure (none, some vdir)
  else if strcmp name ['.', '.'] = 0 then
    let v ← ramfs_vget vd.vfs node.parent
    releaseNode vd.data
    pure (none, some v)
  else
    match ramfs_lookup.find name len node.dentry with
    | some entry =>
      let v ← ramfs_vget vd.vfs entry.node
      releaseNode vd.data
      pure (none, some v)
    | none =>
      if node.wild then
        throw .fault
      else
        releaseNode vd.data
        pure (some .ENOENT, none)

def ramfs_dir_lookup (dir : Nat) (name : Name) : Prog (Option RamDentry) := do
  acquireNode dir
  let node ← getNode dir
  match node.dentry.find? fun de => strcmp de.name name = 0 with
  | some de =>
    releaseNode dir
    pure (some de)
  | none =>
    if node.wild then
      throw .fault
    else
      releaseNode dir
      pure none

def setPrev (p prev : Ptr) : Prog Unit :=
  match p with
  | .null => pure ()
  | .ref n => do
    deref n
    setNode n fun node => { node with prev }
  | .wild => throw .fault

def setNext (p next : Ptr) : Prog Unit :=
  match p with
  | .null => pure ()
  | .ref n => do
    deref n
    setNode n fun node => { node with next }
  | .wild => throw .fault

def ramfs_free_node (n : Nat) : Prog Unit := do
  deref n
  let node ← getNode n
  setPrev node.next node.prev
  setNode n fun node' => { node' with prev := node.next, freed := true }

/--
The ramnode that `ramfs_alloc_node` takes from `kalloc` and puts in front of the list of all nodes.
-/
def newNode (vfs : Nat) (dir : Option Nat) (type : VType) (link : Name) : Prog Nat :=
  fun st =>
    let n := st.nextNode
    let node : RamNode :=
      { prev := if st.junk.prev n then .wild else .null
        next := (st.vfss vfs).nodes
        vnode := none
        type
        ramlock := false
        -- extra link for the virtual '.' entry
        linkcount := if type = .VDIR then 1 else 0
        dentry := []
        wild := st.junk.dentry n
        parent := dir.getD n
        lastseq := SEQ_START
        link
        freed := false }
    .ok n
      { st with
        nodes := Function.update st.nodes n node
        vfss := Function.update st.vfss vfs { st.vfss vfs with nodes := .ref n }
        nextNode := n + 1 }

def ramfs_alloc_node (vfs : Nat) (dir : Option Nat) (type : VType) (link : Option Name)
    : Prog Nat := do
  let st ← getSt
  setPrev (st.vfss vfs).nodes (.ref st.nextNode)
  if type = .VLNK ∧ link = none then
    -- strdup(NULL)
    throw .fault
  else
    newNode vfs dir type (link.getD [])

def ramfs_alloc_dentry (n : Nat) (name : Name) : Prog RamDentry := do
  acquireNode n
  setNode n fun node => { node with linkcount := node.linkcount + 1 }
  releaseNode n
  pure { name, node := n, seq := 0 }

def ramfs_dir_attach (parent : Nat) (dentry : RamDentry) : Prog Code := do
  acquireNode parent
  let node ← getNode parent
  if node.type ≠ .VDIR then
    releaseNode parent
    pure (some .EINVAL)
  else
    setNode parent fun node =>
      { node with
        dentry := { dentry with seq := node.lastseq } :: node.dentry
        lastseq := node.lastseq + 1
        linkcount := node.linkcount + 1 }
    releaseNode parent
    pure none

def ramfs_alloc_file (vdir : Nat) (name : Name) (len : Nat) (type : VType) (target : Option Name)
    : Prog (Code × Option Nat) := do
  let vd ← getVnode vdir
  let name := strldup name len
  if vd.type ≠ .VDIR ∨ (target.isSome ∧ type ≠ .VLNK) then
    pure (some .EINVAL, none)
  else
    let n ← ramfs_alloc_node vd.vfs (some vd.data) type target
    let de ← ramfs_alloc_dentry n name
    let _ ← ramfs_dir_attach vd.data de
    let v ← ramfs_vget vd.vfs n
    pure (none, some v)

def ramfs_create (vdir : Nat) (name : Name) (len : Nat) (type : VType) : Prog (Code × Option Nat) :=
  ramfs_alloc_file vdir name len type none

def ramfs_mkdir (vdir : Nat) (name : Name) (len : Nat) : Prog (Code × Option Nat) :=
  ramfs_alloc_file vdir name len .VDIR none

def ramfs_symlink (vdir : Nat) (target name : Name) (len : Nat) : Prog Code := do
  let (error, _) ← ramfs_alloc_file vdir name len .VLNK (some target)
  pure error

def ramfs_link (vdir vn : Nat) (name : Name) : Prog Code := do
  let vd ← getVnode vdir
  let v ← getVnode vn
  let de ← ramfs_alloc_dentry v.data name
  let _ ← ramfs_dir_attach vd.data de
  pure none

def ramfs_readlink (vn : Nat) : Prog Name := do
  let v ← getVnode vn
  acquireNode v.data
  let node ← getNode v.data
  releaseNode v.data
  pure node.link

def ramfs_free_dentry (de : RamDentry) : Prog Unit := do
  acquireNode de.node
  let node ← getNode de.node
  if node.linkcount ≤ 0 then
    throw (.panic "ramfs_free_dentry: linkcount <= 0")
  else
    setNode de.node fun node => { node with linkcount := node.linkcount - 1 }
    releaseNode de.node

def ramfs_dir_detach (parent : Nat) (de : RamDentry) : Prog Unit := do
  acquireNode parent
  setNode parent fun node =>
    { node with linkcount := node.linkcount - 1, dentry := node.dentry.erase de }
  releaseNode parent

def unlinkNode (n : Nat) : Prog Unit := do
  let node ← getNode n
  setNext node.prev node.next
  let node ← getNode n
  setPrev node.next node.prev

def ramfs_remove (vdir vn : Nat) (name : Name) : Prog Code := do
  let vd ← getVnode vdir
  let v ← getVnode vn
  if v.type = .VDIR then
    pure (some .EISDIR)
  else if vd.type ≠ .VDIR then
    pure (some .ENOTDIR)
  else
    match ← ramfs_dir_lookup vd.data name with
    | none => throw (.panic "ramfs_remove: parent")
    | some de =>
      if de.node ≠ v.data then
        throw (.panic "ramfs_remove: parent")
      else
        unlinkNode v.data
        ramfs_dir_detach vd.data de
        ramfs_free_dentry de
        pure none

def ramfs_rmdir (vdir vn : Nat) (name : Name) (len : Nat) : Prog Code := do
  let vd ← getVnode vdir
  let v ← getVnode vn
  if len = 2 ∧ name.take 2 = ['.', '.'] then
    pure (some .ENOTEMPTY)
  else
    acquireNode v.data
    let node ← getNode v.data
    if node.parent ≠ vd.data then
      throw (.panic "ramfs_rmdir: parent")
    else if node.dentry ≠ [] ∨ node.wild then
      releaseNode v.data
      pure (some .ENOTEMPTY)
    else
      -- decrement the linkcount for the virtual '.' entry
      setNode v.data fun node => { node with linkcount := node.linkcount - 1 }
      releaseNode v.data
      match ← ramfs_dir_lookup vd.data name with
      | none => throw (.panic "ramfs_rmdir: node")
      | some de =>
        if de.node ≠ v.data then
          throw (.panic "ramfs_rmdir: node")
        else
          unlinkNode v.data
          ramfs_dir_detach vd.data de
          ramfs_free_dentry de
          pure none

def ramfs_inactive (n : Nat) : Prog Unit := do
  deref n
  acquireNode n
  setNode n fun node => { node with vnode := none }
  let node ← getNode n
  if node.linkcount = 0 then
    ramfs_free_node n
    releaseNode n
  else
    releaseNode n

def ramfs_mount (vfs : Nat) : Prog Code := do
  let st ← getSt
  -- `ram->nodes` is read before it is written
  setVfs vfs fun ram => { ram with nodes := if st.junk.nodes vfs then .wild else .null }
  let root ← ramfs_alloc_node vfs none .VDIR none
  setNode root fun node => { node with linkcount := node.linkcount + 1, prev := .null, next := .null }
  setVfs vfs fun vfs => { vfs with root, nodes := .ref root }
  pure none

namespace ramfs_unmount

/--
The loop over the dentries of a directory, which reads `de->next` after `de` was freed.
-/
def freeDentries (n : Nat) : List RamDentry → Prog Unit
  | [] => do
    let node ← getNode n
    if node.wild then throw .fault else pure ()
  | de :: entries => do
    deref de.node
    setNode de.node fun node => { node with vnode := none }
    ramfs_dir_detach n de
    ramfs_free_dentry de
    let st ← getSt
    if st.junk.relinked then
      throw .fault
    else
      freeDentries n entries

def freeAllDentries : Nat → Ptr → Prog Unit
  | _, .null => pure ()
  | _, .wild => throw .fault
  | 0, .ref _ => throw .fuel
  | fuel + 1, .ref n => do
    deref n
    setNode n fun node => { node with vnode := none }
    let node ← getNode n
    if node.type ≠ .VDIR then
      freeAllDentries fuel node.next
    else
      freeDentries n node.dentry
      let node ← getNode n
      freeAllDentries fuel node.next

def freeAllNodes : Nat → Ptr → Prog Unit
  | _, .null => pure ()
  | _, .wild => throw .fault
  | 0, .ref _ => throw .fuel
  | fuel + 1, .ref n => do
    ramfs_free_node n
    let node ← getNode n
    freeAllNodes fuel node.next

end ramfs_unmount

def ramfs_unmount (vfs : Nat) : Prog Code := do
  let st ← getSt
  ramfs_unmount.freeAllDentries (st.nextNode + 1) (st.vfss vfs).nodes
  ramfs_unmount.freeAllNodes (st.nextNode + 1) (st.vfss vfs).nodes
  pure none

end Fs
end Franklin
