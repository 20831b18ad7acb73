import Franklin.Fs.Vfs
import Franklin.Lib.Hier

/-!
This module contains what the operations of `ramfs.c` do to the file system as functions on its states,
and the directory tree that a state holds.
-/

namespace Franklin
namespace Fs

namespace St

def updNode (s : St) (n : Nat) (f : RamNode → RamNode) : St :=
  { s with nodes := Function.update s.nodes n (f (s.nodes n)) }

/--
`if (p) p->prev = prev`, for a pointer that is not wild.
-/
def setPrev (s : St) (p prev : Ptr) : St :=
  match p with
  | .ref n => s.updNode n fun node => { node with prev }
  | _ => s

def setNext (s : St) (p next : Ptr) : St :=
  match p with
  | .ref n => s.updNode n fun node => { node with next }
  | _ => s

/--
The ramnode is taken out of the list of all nodes, apart from the head of the list.
-/
def unchain (s : St) (n : Nat) : St :=
  let s := s.setNext (s.nodes n).prev (s.nodes n).next
  s.setPrev (s.nodes n).next (s.nodes n).prev

def addLink (s : St) (n : Nat) : St :=
  s.updNode n fun node => { node with linkcount := node.linkcount + 1, ramlock := false }

def dropLinks (s : St) (n : Nat) (k : Int) : St :=
  s.updNode n fun node => { node with linkcount := node.linkcount - k, ramlock := false }

def attach (s : St) (d : Nat) (de : RamDentry) : St :=
  s.updNode d fun node =>
    { node with
      dentry := { de with seq := node.lastseq } :: node.dentry
      lastseq := node.lastseq + 1
      linkcount := node.linkcount + 1
      ramlock := false }

def detach (s : St) (d : Nat) (de : RamDentry) : St :=
  s.updNode d fun node =>
    { node with
      linkcount := node.linkcount - 1, dentry := node.dentry.erase de, ramlock := false }

def addNode (s : St) (vfs : Nat) (dir : Option Nat) (type : VType) (link : Name) : St :=
  after (newNode vfs dir type link) (s.setPrev (s.vfss vfs).nodes (.ref s.nextNode))

def newFile (s : St) (vfs d : Nat) (name : Name) (type : VType) (link : Name) : St :=
  ((s.addNode vfs (some d) type link).addLink s.nextNode).attach d
    { name, node := s.nextNode, seq := 0 }

def hardLink (s : St) (d n : Nat) (name : Name) : St :=
  (s.addLink n).attach d { name, node := n, seq := 0 }

def unlinkFile (s : St) (d : Nat) (de : RamDentry) : St :=
  ((s.unchain de.node).detach d de).dropLinks de.node 1

def unlinkDir (s : St) (d : Nat) (de : RamDentry) : St :=
  (((s.dropLinks de.node 1).unchain de.node).detach d de).dropLinks de.node 1

def vnew (s : St) (vfs n : Nat) : St :=
  let vn : Vnode :=
    { vfs
      mountedhere := none
      type := (s.nodes n).type
      refcount := 1
      vroot := s.junk.vroot n || decide ((s.nodes n).type = .VDIR ∧ (s.nodes n).parent = n)
      lock := false
      data := n
      freed := false }
  { s.updNode n fun node => { node with vnode := some s.nextVnode, ramlock := false } with
    vnodes := Function.update s.vnodes s.nextVnode vn
    nextVnode := s.nextVnode + 1 }

/--
The root directory of a new file system, which is its own parent.
-/
def addRoot (s : St) (vfs : Nat) : St :=
  let root : RamNode :=
    { prev := .null
      next := .null
      vnode := none
      type := .VDIR
      ramlock := false
      linkcount := 2
      dentry := []
      wild := s.junk.dentry s.nextNode
      parent := s.nextNode
      lastseq := SEQ_START
      link := []
      freed := false }
  { s with
    nodes := Function.update s.nodes s.nextNode root
    vfss := Function.update s.vfss vfs
      { s.vfss vfs with root := s.nextNode, nodes := .ref s.nextNode }
    nextNode := s.nextNode + 1 }

def freeNode (s : St) (n : Nat) : St :=
  (s.setPrev (s.nodes n).next (s.nodes n).prev).updNode n fun node =>
    { node with prev := (s.nodes n).next, freed := true }

def inactive (s : St) (n : Nat) : St :=
  let s := s.updNode n fun node => { node with vnode := none, ramlock := false }
  if (s.nodes n).linkcount = 0 then s.freeNode n else s

def close (s : St) (v : Nat) : St :=
  let vn := s.vnodes v
  if vn.refcount - 1 = 0 then
    { s.inactive vn.data with
      vnodes := Function.update s.vnodes v
        { vn with lock := true, refcount := vn.refcount - 1, freed := true } }
  else
    { s with
      vnodes := Function.update s.vnodes v { vn with lock := false, refcount := vn.refcount - 1 } }

/--
`ramfs_dir_lookup` finds in the directory `vdir` a dentry of the ramnode of `vn`.
-/
def FindsTarget (s : St) (vdir vn : Nat) (name : Name) : Prop :=
  ((s.nodes (s.vnodes vdir).data).dentry.find? fun de => strcmp de.name name = 0).map (·.node) =
    some (s.vnodes vn).data

def hier (s : St) : Hier where
  node n :=
    { isDir := (s.nodes n).type = .VDIR
      entries := ((s.nodes n).dentry.map (·.node) : List Nat)
      count := (s.nodes n).linkcount
      parent := (s.nodes n).parent
      freed := (s.nodes n).freed }
  next := s.nextNode

end St

end Fs
end Franklin
