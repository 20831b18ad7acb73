import Franklin.Fs.Update
import Franklin.Fs.Lemmas.Vget

/-!
This module contains that the operations of `ramfs.c` do what `Franklin.Fs.Update` says.
-/

namespace Franklin
namespace Fs

section Basic

variable {s : St} {m n d : Nat} {f g : RamNode → RamNode} {E : Stop → St → Prop}
  {Q : Unit → St → Prop}

@[simp]
theorem St.updNode_nodes_self : (s.updNode n f).nodes n = f (s.nodes n) := by
  simp [St.updNode]

theorem St.updNode_nodes_of_ne (h : m ≠ n) : (s.updNode n f).nodes m = s.nodes m := by
  simp [St.updNode, h]

theorem St.updNode_updNode : (s.updNode n f).updNode n g = s.updNode n (g ∘ f) := by
  simp [St.updNode]

theorem St.updNode_congr (h : f (s.nodes n) = g (s.nodes n)) : s.updNode n f = s.updNode n g := by
  simp [St.updNode, h]

theorem St.updNode_eq_self (h : f (s.nodes n) = s.nodes n) : s.updNode n f = s := by
  unfold St.updNode
  rw [h, Function.update_eq_self]

theorem wp_setNode_iff : wp (setNode n f) Q E s ↔ Q () (s.updNode n f) := by
  rfl

theorem wp_releaseNode_iff
    : wp (releaseNode n) Q E s ↔ Q () (s.updNode n fun node => { node with ramlock := false }) := by
  rfl

theorem wp_acquireNode_iff
    : wp (acquireNode n) Q E s ↔
        ((s.nodes n).ramlock = true → E .hang s) ∧
          ((s.nodes n).ramlock = false →
            Q () (s.updNode n fun node => { node with ramlock := true })) := by
  unfold acquireNode
  rw [wp_bind, wp_getNode]
  cases (s.nodes n).ramlock with
  | true => simp
  | false => simp [St.updNode]

theorem wp_acquireList
    : wp acquireList Q E s ↔
        (s.vfslistLock = true → E .hang s) ∧
          (s.vfslistLock = false → Q () { s with vfslistLock := true }) := by
  unfold acquireList wp
  cases h : s.vfslistLock <;> simp [h]

theorem wp_releaseList : wp releaseList Q E s ↔ Q () { s with vfslistLock := false } := by
  rfl

theorem wp_newVfs {R : Nat → St → Prop}
    : wp newVfs R E s ↔ R s.nextVfs
        { s with
          vfss := Function.update s.vfss s.nextVfs
            { next := none, mountpoint := .wild, rootfs := s.junk.rootfs s.nextVfs, root := 0, nodes := .null }
          nextVfs := s.nextVfs + 1 } := by
  rfl

theorem wp_update (f : St → St) : wp (fun st => .ok () (f st)) Q E s ↔ Q () (f s) := by
  rfl

end Basic

def Halts (s : St) (P : String → Prop) (e : Stop) (s' : St) : Prop :=
  s'.vnodes = s.vnodes ∧ ∀ msg, e = .panic msg → P msg

theorem Halts.mono {s s1 s' : St} {P P' : String → Prop} {e : Stop} (h : Halts s1 P e s')
    (heq : s1.vnodes = s.vnodes) (hP : ∀ msg, P msg → P' msg) : Halts s P' e s' :=
  ⟨h.1.trans heq, fun msg hmsg => hP msg (h.2 msg hmsg)⟩

theorem Halts.of_ne {s : St} {P : String → Prop} {e : Stop} (h : ∀ msg, e ≠ .panic msg)
    : Halts s P e s :=
  ⟨rfl, fun msg hmsg => absurd hmsg (h msg)⟩

section Ops

variable {s : St} {n d : Nat} {Q : Unit → St → Prop} {P : String → Prop}

theorem wp_deref_iff : wp (deref n) (fun _ s' => s' = s) (Halts s P) s :=
  wp_deref_same fun _ => .of_ne (by simp)

theorem wp_ramfs_alloc_dentry {R : RamDentry → St → Prop} (name : Name)
    (h : R { name, node := n, seq := 0 } (s.addLink n))
    : wp (ramfs_alloc_dentry n name) R (Halts s P) s := by
  unfold ramfs_alloc_dentry
  rw [wp_bind, wp_acquireNode_iff]
  refine ⟨fun _ => .of_ne (by simp), ?_⟩
  intro _
  rw [wp_bind, wp_setNode_iff, wp_bind, wp_releaseNode_iff, wp_pure, St.updNode_updNode,
    St.updNode_updNode]
  apply h

theorem wp_ramfs_dir_attach {R : Code → St → Prop} (de : RamDentry)
    (hdir : (s.nodes d).type = .VDIR) (h : R none (s.attach d de))
    : wp (ramfs_dir_attach d de) R (Halts s P) s := by
  unfold ramfs_dir_attach
  rw [wp_bind, wp_acquireNode_iff]
  refine ⟨fun _ => .of_ne (by simp), ?_⟩
  intro _
  rw [wp_bind, wp_getNode, if_neg (by simp [hdir]), wp_bind, wp_setNode_iff, wp_bind,
    wp_releaseNode_iff, wp_pure, St.updNode_updNode, St.updNode_updNode]
  apply h

theorem wp_ramfs_dir_detach (de : RamDentry) (h : Q () (s.detach d de))
    : wp (ramfs_dir_detach d de) Q (Halts s P) s := by
  unfold ramfs_dir_detach
  rw [wp_bind, wp_acquireNode_iff]
  refine ⟨fun _ => .of_ne (by simp), ?_⟩
  intro _
  rw [wp_bind, wp_setNode_iff, wp_releaseNode_iff, St.updNode_updNode, St.updNode_updNode]
  apply h

theorem wp_ramfs_free_dentry (de : RamDentry)
    (hP : (s.nodes de.node).linkcount ≤ 0 → P "ramfs_free_dentry: linkcount <= 0")
    (h : 0 < (s.nodes de.node).linkcount → Q () (s.dropLinks de.node 1))
    : wp (ramfs_free_dentry de) Q (Halts s P) s := by
  unfold ramfs_free_dentry
  rw [wp_bind, wp_acquireNode_iff]
  refine ⟨fun _ => .of_ne (by simp), ?_⟩
  intro _
  rw [wp_bind, wp_getNode]
  simp only [St.updNode_nodes_self]
  split
  . next hle =>
    refine ⟨rfl, ?_⟩
    intro msg hmsg
    rw [Stop.panic.injEq] at hmsg
    rw [← hmsg]
    apply hP hle
  . next hlt =>
    rw [wp_bind, wp_setNode_iff, wp_releaseNode_iff, St.updNode_updNode, St.updNode_updNode]
    apply h
    omega

theorem wp_setPrev_iff (p prev : Ptr) (h : Q () (s.setPrev p prev))
    : wp (setPrev p prev) Q (Halts s P) s := by
  cases p with
  | null => apply h
  | wild => exact .of_ne (by simp)
  | ref n =>
    apply wp_bind_of wp_deref_iff
    intro _ s1 hs1
    rw [hs1]
    apply h

theorem wp_setNext_iff (p next : Ptr) (h : Q () (s.setNext p next))
    : wp (setNext p next) Q (Halts s P) s := by
  cases p with
  | null => apply h
  | wild => exact .of_ne (by simp)
  | ref n =>
    apply wp_bind_of wp_deref_iff
    intro _ s1 hs1
    rw [hs1]
    apply h

theorem wp_ramfs_dir_lookup {R : Option RamDentry → St → Prop} (name : Name)
    (hfree : (s.nodes d).ramlock = false →
      R ((s.nodes d).dentry.find? fun de => strcmp de.name name = 0) s)
    : wp (ramfs_dir_lookup d name) R (Halts s P) s := by
  have hback : (s.nodes d).ramlock = false →
      (s.updNode d fun node => { node with ramlock := true }).updNode d
        (fun node => { node with ramlock := false }) = s := by
    intro hlock
    rw [St.updNode_updNode]
    apply St.updNode_eq_self
    dsimp only [Function.comp_apply]
    rw [← hlock]
  unfold ramfs_dir_lookup
  rw [wp_bind, wp_acquireNode_iff]
  refine ⟨fun _ => .of_ne (by simp), ?_⟩
  intro hlock
  rw [wp_bind, wp_getNode]
  simp only [St.updNode_nodes_self]
  specialize hfree hlock
  cases hfind : (s.nodes d).dentry.find? fun de => strcmp de.name name = 0 with
  | some de =>
    rw [hfind] at hfree
    dsimp only
    rw [wp_bind, wp_releaseNode_iff, wp_pure, hback hlock]
    apply hfree
  | none =>
    rw [hfind] at hfree
    dsimp only
    split
    . exact ⟨rfl, by simp⟩
    . rw [wp_bind, wp_releaseNode_iff, wp_pure, hback hlock]
      apply hfree

theorem wp_unlinkNode (h : Q () (s.unchain n)) : wp (unlinkNode n) Q (Halts s P) s := by
  have hvnodes : (s.setNext (s.nodes n).prev (s.nodes n).next).vnodes = s.vnodes := by
    unfold St.setNext
    split <;> rfl
  unfold unlinkNode
  rw [wp_bind, wp_getNode]
  rw [wp_bind]
  apply wp_setNext_iff
  rw [wp_bind, wp_getNode]
  apply wp_mono (wp_setPrev_iff _ _ h)
  . intro _ s1 hs1
    apply hs1
  . intro e s1 hs1
    apply hs1.mono hvnodes (fun _ h => h)

theorem wp_ramfs_alloc_node {R : Nat → St → Prop} (vfs : Nat) (dir : Option Nat) (type : VType)
    (link : Option Name) (h : R s.nextNode (s.addNode vfs dir type (link.getD [])))
    : wp (ramfs_alloc_node vfs dir type link) R (Halts s P) s := by
  have hvnodes : (s.setPrev (s.vfss vfs).nodes (.ref s.nextNode)).vnodes = s.vnodes := by
    unfold St.setPrev
    split <;> rfl
  have hnext : (s.setPrev (s.vfss vfs).nodes (.ref s.nextNode)).nextNode = s.nextNode := by
    unfold St.setPrev
    split <;> rfl
  unfold ramfs_alloc_node
  rw [wp_bind, wp_getSt, wp_bind]
  apply wp_setPrev_iff
  split
  . exact ⟨hvnodes, by simp⟩
  . unfold newNode wp
    dsimp only
    rw [hnext]
    unfold St.addNode newNode after at h
    dsimp only at h
    rw [hnext] at h
    apply h

theorem wp_ramfs_vget_none {E : Stop → St → Prop} {R : Nat → St → Prop} {vfs : Nat}
    (hfault : (s.nodes n).freed = true → E .fault s) (hvnode : (s.nodes n).vnode = none)
    (hlock : (s.nodes n).ramlock = false) (h : R s.nextVnode (s.vnew vfs n))
    : wp (ramfs_vget vfs n) R E s := by
  unfold ramfs_vget
  rw [wp_bind, wp_deref]
  refine ⟨hfault, ?_⟩
  intro _
  rw [wp_bind, wp_acquireNode_iff]
  refine ⟨by simp [hlock], ?_⟩
  intro _
  rw [wp_bind, wp_getNode]
  simp only [St.updNode_nodes_self, hvnode]
  rw [wp_bind]
  unfold newVnode
  dsimp only [wp]
  change wp (do
    release s.nextVnode
    releaseNode n
    pure s.nextVnode) R E _
  rw [wp_bind, wp_release_alive (by simp [St.updNode]), wp_bind, wp_releaseNode_iff, wp_pure]
  simpa [St.vnew, St.updNode] using h

theorem St.updNode_comm {s : St} {m n : Nat} {f g : RamNode → RamNode} (h : m ≠ n)
    : (s.updNode m f).updNode n g = (s.updNode n g).updNode m f := by
  unfold St.updNode
  dsimp only
  rw [Function.update_of_ne h, Function.update_of_ne (Ne.symm h), Function.update_comm h]

theorem St.updNode_setPrev {s : St} {n : Nat} {f : RamNode → RamNode} (p prev : Ptr)
    (hf : ∀ node prev, f { node with prev } = { f node with prev })
    : (s.setPrev p prev).updNode n f = (s.updNode n f).setPrev p prev := by
  unfold St.setPrev
  split
  . next m =>
    by_cases hm : m = n
    . subst hm
      rw [St.updNode_updNode, St.updNode_updNode]
      apply St.updNode_congr
      apply hf
    . rw [St.updNode_comm hm]
  . rfl

theorem St.freeNode_release (s : St) (n : Nat)
    : ((s.updNode n fun node => { node with vnode := none, ramlock := true }).freeNode n).updNode n
          (fun node => { node with ramlock := false }) =
        (s.updNode n fun node => { node with vnode := none, ramlock := false }).freeNode n := by
  unfold St.freeNode
  rw [St.updNode_updNode, St.updNode_nodes_self, St.updNode_nodes_self]
  rw [← St.updNode_setPrev _ _ (fun _ _ => rfl), ← St.updNode_setPrev _ _ (fun _ _ => rfl),
    St.updNode_updNode, St.updNode_updNode]
  rfl
theorem wp_ramfs_free_node_iff (h : Q () (s.freeNode n)) : wp (ramfs_free_node n) Q (Halts s P) s := by
  unfold ramfs_free_node
  apply wp_bind_of wp_deref_iff
  intro _ s1 hs1
  rw [hs1, wp_bind, wp_getNode, wp_bind]
  apply wp_setPrev_iff
  apply h

theorem wp_ramfs_inactive_iff (h : Q () (s.inactive n)) : wp (ramfs_inactive n) Q (Halts s P) s := by
  unfold ramfs_inactive
  apply wp_bind_of wp_deref_iff
  intro _ s0 hs0
  rw [hs0, wp_bind, wp_acquireNode_iff]
  refine ⟨fun _ => .of_ne (by simp), ?_⟩
  intro hlock
  rw [wp_bind, wp_setNode_iff, wp_bind, wp_getNode, St.updNode_updNode, St.updNode_nodes_self]
  unfold St.inactive at h
  simp only [St.updNode_nodes_self] at h
  split at h
  . next hcount =>
    rw [if_pos (by simpa using hcount), wp_bind]
    -- the lock is taken while the node is freed, and given back after it
    apply wp_mono (wp_ramfs_free_node_iff (P := P) (Q := fun _ s' => s' = _) rfl)
    . intro _ s1 hs1
      rw [hs1, wp_releaseNode_iff]
      change Q () (((s.updNode n fun node =>
        { node with vnode := none, ramlock := true }).freeNode n).updNode n _)
      rw [St.freeNode_release]
      apply h
    . intro e s1 hs1
      apply hs1.mono rfl (fun _ h => h)
  . next hcount =>
    rw [if_neg (by simpa using hcount), wp_releaseNode_iff, St.updNode_updNode]
    apply h

theorem St.setPrev_vnodes (s : St) (p prev : Ptr) (vnodes : Nat → Vnode)
    : ({ s with vnodes } : St).setPrev p prev = { s.setPrev p prev with vnodes } := by
  unfold St.setPrev
  split <;> rfl

theorem St.inactive_vnodes (s : St) (n : Nat) (vnodes : Nat → Vnode)
    : ({ s with vnodes } : St).inactive n = { s.inactive n with vnodes } := by
  have hfree : ∀ s : St, ({ s with vnodes } : St).freeNode n = { s.freeNode n with vnodes } := by
    intro s
    unfold St.freeNode
    rw [St.setPrev_vnodes]
    rfl
  unfold St.inactive
  dsimp only
  rw [St.updNode_nodes_self, St.updNode_nodes_self]
  split
  . exact hfree (s.updNode n fun node => { node with vnode := none, ramlock := false })
  . rfl

theorem wp_vfs_close_iff {v : Nat} (hfreed : (s.vnodes v).freed = false) (h : Q () (s.close v))
    : wp (vfs_close v) Q (fun e _ => ∀ msg, e = .panic msg → P msg) s := by
  unfold vfs_close
  rw [wp_bind, wp_getVnode]
  refine ⟨by simp [hfreed], ?_⟩
  intro _
  rw [wp_bind, wp_setVnode]
  unfold St.close at h
  dsimp only at h
  split
  . next hlast =>
    rw [if_pos hlast] at h
    rw [wp_bind]
    apply wp_mono (wp_ramfs_inactive_iff (P := P) (Q := fun _ s' => s' = _) rfl)
    . intro _ s1 hs1
      rw [hs1, wp_setVnode]
      rw [St.inactive_vnodes]
      simpa using h
    . intro e s1 hs1
      apply hs1.2
  . next hlast =>
    rw [if_neg hlast] at h
    rw [wp_release_alive (by simp [hfreed])]
    simpa using h

end Ops

section Static

variable {s : St} {n : Nat}

def OnlyNodes (s s' : St) : Prop :=
  s' = { s with nodes := s'.nodes }

theorem OnlyNodes.refl (s : St) : OnlyNodes s s := by
  rfl

theorem OnlyNodes.vnodes {s s' : St} (h : OnlyNodes s s') : s'.vnodes = s.vnodes := by
  rw [h]

theorem OnlyNodes.nextNode {s s' : St} (h : OnlyNodes s s') : s'.nextNode = s.nextNode := by
  rw [h]

theorem OnlyNodes.updNode {s s' : St} (h : OnlyNodes s s') (n : Nat) (f : RamNode → RamNode)
    : OnlyNodes s (s'.updNode n f) := by
  unfold OnlyNodes St.updNode
  dsimp only
  rw [h]

theorem OnlyNodes.setPrev {s s' : St} (h : OnlyNodes s s') (p prev : Ptr)
    : OnlyNodes s (s'.setPrev p prev) := by
  unfold St.setPrev
  split
  . apply h.updNode
  . apply h

theorem OnlyNodes.setNext {s s' : St} (h : OnlyNodes s s') (p next : Ptr)
    : OnlyNodes s (s'.setNext p next) := by
  unfold St.setNext
  split
  . apply h.updNode
  . apply h

theorem OnlyNodes.unchain {s s' : St} (h : OnlyNodes s s') (n : Nat)
    : OnlyNodes s (s'.unchain n) := by
  unfold St.unchain
  apply OnlyNodes.setPrev
  apply h.setNext

theorem OnlyNodes.inactive {s s' : St} (h : OnlyNodes s s') (n : Nat)
    : OnlyNodes s (s'.inactive n) := by
  unfold St.inactive
  dsimp only
  split
  . unfold St.freeNode
    apply OnlyNodes.updNode
    apply OnlyNodes.setPrev
    apply h.updNode
  . apply h.updNode

def RamNode.unchained (node : RamNode) : RamNode :=
  { node with prev := .null, next := .null }

theorem St.setPrev_unchained (p prev : Ptr) (m : Nat)
    : ((s.setPrev p prev).nodes m).unchained = (s.nodes m).unchained := by
  unfold St.setPrev
  split
  . next n =>
    by_cases hm : m = n
    . subst hm
      rw [St.updNode_nodes_self]
      rfl
    . rw [St.updNode_nodes_of_ne hm]
  . rfl

theorem St.setNext_unchained (p next : Ptr) (m : Nat)
    : ((s.setNext p next).nodes m).unchained = (s.nodes m).unchained := by
  unfold St.setNext
  split
  . next n =>
    by_cases hm : m = n
    . subst hm
      rw [St.updNode_nodes_self]
      rfl
    . rw [St.updNode_nodes_of_ne hm]
  . rfl

theorem St.unchain_unchained (m : Nat) : ((s.unchain n).nodes m).unchained = (s.nodes m).unchained := by
  unfold St.unchain
  rw [St.setPrev_unchained, St.setNext_unchained]

def St.freshNode (s : St) (vfs : Nat) (dir : Option Nat) (type : VType) (link : Name) : RamNode :=
  { prev := if s.junk.prev s.nextNode then .wild else .null
    next := (s.vfss vfs).nodes
    vnode := none
    type
    ramlock := false
    linkcount := if type = .VDIR then 1 else 0
    dentry := []
    wild := s.junk.dentry s.nextNode
    parent := dir.getD s.nextNode
    lastseq := SEQ_START
    link
    freed := false }

theorem St.addNode_eq (vfs : Nat) (dir : Option Nat) (type : VType) (link : Name)
    : s.addNode vfs dir type link =
        { s with
          nodes := Function.update (s.setPrev (s.vfss vfs).nodes (.ref s.nextNode)).nodes s.nextNode
            (s.freshNode vfs dir type link)
          vfss := Function.update s.vfss vfs { s.vfss vfs with nodes := .ref s.nextNode }
          nextNode := s.nextNode + 1 } := by
  unfold St.addNode newNode after
  dsimp only
  unfold St.setPrev St.freshNode
  split
  . next n hn =>
    simp only [St.updNode, hn]
    rfl
  . rfl

theorem St.addNode_nodes_self (vfs : Nat) (dir : Option Nat) (type : VType) (link : Name)
    : (s.addNode vfs dir type link).nodes s.nextNode = s.freshNode vfs dir type link := by
  rw [St.addNode_eq]
  simp

theorem St.addNode_unchained (vfs : Nat) (dir : Option Nat) (type : VType) (link : Name) {m : Nat}
    (hm : m ≠ s.nextNode)
    : ((s.addNode vfs dir type link).nodes m).unchained = (s.nodes m).unchained := by
  rw [St.addNode_eq]
  simp only [Function.update_of_ne hm]
  apply St.setPrev_unchained

theorem wp_ramfs_mount {R : Code → St → Prop} {P : String → Prop} (vfs : Nat)
    (h : R none (s.addRoot vfs)) : wp (ramfs_mount vfs) R (Halts s P) s := by
  unfold ramfs_mount
  rw [wp_bind, wp_getSt, wp_bind, wp_setVfs]
  cases hjunk : s.junk.nodes vfs with
  | true =>
    unfold ramfs_alloc_node
    rw [wp_bind, wp_bind, wp_getSt, wp_bind]
    simp only [Function.update_self, if_true]
    exact .of_ne (by simp)
  | false =>
    apply wp_bind_mono
    . apply wp_ramfs_alloc_node (P := P) (R := fun r s' => r = s.nextNode ∧ s' = St.addNode _ _ _ _ _)
      exact ⟨rfl, rfl⟩
    . intro e s1 hs1
      apply hs1.mono rfl (fun _ h => h)
    . intro r s1 hs1
      rcases hs1 with ⟨rfl, rfl⟩
      rw [wp_bind, wp_setNode, wp_bind, wp_setVfs, wp_pure, St.addNode_eq]
      unfold St.addRoot at h
      simpa [St.setPrev, St.freshNode] using h

theorem St.newFile_nodes_self (vfs : Nat) (name : Name) (type : VType) (link : Name) {d : Nat}
    (hd : d ≠ s.nextNode)
    : (s.newFile vfs d name type link).nodes s.nextNode =
        { s.freshNode vfs (some d) type link with
          linkcount := (if type = .VDIR then 1 else 0) + 1 } := by
  unfold St.newFile St.attach St.addLink
  rw [St.updNode_nodes_of_ne (Ne.symm hd), St.updNode_nodes_self, St.addNode_nodes_self]
  rfl

theorem St.newFile_nextVnode (vfs d : Nat) (name : Name) (type : VType) (link : Name)
    : (s.newFile vfs d name type link).nextVnode = s.nextVnode := by
  unfold St.newFile St.attach St.addLink
  rw [St.addNode_eq]
  rfl

end Static

section Files

variable {s : St} {vdir vn : Nat} {R : Code → St → Prop} {P : String → Prop}

theorem wp_ramfs_link (name : Name) (hvdir : (s.vnodes vdir).freed = false)
    (hvn : (s.vnodes vn).freed = false)
    (hdir : ((s.addLink (s.vnodes vn).data).nodes (s.vnodes vdir).data).type = .VDIR)
    (h : R none (s.hardLink (s.vnodes vdir).data (s.vnodes vn).data name))
    : wp (ramfs_link vdir vn name) R (Halts s P) s := by
  unfold ramfs_link
  rw [wp_bind, wp_getVnode]
  refine ⟨by simp [hvdir], ?_⟩
  intro _
  rw [wp_bind, wp_getVnode]
  refine ⟨by simp [hvn], ?_⟩
  intro _
  rw [wp_bind]
  apply wp_ramfs_alloc_dentry
  apply wp_bind_mono (wp_ramfs_dir_attach (P := P) _ hdir (R := fun _ s' =>
    s' = s.hardLink (s.vnodes vdir).data (s.vnodes vn).data name) rfl)
  . intro e s1 hs1
    apply hs1.mono rfl (fun _ h => h)
  . intro r s1 hs1
    rw [wp_pure, hs1]
    apply h

theorem wp_unlink_dentry {d : Nat} (de : RamDentry)
    (hP : (((s.unchain de.node).detach d de).nodes de.node).linkcount ≤ 0 →
      P "ramfs_free_dentry: linkcount <= 0")
    (h : 0 < (((s.unchain de.node).detach d de).nodes de.node).linkcount →
      R none (((s.unchain de.node).detach d de).dropLinks de.node 1))
    : wp (do
          unlinkNode de.node
          ramfs_dir_detach d de
          ramfs_free_dentry de
          pure (none : Code)) R (Halts s P) s := by
  have hvnodes : (s.unchain de.node).vnodes = s.vnodes := ((OnlyNodes.refl s).unchain de.node).vnodes
  apply wp_bind_of (wp_unlinkNode (Q := fun _ s' => s' = s.unchain de.node) rfl)
  intro _ s1 hs1
  subst hs1
  apply wp_bind_mono (wp_ramfs_dir_detach (P := P) de (Q := fun _ s' =>
    s' = (s.unchain de.node).detach d de) rfl)
  . intro e s2 hs2
    apply hs2.mono hvnodes (fun _ h => h)
  . intro _ s2 hs2
    subst hs2
    apply wp_bind_mono (wp_ramfs_free_dentry de hP (Q := fun _ s' =>
      R none s') h)
    . intro e s3 hs3
      apply hs3.mono hvnodes (fun _ h => h)
    . intro _ s3 hs3
      apply hs3

theorem name_eq_of_find {de : RamDentry} {name : Name} {entries : List RamDentry}
    (h : entries.find? (fun de => strcmp de.name name = 0) = some de)
    : de ∈ entries ∧ de.name = name := by
  refine ⟨List.mem_of_find?_eq_some h, ?_⟩
  have := List.find?_some h
  by_contra hne
  simp [strcmp, hne] at this

theorem wp_ramfs_remove (name : Name) (hvdir : (s.vnodes vdir).freed = false)
    (hvn : (s.vnodes vn).freed = false)
    (hmsg : (s.vnodes vn).type ≠ .VDIR → (s.vnodes vdir).type = .VDIR →
      ¬ s.FindsTarget vdir vn name → P "ramfs_remove: parent")
    (hP : ∀ de ∈ (s.nodes (s.vnodes vdir).data).dentry, (s.vnodes vn).type ≠ .VDIR →
      de.node = (s.vnodes vn).data →
      (((s.unchain de.node).detach (s.vnodes vdir).data de).nodes de.node).linkcount ≤ 0 →
      P "ramfs_free_dentry: linkcount <= 0")
    (hsame : ∀ e, R (some e) s)
    (hdone : ∀ de ∈ (s.nodes (s.vnodes vdir).data).dentry, (s.vnodes vn).type ≠ .VDIR →
      de.node = (s.vnodes vn).data → de.name = name →
      R none (s.unlinkFile (s.vnodes vdir).data de))
    : wp (ramfs_remove vdir vn name) R (Halts s P) s := by
  unfold ramfs_remove
  rw [wp_bind, wp_getVnode]
  refine ⟨by simp [hvdir], ?_⟩
  intro _
  rw [wp_bind, wp_getVnode]
  refine ⟨by simp [hvn], ?_⟩
  intro _
  split
  . apply hsame
  . next htype =>
    split
    . apply hsame
    . next hdir =>
      rw [not_not] at hdir
      have hpanic : ¬ s.FindsTarget vdir vn name → Halts s P (.panic "ramfs_remove: parent") s := by
        intro hnot
        refine ⟨rfl, ?_⟩
        intro msg heq
        rw [Stop.panic.injEq] at heq
        rw [← heq]
        apply hmsg htype hdir hnot
      unfold St.FindsTarget at hpanic
      apply wp_bind_of (wp_ramfs_dir_lookup (R := fun r s' => s' = s ∧
        r = (s.nodes (s.vnodes vdir).data).dentry.find? fun de => strcmp de.name name = 0)
          name (fun _ => ⟨rfl, rfl⟩))
      intro r s1 hs1
      rcases hs1 with ⟨rfl, hr⟩
      rw [← hr] at hpanic
      cases r with
      | none =>
        apply hpanic
        simp
      | some de =>
        rcases name_eq_of_find hr.symm with ⟨hmem, hname⟩
        dsimp only
        split
        . next hne =>
          apply hpanic
          simpa using hne
        . next hnode =>
          rw [not_not] at hnode
          rw [← hnode]
          apply wp_unlink_dentry
          . apply hP de hmem htype hnode
          . intro _
            apply hdone de hmem htype hnode hname

theorem St.dropLinks_dentry (s : St) (n m : Nat) (k : Int)
    : ((s.dropLinks n k).nodes m).dentry = (s.nodes m).dentry := by
  unfold St.dropLinks
  by_cases hm : m = n
  . rw [hm, St.updNode_nodes_self]
  . rw [St.updNode_nodes_of_ne hm]

theorem wp_ramfs_rmdir (name : Name) (len : Nat) (hvdir : (s.vnodes vdir).freed = false)
    (hvn : (s.vnodes vn).freed = false)
    (hmsg : ¬ (len = 2 ∧ name.take 2 = ['.', '.']) →
      (s.nodes (s.vnodes vn).data).parent = (s.vnodes vdir).data →
      (s.nodes (s.vnodes vn).data).dentry = [] ∧ (s.nodes (s.vnodes vn).data).wild = false →
      ¬ s.FindsTarget vdir vn name → P "ramfs_rmdir: node")
    (hparent : ¬ (len = 2 ∧ name.take 2 = ['.', '.']) →
      (s.nodes (s.vnodes vn).data).parent ≠ (s.vnodes vdir).data → P "ramfs_rmdir: parent")
    (hP : ∀ de ∈ ((s.dropLinks (s.vnodes vn).data 1).nodes (s.vnodes vdir).data).dentry,
      (s.nodes (s.vnodes vn).data).parent = (s.vnodes vdir).data → de.node = (s.vnodes vn).data →
      ((((s.dropLinks de.node 1).unchain de.node).detach (s.vnodes vdir).data de).nodes
        de.node).linkcount ≤ 0 → P "ramfs_free_dentry: linkcount <= 0")
    (hsame : ∀ e, R (some e) s)
    (hdone : ∀ de ∈ ((s.dropLinks (s.vnodes vn).data 1).nodes (s.vnodes vdir).data).dentry,
      (s.nodes (s.vnodes vn).data).parent = (s.vnodes vdir).data →
      (s.nodes (s.vnodes vn).data).dentry = [] → de.node = (s.vnodes vn).data → de.name = name →
      R none (s.unlinkDir (s.vnodes vdir).data de))
    : wp (ramfs_rmdir vdir vn name len) R (Halts s P) s := by
  unfold ramfs_rmdir
  rw [wp_bind, wp_getVnode]
  refine ⟨by simp [hvdir], ?_⟩
  intro _
  rw [wp_bind, wp_getVnode]
  refine ⟨by simp [hvn], ?_⟩
  intro _
  split
  . apply hsame
  . next hdots =>
    rw [wp_bind, wp_acquireNode_iff]
    refine ⟨fun _ => .of_ne (by simp), ?_⟩
    intro hlock
    rw [wp_bind, wp_getNode]
    simp only [St.updNode_nodes_self]
    split
    . next hne =>
      refine ⟨rfl, ?_⟩
      intro msg heq
      rw [Stop.panic.injEq] at heq
      rw [← heq]
      apply hparent hdots hne
    . next heq =>
      rw [not_not] at heq
      split
      . rw [wp_bind, wp_releaseNode_iff, wp_pure, St.updNode_updNode, St.updNode_eq_self]
        . apply hsame
        . dsimp only [Function.comp_apply]
          rw [← hlock]
      . next hempty =>
        rw [not_or, not_not] at hempty
        rw [wp_bind, wp_setNode_iff, wp_bind, wp_releaseNode_iff, St.updNode_updNode,
          St.updNode_updNode]
        change wp _ R (Halts s P) (s.dropLinks (s.vnodes vn).data 1)
        have hpanic : ¬ s.FindsTarget vdir vn name →
            Halts s P (.panic "ramfs_rmdir: node") (s.dropLinks (s.vnodes vn).data 1) := by
          intro hnot
          refine ⟨rfl, ?_⟩
          intro msg heq'
          rw [Stop.panic.injEq] at heq'
          rw [← heq']
          apply hmsg hdots heq _ hnot
          rw [Bool.not_eq_true] at hempty
          apply hempty
        unfold St.FindsTarget at hpanic
        rw [← s.dropLinks_dentry (s.vnodes vn).data _ 1] at hpanic
        apply wp_bind_mono (wp_ramfs_dir_lookup (P := P) (R := fun r s' =>
          s' = s.dropLinks (s.vnodes vn).data 1 ∧
          r = ((s.dropLinks (s.vnodes vn).data 1).nodes (s.vnodes vdir).data).dentry.find?
            fun de => strcmp de.name name = 0) name (fun _ => ⟨rfl, rfl⟩))
        . intro e s1 hs1
          apply hs1.mono rfl (fun _ h => h)
        . intro r s1 hs1
          rcases hs1 with ⟨rfl, hr⟩
          rw [← hr] at hpanic
          cases r with
          | none =>
            apply hpanic
            simp
          | some de =>
            rcases name_eq_of_find hr.symm with ⟨hmem, hname⟩
            dsimp only
            split
            . next hne =>
              apply hpanic
              simpa using hne
            . next hnode =>
              rw [not_not] at hnode
              rw [← hnode]
              apply wp_mono (wp_unlink_dentry (P := P) (R := R) de _ _)
              . intro r s1 hs1
                apply hs1
              . intro e s1 hs1
                apply hs1.mono rfl (fun _ h => h)
              . apply hP de hmem heq hnode
              . intro _
                apply hdone de hmem heq hempty.1 hnode hname

theorem wp_ramfs_alloc_file {R : Code × Option Nat → St → Prop} (name : Name) (len : Nat)
    (type : VType) (target : Option Name) (hvdir : (s.vnodes vdir).freed = false)
    (hlt : (s.vnodes vdir).data ≠ s.nextNode)
    (htype : (s.vnodes vdir).type = .VDIR → (s.nodes (s.vnodes vdir).data).type = .VDIR)
    (hsame : R (some .EINVAL, none) s)
    (hdone : (s.vnodes vdir).type = .VDIR → R (none, some s.nextVnode)
      ((s.newFile (s.vnodes vdir).vfs (s.vnodes vdir).data (strldup name len) type
        (target.getD [])).vnew (s.vnodes vdir).vfs s.nextNode))
    : wp (ramfs_alloc_file vdir name len type target) R (Halts s P) s := by
  unfold ramfs_alloc_file
  rw [wp_bind, wp_getVnode]
  refine ⟨by simp [hvdir], ?_⟩
  intro _
  dsimp only
  split
  . apply hsame
  . next hcond =>
    rw [not_or, not_not] at hcond
    have hvnodes : (s.addNode (s.vnodes vdir).vfs (some (s.vnodes vdir).data) type
        (target.getD [])).vnodes = s.vnodes := by
      rw [St.addNode_eq]
    have hdirtype : (((s.addNode (s.vnodes vdir).vfs (some (s.vnodes vdir).data) type
        (target.getD [])).addLink s.nextNode).nodes (s.vnodes vdir).data).type = .VDIR := by
      unfold St.addLink
      rw [St.updNode_nodes_of_ne hlt, ← htype hcond.1]
      have := congrArg RamNode.type (s.addNode_unchained (s.vnodes vdir).vfs
        (some (s.vnodes vdir).data) type (target.getD []) hlt)
      exact this
    rw [wp_bind]
    apply wp_ramfs_alloc_node
    apply wp_bind_mono (wp_ramfs_alloc_dentry (P := P) _ (R := fun de s' =>
      de = { name := strldup name len, node := s.nextNode, seq := 0 } ∧
      s' = (s.addNode (s.vnodes vdir).vfs (some (s.vnodes vdir).data) type
        (target.getD [])).addLink s.nextNode) ⟨rfl, rfl⟩)
    . intro e s1 hs1
      apply hs1.mono hvnodes (fun _ h => h)
    . intro de s1 hs1
      rcases hs1 with ⟨rfl, rfl⟩
      apply wp_bind_mono (wp_ramfs_dir_attach (P := P) _ hdirtype (R := fun _ s' =>
        s' = s.newFile (s.vnodes vdir).vfs (s.vnodes vdir).data (strldup name len) type
          (target.getD [])) rfl)
      . intro e s1 hs1
        apply hs1.mono hvnodes (fun _ h => h)
      . intro _ s1 hs1
        subst hs1
        have hnode := s.newFile_nodes_self (s.vnodes vdir).vfs (strldup name len) type (target.getD []) hlt
        rw [wp_bind]
        apply wp_ramfs_vget_none
        . rw [hnode]
          intro hfreed
          cases hfreed
        . rw [hnode]
          rfl
        . rw [hnode]
          rfl
        . rw [St.newFile_nextVnode]
          apply hdone hcond.1

end Files

end Fs
end Franklin
