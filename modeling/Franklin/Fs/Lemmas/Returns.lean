import Franklin.Fs.Lemmas.Refused

/-!
This module contains that the operations of `ramfs.c` return in a state in which no lock of a ramnode is
held and no list of ramnodes is corrupt.
-/

namespace Franklin
namespace Fs

structure Ready (s : St) : Prop where
  ramlock : ∀ n, (s.nodes n).ramlock = false
  nodes : ∀ v, (s.vfss v).nodes.Sound s

section Ready

variable {s st : St} {n d v vfs len : Nat} {f : RamNode → RamNode} {type : VType} {name : Name}
  {target : Option Name} {E : Stop → St → Prop}

theorem Ptr.Sound.of_freed {p : Ptr} (h : p.Sound st)
    (hfreed : ∀ n, (st.nodes n).freed = false → (s.nodes n).freed = false) : p.Sound s := by
  cases p with
  | null => trivial
  | ref n => exact hfreed n h
  | wild => exact h

theorem Quiet.ready (h : Quiet s) (hnodes : ∀ v, (s.vfss v).nodes.Sound s) : Ready s :=
  ⟨h.ramlock, hnodes⟩

theorem Walked.alive_of_quiet {held : List (Nat × Loc)} {vl nl : List Nat} (h : Walked st s held vl nl)
    (hquiet : Quiet st) (hn : (st.nodes n).freed = false) : (s.nodes n).freed = false := by
  cases h.freed n with
  | inl heq => rw [heq, hn]
  | inr hnew =>
    rw [hquiet.idle n hnew.2.2 hnew.2.1] at hn
    cases hn

theorem Walked.ready {held : List (Nat × Loc)} {vl : List Nat} (h : Walked st s held vl [])
    (hquiet : Quiet st) (hready : Ready st) : Ready s where
  ramlock n := by
    rw [h.ramlock, hready.ramlock]
    rfl
  nodes v := by
    rw [h.same.vfss]
    apply (hready.nodes v).of_freed
    intro n hn
    exact h.alive_of_quiet hquiet hn

theorem Ready.updNode (h : Ready s) (hlock : (f (s.nodes n)).ramlock = false)
    (hfreed : (f (s.nodes n)).freed = (s.nodes n).freed) : Ready (s.updNode n f) where
  ramlock m := by
    by_cases hm : m = n
    . rw [hm, St.updNode_nodes_self, hlock]
    . rw [St.updNode_nodes_of_ne hm, h.ramlock]
  nodes v := by
    apply (h.nodes v).of_freed
    intro m hm
    by_cases heq : m = n
    . rw [heq, St.updNode_nodes_self, hfreed, ← heq, hm]
    . rw [St.updNode_nodes_of_ne heq, hm]

theorem Ready.setPrev (h : Ready s) (p prev : Ptr) : Ready (s.setPrev p prev) := by
  unfold St.setPrev
  split
  . next m => exact h.updNode (h.ramlock m) rfl
  . apply h

theorem Ready.addNode (h : Ready s) (vfs : Nat) (dir : Option Nat) (type : VType) (link : Name)
    : Ready (s.addNode vfs dir type link) := by
  have hprev := h.setPrev (s.vfss vfs).nodes (.ref s.nextNode)
  have hvfss : (s.setPrev (s.vfss vfs).nodes (.ref s.nextNode)).vfss = s.vfss := by
    unfold St.setPrev
    split <;> rfl
  rw [St.addNode_eq]
  constructor
  . intro m
    dsimp only
    by_cases hm : m = s.nextNode
    . rw [hm, Function.update_self]
      rfl
    . rw [Function.update_of_ne hm, hprev.ramlock]
  . intro v
    dsimp only
    by_cases hv : v = vfs
    . rw [hv, Function.update_self]
      unfold Ptr.Sound
      dsimp only
      rw [Function.update_self]
      rfl
    . have hold := hprev.nodes v
      rw [hvfss] at hold
      rw [Function.update_of_ne hv]
      apply hold.of_freed
      intro m hm
      dsimp only
      by_cases heq : m = s.nextNode
      . rw [heq, Function.update_self]
        rfl
      . rw [Function.update_of_ne heq, hm]

theorem Ready.vnew (h : Ready s) (vfs n : Nat) : Ready (s.vnew vfs n) := by
  have hset : Ready (s.updNode n fun node => { node with vnode := some s.nextVnode, ramlock := false }) :=
    h.updNode rfl rfl
  exact ⟨hset.ramlock, fun v => hset.nodes v⟩

theorem wp_ramfs_alloc_node_ready (h : Ready s) {dir : Option Nat} (hlink : type = .VLNK → target.isSome)
    : wp (ramfs_alloc_node vfs dir type target)
        (fun n s' => n = s.nextNode ∧ s' = s.addNode vfs dir type (target.getD [])) E s := by
  have hnext : (s.setPrev (s.vfss vfs).nodes (.ref s.nextNode)).nextNode = s.nextNode := by
    unfold St.setPrev
    split <;> rfl
  have hprev : wp (setPrev (s.vfss vfs).nodes (.ref s.nextNode))
      (fun _ s' => s' = s.setPrev (s.vfss vfs).nodes (.ref s.nextNode)) E s := by
    have hsound := h.nodes vfs
    cases hptr : (s.vfss vfs).nodes with
    | null => rfl
    | ref m =>
      rw [hptr] at hsound
      have hlive : (s.nodes m).freed = false := hsound
      unfold Fs.setPrev
      rw [wp_bind, wp_deref]
      refine ⟨by simp [hlive], ?_⟩
      intro _
      rfl
    | wild =>
      rw [hptr] at hsound
      exact hsound.elim
  unfold ramfs_alloc_node
  rw [wp_bind, wp_getSt]
  apply wp_bind_of hprev
  intro _ s1 hs1
  subst hs1
  rw [if_neg]
  . refine ⟨hnext, ?_⟩
    rfl
  . rintro ⟨htype, hnone⟩
    have := hlink htype
    rw [hnone] at this
    cases this

theorem wp_ramfs_alloc_dentry_ready (hram : ∀ n, (s.nodes n).ramlock = false)
    : wp (ramfs_alloc_dentry n name)
        (fun de s' => de = { name, node := n, seq := 0 } ∧ s' = s.addLink n) E s := by
  unfold ramfs_alloc_dentry
  rw [wp_bind, wp_acquireNode_iff]
  refine ⟨by simp [hram], ?_⟩
  intro _
  rw [wp_bind, wp_setNode_iff, wp_bind, wp_releaseNode_iff, wp_pure, St.updNode_updNode,
    St.updNode_updNode]
  exact ⟨rfl, rfl⟩

theorem St.addLink_ramlock (h : ∀ n, (s.nodes n).ramlock = false) (m : Nat)
    : ∀ n, ((s.addLink m).nodes n).ramlock = false := by
  intro n
  unfold St.addLink
  by_cases hn : n = m
  . rw [hn, St.updNode_nodes_self]
  . rw [St.updNode_nodes_of_ne hn, h]

theorem Ready.addLink (h : Ready s) (n : Nat) : Ready (s.addLink n) :=
  h.updNode rfl rfl

theorem Ready.attach (h : Ready s) (d : Nat) (de : RamDentry) : Ready (s.attach d de) :=
  h.updNode rfl rfl

theorem wp_ramfs_dir_attach_ready (hram : ∀ n, (s.nodes n).ramlock = false) (de : RamDentry)
    : wp (ramfs_dir_attach d de)
        (fun _ s' => s' = if (s.nodes d).type = .VDIR then s.attach d de else s) E s := by
  have hback : (s.updNode d fun node => { node with ramlock := true }).updNode d
      (fun node => { node with ramlock := false }) = s := by
    rw [St.updNode_updNode]
    apply St.updNode_eq_self
    dsimp only [Function.comp_apply]
    rw [← hram d]
  unfold ramfs_dir_attach
  rw [wp_bind, wp_acquireNode_iff]
  refine ⟨by simp [hram], ?_⟩
  intro _
  rw [wp_bind, wp_getNode]
  simp only [St.updNode_nodes_self]
  split
  . next hdir =>
    rw [wp_bind, wp_releaseNode_iff, wp_pure, hback]
  . next hdir =>
    rw [not_not] at hdir
    rw [if_pos hdir, wp_bind, wp_setNode_iff, wp_bind, wp_releaseNode_iff, wp_pure, St.updNode_updNode,
      St.updNode_updNode]
    rfl

theorem St.attach_vnode (de : RamDentry) (m : Nat)
    : ((s.attach d de).nodes m).vnode = (s.nodes m).vnode ∧
        ((s.attach d de).nodes m).freed = (s.nodes m).freed := by
  unfold St.attach
  by_cases hm : m = d
  . rw [hm, St.updNode_nodes_self]
    exact ⟨rfl, rfl⟩
  . rw [St.updNode_nodes_of_ne hm]
    exact ⟨rfl, rfl⟩

def St.withFile (s : St) (vfs d : Nat) (name : Name) (type : VType) (link : Name) : St :=
  let s1 := (s.addNode vfs (some d) type link).addLink s.nextNode
  let s2 := if (s1.nodes d).type = .VDIR then s1.attach d { name, node := s.nextNode, seq := 0 } else s1
  s2.vnew vfs s.nextNode

theorem wp_ramfs_alloc_file_ready (h : Ready s) (hfreed : (s.vnodes d).freed = false)
    (hdir : (s.vnodes d).type = .VDIR) (htarget : target.isSome ↔ type = .VLNK)
    : wp (ramfs_alloc_file d name len type target)
        (fun r s' => r = (none, some s.nextVnode) ∧ Ready s' ∧
          s' = s.withFile (s.vnodes d).vfs (s.vnodes d).data (strldup name len) type (target.getD []))
        (fun _ _ => False) s := by
  unfold ramfs_alloc_file
  rw [wp_bind, wp_getVnode]
  refine ⟨by simp [hfreed], ?_⟩
  intro _
  dsimp only
  rw [if_neg]
  . apply wp_bind_of (wp_ramfs_alloc_node_ready h htarget.mpr)
    intro n s1 hs1
    rcases hs1 with ⟨rfl, rfl⟩
    have hready := h.addNode (s.vnodes d).vfs (some (s.vnodes d).data) type (target.getD [])
    apply wp_bind_of (wp_ramfs_alloc_dentry_ready hready.ramlock)
    intro de s2 hs2
    rcases hs2 with ⟨rfl, rfl⟩
    have hready2 := hready.addLink s.nextNode
    apply wp_bind_of (wp_ramfs_dir_attach_ready hready2.ramlock _)
    intro _ s3 hs3
    have hready3 : Ready s3 := by
      rw [hs3]
      split
      . apply hready2.attach
      . apply hready2
    have hnext : s3.nextVnode = s.nextVnode := by
      rw [hs3]
      split
      . unfold St.attach St.addLink St.updNode
        rw [St.addNode_eq]
      . unfold St.addLink St.updNode
        rw [St.addNode_eq]
    have hvnode : (s3.nodes s.nextNode).vnode = none ∧ (s3.nodes s.nextNode).freed = false := by
      have hlink : (((s.addNode (s.vnodes d).vfs (some (s.vnodes d).data) type
          (target.getD [])).addLink s.nextNode).nodes s.nextNode).vnode = none ∧
          (((s.addNode (s.vnodes d).vfs (some (s.vnodes d).data) type
          (target.getD [])).addLink s.nextNode).nodes s.nextNode).freed = false := by
        unfold St.addLink
        rw [St.updNode_nodes_self, St.addNode_nodes_self]
        exact ⟨rfl, rfl⟩
      rw [hs3]
      split
      . rw [(St.attach_vnode _ _).1, (St.attach_vnode _ _).2]
        apply hlink
      . apply hlink
    rw [wp_bind]
    apply wp_ramfs_vget_none (by simp [hvnode.2]) hvnode.1 (hready3.ramlock _)
    rw [wp_pure, hnext]
    refine ⟨rfl, hready3.vnew _ _, ?_⟩
    unfold St.withFile
    rw [hs3]
  . rw [not_or, not_not, not_and, not_not]
    exact ⟨hdir, htarget.mp⟩

theorem wp_ramfs_link_ready (hram : ∀ n, (s.nodes n).ramlock = false) (hd : (s.vnodes d).freed = false)
    (hv : (s.vnodes v).freed = false) (hdir : (s.nodes (s.vnodes d).data).type = .VDIR)
    : wp (ramfs_link d v name)
        (fun r s' => r = none ∧ s' = s.hardLink (s.vnodes d).data (s.vnodes v).data name)
        (fun _ _ => False) s := by
  have htype : ((s.addLink (s.vnodes v).data).nodes (s.vnodes d).data).type = .VDIR := by
    unfold St.addLink
    by_cases heq : (s.vnodes d).data = (s.vnodes v).data
    . rw [heq, St.updNode_nodes_self, ← heq, hdir]
    . rw [St.updNode_nodes_of_ne heq, hdir]
  unfold ramfs_link
  rw [wp_bind, wp_getVnode]
  refine ⟨by simp [hd], ?_⟩
  intro _
  rw [wp_bind, wp_getVnode]
  refine ⟨by simp [hv], ?_⟩
  intro _
  apply wp_bind_of (wp_ramfs_alloc_dentry_ready hram)
  intro de s1 hs1
  rcases hs1 with ⟨rfl, rfl⟩
  apply wp_bind_of (wp_ramfs_dir_attach_ready (St.addLink_ramlock hram _) _)
  intro _ s2 hs2
  rw [if_pos htype] at hs2
  exact ⟨rfl, hs2⟩

theorem St.addLink_secure {m : Nat} (h : Secure s m) : Secure (s.addLink n) m := by
  unfold Secure St.addLink
  by_cases hm : m = n
  . rw [hm, St.updNode_nodes_self, ← hm]
    have := h.2
    exact ⟨h.1, by dsimp only; omega⟩
  . rw [St.updNode_nodes_of_ne hm]
    apply h

theorem St.attach_secure {m : Nat} (h : Secure s m) (de : RamDentry) : Secure (s.attach d de) m := by
  unfold Secure St.attach
  by_cases hm : m = d
  . rw [hm, St.updNode_nodes_self, ← hm]
    have := h.2
    exact ⟨h.1, by dsimp only; omega⟩
  . rw [St.updNode_nodes_of_ne hm]
    apply h

theorem St.withFile_secure {m : Nat} {link : Name} (h : Secure s m) (hm : m ≠ s.nextNode)
    : Secure (s.withFile vfs d name type link) m := by
  have hadd : Secure (s.addNode vfs (some d) type link) m := by
    have hnode := s.addNode_unchained vfs (some d) type link hm
    have hfreed := congrArg RamNode.freed hnode
    have hcount := congrArg RamNode.linkcount hnode
    change ((s.addNode vfs (some d) type link).nodes m).freed = (s.nodes m).freed at hfreed
    change ((s.addNode vfs (some d) type link).nodes m).linkcount = (s.nodes m).linkcount at hcount
    unfold Secure
    rw [hfreed, hcount]
    apply h
  have hvnew : ∀ s2 : St, Secure s2 m → Secure (s2.vnew vfs s.nextNode) m := by
    intro s2 hs2
    unfold Secure St.vnew
    dsimp only
    rw [St.updNode_nodes_of_ne hm]
    apply hs2
  unfold St.withFile
  apply hvnew
  split
  . apply St.attach_secure (St.addLink_secure hadd)
  . apply St.addLink_secure hadd

theorem St.close_secure {m : Nat} (h : Secure s m) : Secure (s.close v) m := by
  have hnode := Forest.close_nodes (s := s) (v := v) m
  have hfreed := congrArg RamNode.freed hnode
  have hcount := congrArg RamNode.linkcount hnode
  change ((s.close v).nodes m).freed = _ at hfreed
  change ((s.close v).nodes m).linkcount = _ at hcount
  have hpos := h.2
  unfold Secure
  rw [hfreed, hcount]
  split
  . refine ⟨?_, hpos⟩
    change ((s.nodes m).freed || decide ((s.nodes m).linkcount = 0)) = false
    rw [h.1, decide_eq_false (by omega)]
    rfl
  . exact h

theorem St.close_ramlock (h : ∀ n, (s.nodes n).ramlock = false) (m : Nat)
    : ((s.close v).nodes m).ramlock = false := by
  have hlock := congrArg RamNode.ramlock (Forest.close_nodes (s := s) (v := v) m)
  change ((s.close v).nodes m).ramlock = _ at hlock
  rw [hlock]
  split
  . rfl
  . apply h

theorem St.withFile_vnodes (s : St) (vfs d : Nat) (name : Name) (type : VType) (link : Name)
    : (s.withFile vfs d name type link).nextVnode = s.nextVnode + 1 ∧
        ((s.withFile vfs d name type link).vnodes s.nextVnode).freed = false ∧
        ((s.withFile vfs d name type link).vnodes s.nextVnode).refcount = 1 ∧
        ∀ w, w ≠ s.nextVnode → (s.withFile vfs d name type link).vnodes w = s.vnodes w := by
  have hsame : ∀ s2 : St, s2.nextVnode = s.nextVnode → s2.vnodes = s.vnodes →
      (s2.vnew vfs s.nextNode).nextVnode = s.nextVnode + 1 ∧
        ((s2.vnew vfs s.nextNode).vnodes s.nextVnode).freed = false ∧
        ((s2.vnew vfs s.nextNode).vnodes s.nextVnode).refcount = 1 ∧
        ∀ w, w ≠ s.nextVnode → (s2.vnew vfs s.nextNode).vnodes w = s.vnodes w := by
    intro s2 hnext hvnodes
    unfold St.vnew
    dsimp only
    rw [hnext, hvnodes]
    refine ⟨rfl, by simp, by simp, ?_⟩
    intro w hw
    rw [Function.update_of_ne hw]
  unfold St.withFile
  dsimp only
  apply hsame
  . split
    . unfold St.attach St.addLink St.updNode
      rw [St.addNode_eq]
    . unfold St.addLink St.updNode
      rw [St.addNode_eq]
  . split
    . unfold St.attach St.addLink St.updNode
      rw [St.addNode_eq]
    . unfold St.addLink St.updNode
      rw [St.addNode_eq]

end Ready

end Fs
end Franklin
