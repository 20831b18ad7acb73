import Franklin.Fs.Lemmas.Tree
import Franklin.Lib.DList

/-!
This module contains when the list of all nodes of a file system is kept in order.
-/

namespace Franklin
namespace Fs

/--
The list that starts at `ram->nodes` has the ramnodes `l`. Every one links back to the one before it, and
the first one to NULL.
-/
def Linked (s : St) (l : List Nat) : Prop :=
  DList .null .ref (fun n => (s.nodes n).prev) (fun n => (s.nodes n).next) .null (s.vfss 0).nodes l

/--
The list has every ramnode that has a dentry, and the root, exactly once and none that was freed.
-/
def NodesListed (s : St) : Prop :=
  ∃ l, Linked s l ∧ l.Nodup ∧ (∀ n, n = (s.vfss 0).root ∨ HasDentry s n → n ∈ l) ∧
    ∀ n ∈ l, (s.nodes n).freed = false

/--
The operation does not run into a defect of the list: the member `prev` of a new ramnode happens to be
NULL, the ramnode that is taken out of the list is not the first one and has no other link, and the one
that is freed was not the neighbour of a ramnode that has got another one since.
-/
def Op.Orderly (s : St) : Op → Prop
  | create _ _ _ _ => s.junk.prev s.nextNode = false
  | mkdir _ _ _ => s.junk.prev s.nextNode = false
  | symlink _ _ _ _ => s.junk.prev s.nextNode = false
  | remove _ vn _ => (s.vnodes vn).type ≠ .VDIR →
    (s.vfss 0).nodes ≠ .ref (s.vnodes vn).data ∧ (s.nodes (s.vnodes vn).data).linkcount = 1
  | rmdir _ vn _ _ => (s.nodes (s.vnodes vn).data).dentry = [] →
    (s.vfss 0).nodes ≠ .ref (s.vnodes vn).data
  | close v => (s.vnodes v).refcount = 1 → (s.nodes (s.vnodes v).data).linkcount = 0 →
    ∀ y, (s.nodes (s.vnodes v).data).next = .ref y → y = (s.vfss 0).root ∨ HasDentry s y →
      (s.nodes y).prev = (s.nodes (s.vnodes v).data).prev
  | _ => True

structure Chained (s : St) : Prop where
  tree : Tree s
  vfs : ∀ v, v < s.nextVnode → (s.vnodes v).freed = false → (s.vnodes v).vfs = 0
  chain : ∃ l, Linked s l ∧ l.Nodup ∧ ∀ n, n ∈ l ↔ s.hier.Attached n

theorem Ptr.ref_injective : Function.Injective Ptr.ref := by
  intro m n h
  rw [Ptr.ref.injEq] at h
  apply h

theorem Ptr.ref_ne_null (n : Nat) : Ptr.ref n ≠ .null := by
  simp

theorem Linked.of_chains {s s' : St} {l : List Nat} (h : Linked s l) (hc : s'.chains = s.chains)
    : Linked s' l := by
  unfold St.chains at hc
  rw [Prod.mk.injEq] at hc
  unfold Linked
  rw [hc.2]
  apply h.congr
  . intro n _
    exact congrArg Prod.fst (congrFun hc.1 n)
  . intro n _
    exact congrArg Prod.snd (congrFun hc.1 n)

theorem St.chains_vnew (s : St) (vfs n : Nat) : (s.vnew vfs n).chains = s.chains :=
  Still.updNode (s := s) (n := n)
    (f := fun node => { node with vnode := some s.nextVnode, ramlock := false }) (by simp)

section Pointers

variable {s : St} (p q : Ptr) (m n : Nat)

theorem St.setNext_next
    : ((s.setNext p q).nodes m).next = if p = .ref m then q else (s.nodes m).next := by
  cases p with
  | null => simp [St.setNext]
  | wild => simp [St.setNext]
  | ref n =>
    unfold St.setNext
    by_cases hm : m = n
    . subst hm
      simp
    . simp [St.updNode_nodes_of_ne hm, Ne.symm hm]

theorem St.setNext_prev : ((s.setNext p q).nodes m).prev = (s.nodes m).prev := by
  unfold St.setNext
  split
  . next n =>
    by_cases hm : m = n
    . subst hm
      simp
    . rw [St.updNode_nodes_of_ne hm]
  . rfl

theorem St.setPrev_prev
    : ((s.setPrev p q).nodes m).prev = if p = .ref m then q else (s.nodes m).prev := by
  cases p with
  | null => simp [St.setPrev]
  | wild => simp [St.setPrev]
  | ref n =>
    unfold St.setPrev
    by_cases hm : m = n
    . subst hm
      simp
    . simp [St.updNode_nodes_of_ne hm, Ne.symm hm]

theorem St.setPrev_next : ((s.setPrev p q).nodes m).next = (s.nodes m).next := by
  unfold St.setPrev
  split
  . next n =>
    by_cases hm : m = n
    . subst hm
      simp
    . rw [St.updNode_nodes_of_ne hm]
  . rfl

theorem St.unchain_next
    : ((s.unchain n).nodes m).next =
        if (s.nodes n).prev = .ref m then (s.nodes n).next else (s.nodes m).next := by
  unfold St.unchain
  rw [St.setPrev_next, St.setNext_next]

theorem St.unchain_prev
    : ((s.unchain n).nodes m).prev =
        if (s.nodes n).next = .ref m then (s.nodes n).prev else (s.nodes m).prev := by
  have hnext : ((s.setNext (s.nodes n).prev (s.nodes n).next).nodes n).next = (s.nodes n).next := by
    rw [St.setNext_next]
    split <;> rfl
  unfold St.unchain
  dsimp only
  rw [St.setPrev_prev, St.setNext_prev, St.setNext_prev, hnext]

theorem St.chains_unchain {s s' : St} (h : s'.chains = s.chains)
    : (s'.unchain n).chains = (s.unchain n).chains := by
  unfold St.chains at *
  rw [Prod.mk.injEq] at *
  have hprev : ∀ m, (s'.nodes m).prev = (s.nodes m).prev := fun m =>
    congrArg Prod.fst (congrFun h.1 m)
  have hnext : ∀ m, (s'.nodes m).next = (s.nodes m).next := fun m =>
    congrArg Prod.snd (congrFun h.1 m)
  constructor
  . funext m
    simp only [St.unchain_next, St.unchain_prev, hprev, hnext]
  . rw [(OnlyNodes.refl s').unchain n, (OnlyNodes.refl s).unchain n]
    apply h.2

theorem St.inactive_next : ((s.inactive n).nodes m).next = (s.nodes m).next := by
  have hupd : ((s.updNode n fun node => { node with vnode := none, ramlock := false }).nodes m).next =
      (s.nodes m).next := by
    by_cases hm : m = n
    . subst hm
      rw [St.updNode_nodes_self]
    . rw [St.updNode_nodes_of_ne hm]
  unfold St.inactive
  dsimp only
  split
  . unfold St.freeNode
    rw [← hupd]
    by_cases hm : m = n
    . subst hm
      rw [St.updNode_nodes_self]
      dsimp only
      rw [St.setPrev_next]
    . rw [St.updNode_nodes_of_ne hm, St.setPrev_next]
  . apply hupd

theorem St.inactive_prev (hm : (s.nodes n).linkcount = 0 → m ≠ n)
    : ((s.inactive n).nodes m).prev =
        if (s.nodes n).linkcount = 0 ∧ (s.nodes n).next = .ref m then (s.nodes n).prev
        else (s.nodes m).prev := by
  unfold St.inactive
  dsimp only
  rw [St.updNode_nodes_self]
  split
  . next hcount =>
    dsimp only at hcount
    have hne := hm hcount
    unfold St.freeNode
    rw [St.updNode_nodes_of_ne hne, St.setPrev_prev, St.updNode_nodes_self, St.updNode_nodes_of_ne hne]
    simp [hcount]
  . next hcount =>
    dsimp only at hcount
    rw [if_neg (fun hand => hcount hand.1)]
    by_cases hmn : m = n
    . subst hmn
      rw [St.updNode_nodes_self]
    . rw [St.updNode_nodes_of_ne hmn]

end Pointers

namespace Chained

variable {s s' : St} {d n v : Nat}

theorem nodesListed (h : Chained s) : NodesListed s := by
  rcases h.chain with ⟨l, hl, hnodup, hmem⟩
  refine ⟨l, hl, hnodup, ?_, ?_⟩
  . intro n hn
    rw [hmem, h.tree.attached_iff]
    apply hn
  . intro n hn
    exact ((hmem n).mp hn).freed_eq h.tree.forest.wf

theorem of_same (h : Chained s) (htree : Tree s')
    (hvfs : ∀ v, v < s'.nextVnode → (s'.vnodes v).freed = false → (s'.vnodes v).vfs = 0)
    (hc : s'.chains = s.chains) (hattached : ∀ n, s'.hier.Attached n ↔ s.hier.Attached n)
    : Chained s' := by
  rcases h.chain with ⟨l, hl, hnodup, hmem⟩
  refine ⟨htree, hvfs, l, hl.of_chains hc, hnodup, ?_⟩
  intro n
  rw [hmem, hattached]

theorem walked {held : List (Nat × Loc)} (h : Chained s) (hw : Walked s s' held [] [])
    (hheld : ∀ v vfs n, (v, .new vfs n) ∈ held → s.hier.Attached n ∧ vfs = 0)
    (hc : s'.chains = s.chains) : Chained s' := by
  apply h.of_same _ _ hc
  . intro n
    rw [hw.hier, Hier.attached_free_iff (hw.hier_freed h.tree.forest.wf)]
  . exact h.tree.walked hw (fun v vfs n hmem => (hheld v vfs n hmem).1)
  . intro v hlt hfreed
    by_cases hold : v < s.nextVnode
    . rw [hw.old v hold] at hfreed ⊢
      apply h.vfs v hold hfreed
    . have hpos : 0 < refs held v := by
        by_contra hzero
        have := hw.dropped v (by omega) hlt (by omega)
        rw [this] at hfreed
        cases hfreed
      rcases refs_pos_iff.mp hpos with ⟨L, hL⟩
      rcases hw.heldNew v L hL (by omega) with ⟨_, vfs, n, rfl, hvn, _⟩
      rw [hvn]
      exact (hheld v vfs n hL).2

theorem hardLink (h : Chained s) (name : Name) (hd : s.hier.Attached d)
    (hdir : (s.nodes d).type = .VDIR) (hn : s.hier.Attached n) (hleaf : (s.nodes n).type ≠ .VDIR)
    : Chained (s.hardLink d n name) := by
  have hne : d ≠ n := by
    intro heq
    rw [heq] at hdir
    exact hleaf hdir
  apply h.of_same (h.tree.hardLink name hd hdir hn hleaf) h.vfs
  . unfold St.hardLink St.attach St.addLink
    rw [Still.updNode (by simp), Still.updNode (by simp)]
  . intro m
    rw [St.hier_hardLink name hne]
    apply Hier.attached_link hn

theorem newFile (h : Chained s) (name : Name) (type : VType) (link : Name) (hjunk : s.junk.prev s.nextNode = false)
    (hd : s.hier.Attached d) (hdir : (s.nodes d).type = .VDIR)
    : Chained (s.newFile 0 d name type link) := by
  have hlt : d < s.nextNode := hd.lt_next h.tree.forest.wf
  have hsame := SameVnodes.newFile (d := d) h.tree.forest.fresh 0 name type link
  have hc : (s.newFile 0 d name type link).chains = (s.addNode 0 (some d) type link).chains := by
    unfold St.newFile St.attach St.addLink
    rw [Still.updNode (by simp), Still.updNode (by simp)]
  rcases h.chain with ⟨l, hl, hnodup, hmem⟩
  have hfresh : s.nextNode ∉ l := by
    intro hin
    have := ((hmem _).mp hin).lt_next h.tree.forest.wf
    rw [St.hier_next] at this
    omega
  refine ⟨h.tree.newFile 0 name type link hd hdir, ?_, s.nextNode :: l, ?_, ?_, ?_⟩
  . rw [hsame.vnodes, hsame.nextVnode]
    apply h.vfs
  . apply Linked.of_chains _ hc
    unfold Linked
    rw [St.addNode_eq]
    simp only [Function.update_self]
    apply hl.push Ptr.ref_injective hnodup
    . simp [St.freshNode]
    . simp [St.freshNode, hjunk]
    . intro m hm
      have hne : m ≠ s.nextNode := fun heq => hfresh (heq ▸ hm)
      rw [Function.update_of_ne hne, St.setPrev_next]
    . intro m hm
      have hne : m ≠ s.nextNode := fun heq => hfresh (heq ▸ hm)
      rw [Function.update_of_ne hne, St.setPrev_prev]
  . exact List.nodup_cons.mpr ⟨hfresh, hnodup⟩
  . intro n
    rw [St.hier_newFile 0 name type link (by omega), List.mem_cons, hmem]
    by_cases hn : n = s.nextNode
    . subst hn
      refine ⟨?_, fun _ => Or.inl rfl⟩
      intro _
      refine Or.inr ⟨d, ?_⟩
      rw [Hier.entries_create h.tree.forest.wf hd, if_pos rfl]
      apply Multiset.mem_cons_self
    . rw [Hier.attached_create h.tree.forest.wf hd (by rw [St.hier_next]; exact hn)]
      simp [hn]

theorem of_unchain (h : Chained s) (htree : Tree s') (hs : SameVnodes s s') {x : Nat}
    (hhead : (s.vfss 0).nodes ≠ .ref x) (hx : s.hier.Attached x)
    (hc : s'.chains = (s.unchain x).chains)
    (hattached : ∀ n, s'.hier.Attached n ↔ s.hier.Attached n ∧ n ≠ x) : Chained s' := by
  rcases h.chain with ⟨l, hl, hnodup, hmem⟩
  refine ⟨htree, ?_, l.erase x, ?_, hnodup.erase x, ?_⟩
  . rw [hs.vnodes, hs.nextVnode]
    apply h.vfs
  . apply Linked.of_chains _ hc
    unfold Linked
    rw [(OnlyNodes.refl s).unchain x]
    apply hl.remove Ptr.ref_injective Ptr.ref_ne_null hnodup ((hmem x).mpr hx) hhead
    . intro m _
      apply St.unchain_next
    . intro m _
      apply St.unchain_prev
  . intro n
    rw [hnodup.mem_erase_iff, hmem, hattached, and_comm]

theorem unlinkFile (h : Chained s) {de : RamDentry} (hde : de ∈ (s.nodes d).dentry)
    (hleaf : (s.nodes de.node).type ≠ .VDIR) (hhead : (s.vfss 0).nodes ≠ .ref de.node)
    (hlast : (s.nodes de.node).linkcount = 1)
    : Chained (s.unlinkFile d de) := by
  have hmem := Forest.mem_entries hde
  have hisDir : (s.hier.node de.node).isDir = false := by
    simpa [St.hier_node, RamNode.hnode] using hleaf
  apply h.of_unchain (h.tree.unlinkFile hde hleaf) (SameVnodes.unlinkFile de) hhead (Or.inr ⟨d, hmem⟩)
  . unfold St.unlinkFile St.dropLinks St.detach
    rw [Still.updNode (by simp), Still.updNode (by simp)]
  . intro n
    rw [St.hier_unlinkFile hde (Hier.ne_of_mem h.tree.forest.wf hmem)]
    apply Hier.attached_unlink h.tree.forest.wf hmem (Or.inl ⟨hisDir, rfl⟩)
    intro _
    apply hlast

theorem unlinkDir (h : Chained s) {de : RamDentry} (hde : de ∈ (s.nodes d).dentry)
    (hdir : (s.nodes de.node).type = .VDIR) (hempty : (s.nodes de.node).dentry = [])
    (hhead : (s.vfss 0).nodes ≠ .ref de.node)
    : Chained (s.unlinkDir d de) := by
  have hmem := Forest.mem_entries hde
  have hisDir : (s.hier.node de.node).isDir = true := by
    simpa [St.hier_node, RamNode.hnode] using hdir
  apply h.of_unchain (h.tree.unlinkDir hde hdir hempty) (SameVnodes.unlinkDir de) hhead
    (Or.inr ⟨d, hmem⟩)
  . unfold St.unlinkDir St.dropLinks St.detach
    rw [Still.updNode (by simp), Still.updNode (by simp)]
    apply St.chains_unchain
    rw [Still.updNode (by simp)]
  . intro n
    rw [St.hier_unlinkDir hde (Hier.ne_of_mem h.tree.forest.wf hmem)]
    apply Hier.attached_unlink h.tree.forest.wf hmem (Or.inr ⟨hisDir, ?_, rfl⟩)
    . intro hleaf
      rw [hisDir] at hleaf
      cases hleaf
    . simp [St.hier_node, RamNode.hnode, hempty]

theorem close (h : Chained s) (hv : v < s.nextVnode) (hfreed : (s.vnodes v).freed = false)
    (horder : (Op.close v).Orderly s) : Chained (s.close v) := by
  rcases h.chain with ⟨l, hl, hnodup, hmem⟩
  have hvfss : (s.close v).vfss = s.vfss := by rw [Forest.close_same]
  refine ⟨h.tree.close hv hfreed, ?_, l, ?_, hnodup, ?_⟩
  . intro w hw hwfreed
    have hnext : (s.close v).nextVnode = s.nextVnode := by rw [Forest.close_same]
    rw [hnext] at hw
    rw [Forest.close_vnodes] at hwfreed ⊢
    split
    . next heq =>
      subst heq
      apply h.vfs w hw hfreed
    . next hne =>
      rw [if_neg hne] at hwfreed
      apply h.vfs w hw hwfreed
  . unfold Linked
    rw [hvfss]
    apply hl.congr
    . intro m hm
      have hattached := (hmem m).mp hm
      unfold St.close
      dsimp only
      split
      . next hlast =>
        have hne : (s.nodes (s.vnodes v).data).linkcount = 0 → m ≠ (s.vnodes v).data := by
          intro hcount heq
          apply h.tree.forest.close_freed (v := v) m _ hattached
          rw [heq]
          simp [hlast, hcount]
        dsimp only
        rw [St.inactive_prev _ _ hne]
        split
        . next hcond =>
          rw [horder (by omega) hcond.1 m hcond.2 (h.tree.attached_iff.mp hattached)]
        . rfl
      . rfl
    . intro m _
      unfold St.close
      dsimp only
      split
      . apply St.inactive_next
      . rfl
  . intro n
    rw [hmem, Forest.close_hier, Hier.attached_free_iff h.tree.forest.close_freed]

end Chained

theorem Loc.vfs_get {st : St} {v vfs vfs' n n' : Nat} (h : Loc.get st [.old v] vfs n = .new vfs' n')
    : vfs' = vfs := by
  unfold Loc.get at h
  split at h
  . simp at h
  . simp at h
    exact h.1.symm

theorem vfs_look {s : St} {vdir len vfs n : Nat} {name : Name}
    (h : Resolve.look s (.old vdir) name len = some (.ok (.new vfs n))) : vfs = (s.vnodes vdir).vfs := by
  unfold Resolve.look at h
  dsimp only at h
  split at h
  . cases h
  split at h
  . simp at h
  . split at h
    . simp at h
    . split at h
      . split at h
        . simp at h
        . simp only [Option.some.injEq, Except.ok.injEq] at h
          apply Loc.vfs_get h
      . split at h
        . split at h
          . simp at h
          . simp only [Option.some.injEq, Except.ok.injEq] at h
            apply Loc.vfs_get h
        . split at h
          . simp at h
          . simp at h

theorem Chained.of_booted (junk : Junk) : Chained (booted junk) := by
  have htree := Tree.of_booted junk
  have hroot : ((booted junk).vfss 0).root = 0 := by
    simp [booted, St.vnew, St.updNode, St.addRoot, St.empty]
  have hnode := booted_dentry junk
  refine ⟨htree, ?_, [0], ?_, by simp, ?_⟩
  . intro v hv _
    have : v = 0 := by
      simp [booted, St.vnew, St.updNode, St.addRoot, St.empty] at hv
      omega
    subst this
    simp [booted, St.vnew, St.updNode, St.addRoot, St.empty]
  . have hhead : ((booted junk).vfss 0).nodes = .ref 0 := by
      simp [booted, St.vnew, St.updNode, St.addRoot, St.empty]
    unfold Linked
    rw [hhead]
    apply DList.cons
    . simp [booted, St.vnew, St.updNode, St.addRoot, St.empty]
    . have hnext : ((booted junk).nodes 0).next = .null := by
        simp [booted, St.vnew, St.updNode, St.addRoot, St.empty]
      rw [hnext]
      apply DList.nil
  . intro n
    rw [htree.attached_iff, hroot, List.mem_singleton]
    simp [HasDentry, hnode]

namespace Op

variable {s : St}

theorem chained_root (h : Chained s)
    : wp root.run (fun _ s' => Chained s') (fun _ _ => True) s := by
  unfold run ramfs_root
  rw [wp_bind, wp_bind, wp_getVfs]
  apply wp_mono (wp_conj
    (wp_mono (Still.ramfs_vget s) (fun _ _ hs => hs) (fun _ _ _ => trivial))
    (wp_mono ((Walked.init s).wp_ramfs_vget h.tree.forest.inv (by simp) 0 (s.vfss 0).root)
      (fun _ _ hs => hs) (fun _ _ _ => trivial)))
  . intro v s1 hs1
    apply h.walked hs1.2.1 _ hs1.1
    intro w vfs n hmem
    rw [List.mem_singleton, Prod.mk.injEq, List.map_nil] at hmem
    have hnode := Loc.node_get h.tree.forest.inv [] 0 (s.vfss 0).root
    rw [← hmem.2] at hnode
    simp only [Loc.node] at hnode
    constructor
    . rw [hnode]
      apply h.tree.attached_iff.mpr (Or.inl rfl)
    . have hget := hmem.2.symm
      unfold Loc.get at hget
      split at hget
      . simp at hget
      . simp at hget
        exact hget.1.symm
  . simp

theorem chained_lookup {vdir len : Nat} {name : Name} (h : Chained s) (hv : InTree s vdir)
    : wp (lookup vdir name len).run (fun _ s' => Chained s') (fun _ _ => True) s := by
  unfold run
  rw [wp_bind]
  apply wp_mono (wp_conj
    (wp_mono (Still.ramfs_lookup s) (fun _ _ hs => hs) (fun _ _ _ => trivial))
    (wp_mono (h.tree.looked name len hv) (fun _ _ hs => hs) (fun _ _ _ => trivial)))
  . intro r s1 hs1
    rcases hs1 with ⟨hc, hlooked⟩
    generalize hlook : Resolve.look s (.old vdir) name len = looked at hlooked
    cases hlooked with
    | ok v V hw =>
      apply h.walked hw _ hc
      intro w vfs n hmem
      rw [List.mem_singleton, Prod.mk.injEq] at hmem
      rw [← hmem.2] at hlook
      refine ⟨h.tree.attached_look hv hlook, ?_⟩
      rw [vfs_look hlook, h.vfs vdir hv.1 hv.2.1]
    | notdir hw =>
      apply h.walked hw _ hc
      simp
    | missing hw =>
      apply h.walked hw _ hc
      simp
  . simp

theorem chained_close {v : Nat} (h : Chained s) (hv : v < s.nextVnode)
    (hfreed : (s.vnodes v).freed = false) (horder : (close v).Orderly s)
    : wp (close v).run (fun _ s' => Chained s') (fun _ _ => True) s := by
  unfold run
  rw [wp_bind]
  apply wp_mono (wp_vfs_close_iff (P := fun _ => True) (Q := fun _ s' => Chained s') hfreed
    (h.close hv hfreed horder))
  . intro _ s1 hs1
    apply hs1
  . simp

theorem chained_alloc_file {vdir len : Nat} {name : Name} {type : VType} {target : Option Name}
    (h : Chained s) (hv : InTree s vdir) (hjunk : s.junk.prev s.nextNode = false)
    : wp (ramfs_alloc_file vdir name len type target) (fun _ s' => Chained s') (fun _ _ => True) s := by
  have hattached := h.tree.attached hv
  have hlt : (s.vnodes vdir).data < s.nextNode := hattached.lt_next h.tree.forest.wf
  have htype := h.tree.forest.type_eq hv.1 hv.2.1
  apply wp_mono (wp_ramfs_alloc_file (P := fun _ => True) (R := fun _ s' => Chained s') name len type
    target hv.2.1 (by omega) (fun hdir => htype ▸ hdir) h _)
  . intro _ s1 hs1
    apply hs1
  . simp
  . intro hdir
    rw [htype] at hdir
    rw [h.vfs vdir hv.1 hv.2.1]
    have hfile := h.newFile (strldup name len) type (target.getD []) hjunk hattached hdir
    have hnode := s.newFile_nodes_self 0 (strldup name len) type (target.getD [])
      (d := (s.vnodes vdir).data) (by omega)
    apply hfile.walked (Forest.walked_vnew hfile.tree.forest.inv _ _ _ _)
    . intro w vfs n hmem
      rw [List.mem_singleton, Prod.mk.injEq, Loc.new.injEq] at hmem
      rw [hmem.2.2]
      refine ⟨Or.inr ⟨(s.vnodes vdir).data, ?_⟩, hmem.2.1⟩
      rw [St.hier_newFile _ _ _ _ (by omega), Hier.entries_create h.tree.forest.wf hattached,
        if_pos rfl]
      apply Multiset.mem_cons_self
    . apply St.chains_vnew
    . rw [hnode]
      rfl
    . rw [hnode]
      rfl
    . rw [hnode]
      rfl

theorem chained_link {vdir vn : Nat} {name : Name} (h : Chained s) (hop : (link vdir vn name).Allowed s)
    : wp (link vdir vn name).run (fun _ s' => Chained s') (fun _ _ => True) s := by
  rcases hop with ⟨hv, hvn, hdir, hleaf⟩
  rw [h.tree.forest.type_eq hv.1 hv.2.1] at hdir
  rw [h.tree.forest.type_eq hvn.1 hvn.2.1] at hleaf
  have hne : (s.vnodes vdir).data ≠ (s.vnodes vn).data := by
    intro heq
    rw [heq] at hdir
    exact hleaf hdir
  apply wp_mono (wp_ramfs_link (P := fun _ => True) (R := fun _ s' => Chained s') name hv.2.1 hvn.2.1 _
    (h.hardLink name (h.tree.attached hv) hdir (h.tree.attached hvn) hleaf))
  . intro _ s1 hs1
    apply hs1
  . simp
  . unfold St.addLink
    rw [St.updNode_nodes_of_ne hne]
    apply hdir

theorem chained_remove {vdir vn : Nat} {name : Name} (h : Chained s)
    (hop : (remove vdir vn name).Allowed s) (horder : (remove vdir vn name).Orderly s)
    : wp (remove vdir vn name).run (fun _ s' => Chained s') (fun _ _ => True) s := by
  rcases hop with ⟨hv, hvn⟩
  apply wp_mono (wp_ramfs_remove (P := fun _ => True) (R := fun _ s' => Chained s') name hv.2.1
    hvn.2.1 (fun _ _ _ => trivial) (fun _ _ _ _ _ => trivial) (fun _ => h) _)
  . intro _ s1 hs1
    apply hs1
  . simp
  . intro de hde hleaf hnode _
    rcases horder hleaf with ⟨hhead, hlast⟩
    rw [h.tree.forest.type_eq hvn.1 hvn.2.1, ← hnode] at hleaf
    rw [← hnode] at hhead hlast
    apply h.unlinkFile hde hleaf hhead hlast

theorem chained_rmdir {vdir vn len : Nat} {name : Name} (h : Chained s)
    (hop : (rmdir vdir vn name len).Allowed s) (horder : (rmdir vdir vn name len).Orderly s)
    : wp (rmdir vdir vn name len).run (fun _ s' => Chained s') (fun _ _ => True) s := by
  rcases hop with ⟨hv, hfinds, _, hdir⟩
  rcases h.tree.look_of_finds hv hfinds with ⟨_, hfreed⟩
  rw [h.tree.forest.type_eq hfinds.2.1 hfreed] at hdir
  apply wp_mono (wp_ramfs_rmdir (P := fun _ => True) (R := fun _ s' => Chained s') name len hv.2.1
    hfreed (fun _ _ _ _ => trivial) (fun _ _ => trivial) (fun _ _ _ _ _ => trivial) (fun _ => h) _)
  . intro _ s1 hs1
    apply hs1
  . simp
  . intro de hde _ hempty hnode _
    have hhead := horder hempty
    rw [← hnode] at hdir hempty hhead
    apply h.unlinkDir (mem_of_dropLinks hde) hdir hempty hhead

theorem chained {op : Op} (h : Chained s) (hop : op.Allowed s) (horder : op.Orderly s)
    : wp op.run (fun _ s' => Chained s') (fun _ _ => True) s := by
  cases op with
  | root => apply chained_root h
  | lookup vdir name len => apply chained_lookup h hop
  | close v => apply chained_close h hop.1 hop.2 horder
  | create vdir name len type =>
    unfold run ramfs_create
    rw [wp_bind]
    apply wp_mono (chained_alloc_file h hop horder) (fun _ _ hs => hs) (fun _ _ hs => hs)
  | mkdir vdir name len =>
    unfold run ramfs_mkdir
    rw [wp_bind]
    apply wp_mono (chained_alloc_file h hop horder) (fun _ _ hs => hs) (fun _ _ hs => hs)
  | symlink vdir target name len =>
    unfold run ramfs_symlink
    rw [wp_bind]
    apply wp_mono (chained_alloc_file h hop horder) (fun _ _ hs => hs) (fun _ _ hs => hs)
  | link vdir vn name => apply chained_link h hop
  | remove vdir vn name => apply chained_remove h hop horder
  | rmdir vdir vn name len => apply chained_rmdir h hop horder

theorem Reached.chained {junk : Junk} (h : Reached Orderly junk s) : Chained s := by
  induction h with
  | boot h =>
    have heq := (wp_of_ok h).mp (wp_boot junk)
    rw [heq]
    apply Chained.of_booted
  | step h hop hcond hrun ih => exact (wp_of_ok hrun).mp (Op.chained ih hop hcond)

end Op

/--
The list of all nodes is kept by operations that do not run into a defect.
-/
theorem nodes_listed_of_orderly {junk : Junk} {s : St} (h : Op.Reached Op.Orderly junk s)
    : NodesListed s :=
  h.chained.nodesListed

@[irreducible]
def oneFile : St :=
  after (Op.create 0 ['a'] 1 .VREG).run (after boot (.empty zeroed))

theorem oneFile_reached {C : St → Op → Prop}
    (hC : C (after boot (.empty zeroed)) (Op.create 0 ['a'] 1 .VREG))
    : Op.Reached C zeroed oneFile := by
  have hboot : Op.Reached C zeroed (after boot (.empty zeroed)) := by
    apply Op.Reached.boots
    decide +kernel
  unfold oneFile
  apply hboot.after
  . exact ⟨by decide +kernel, by decide +kernel, Or.inl (by decide +kernel)⟩
  . apply hC
  . decide +kernel

@[irreducible]
def removedSecond : St :=
  after (Op.remove 0 1 ['a']).run (after (Op.create 0 ['b'] 1 .VREG).run oneFile)

theorem removedSecond_reached : Op.Reached Op.Orderly zeroed removedSecond := by
  have hone : Op.Reached Op.Orderly zeroed oneFile := by
    apply oneFile_reached
    change (after boot (.empty zeroed)).junk.prev _ = false
    decide +kernel
  have htwo : Op.Reached Op.Orderly zeroed (after (Op.create 0 ['b'] 1 .VREG).run oneFile) := by
    apply hone.after
    . exact ⟨by decide +kernel, by decide +kernel, Or.inl (by decide +kernel)⟩
    . change oneFile.junk.prev _ = false
      decide +kernel
    . decide +kernel
  unfold removedSecond
  apply htwo.after
  . refine ⟨⟨by decide +kernel, by decide +kernel, Or.inl (by decide +kernel)⟩, by decide +kernel,
      by decide +kernel, Or.inr ⟨0, ⟨['a'], 1, 3⟩, ?_, ?_⟩⟩
    . decide +kernel
    . decide +kernel
  . intro _
    exact ⟨by decide +kernel, by decide +kernel⟩
  . decide +kernel

theorem nodes_listed_removedSecond : NodesListed removedSecond :=
  nodes_listed_of_orderly removedSecond_reached

@[irreducible]
def removedFirst : St :=
  after (Op.remove 0 1 ['a']).run oneFile

theorem nodes_not_listed_removedFirst
    : Op.Reached Op.Any zeroed removedFirst ∧ ¬ NodesListed removedFirst := by
  constructor
  . unfold removedFirst
    apply (oneFile_reached trivial).after
    . refine ⟨⟨by decide +kernel, by decide +kernel, Or.inl (by decide +kernel)⟩, by decide +kernel,
        by decide +kernel, Or.inr ⟨0, ⟨['a'], 1, 3⟩, ?_, ?_⟩⟩
      . decide +kernel
      . decide +kernel
    . trivial
    . decide +kernel
  . intro h
    rcases h with ⟨l, hl, _⟩
    have hhead : (removedFirst.vfss 0).nodes = .ref 1 := by decide +kernel
    have hnext : (removedFirst.nodes 1).next = .ref 0 := by decide +kernel
    have hprev : (removedFirst.nodes 0).prev = .null := by decide +kernel
    unfold Linked at hl
    rw [hhead] at hl
    generalize hp : Ptr.ref 1 = p at hl
    cases hl with
    | nil => simp at hp
    | cons _ hl =>
      rw [Ptr.ref.injEq] at hp
      subst hp
      rw [hnext] at hl
      have := (hl.prev_eq Ptr.ref_injective (Ptr.ref_ne_null 0)).1
      rw [hprev] at this
      simp at this

end Fs
end Franklin
