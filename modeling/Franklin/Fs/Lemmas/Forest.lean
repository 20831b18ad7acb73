import Franklin.Fs.Lemmas.Update

/-!
This module contains that the operations of `ramfs.c` keep the vnodes, the ramnodes and the directory
trees consistent with each other.
-/

namespace Franklin
namespace Fs

def RamNode.hnode (node : RamNode) : HNode where
  isDir := node.type = .VDIR
  entries := (node.dentry.map (·.node) : List Nat)
  count := node.linkcount
  parent := node.parent
  freed := node.freed

/--
Every vnode in use and the ramnode it stands for refer to each other, and the ramnodes form directory
trees.
-/
structure Forest (s : St) : Prop where
  inv : Inv s
  wf : s.hier.WF
  back : ∀ v, v < s.nextVnode → (s.vnodes v).freed = false →
    (s.nodes (s.vnodes v).data).vnode = some v
  live : ∀ n v, (s.nodes n).vnode = some v → n < s.nextNode ∧ (s.nodes n).freed = false

section Hier

variable {s s' : St} {d n : Nat}

theorem St.hier_node (s : St) (n : Nat) : s.hier.node n = (s.nodes n).hnode := by
  rfl

@[simp]
theorem St.hier_next (s : St) : s.hier.next = s.nextNode := by
  rfl

theorem hnode_of_unchained {node node' : RamNode} (h : node'.unchained = node.unchained)
    : node'.hnode = node.hnode := by
  have := congrArg RamNode.hnode h
  exact this

theorem St.hier_newFile (vfs : Nat) (name : Name) (type : VType) (link : Name) (hd : d ≠ s.nextNode)
    : (s.newFile vfs d name type link).hier = s.hier.create d (type = .VDIR) := by
  apply Hier.ext_nodes
  . unfold St.newFile St.attach St.addLink
    rw [St.addNode_eq]
    rfl
  . intro m
    rw [St.hier_node]
    unfold St.newFile St.attach St.addLink Hier.create
    dsimp only
    rw [St.hier_next]
    by_cases hm : m = s.nextNode
    . subst hm
      rw [St.updNode_nodes_of_ne (Ne.symm hd), St.updNode_nodes_self, if_pos rfl,
        St.addNode_nodes_self]
      by_cases htype : type = .VDIR
      . simp [RamNode.hnode, St.freshNode, htype]
      . simp [RamNode.hnode, St.freshNode, htype]
    . rw [if_neg hm]
      have hold := hnode_of_unchained (s.addNode_unchained vfs (some d) type link hm)
      by_cases hmd : m = d
      . subst hmd
        rw [St.updNode_nodes_self, St.updNode_nodes_of_ne hm, if_pos rfl, St.hier_node, ← hold]
        rfl
      . rw [St.updNode_nodes_of_ne hmd, St.updNode_nodes_of_ne hm, if_neg hmd, St.hier_node, hold]

theorem St.hier_hardLink (name : Name) (hn : d ≠ n)
    : (s.hardLink d n name).hier = s.hier.link d n := by
  apply Hier.ext_nodes
  . rfl
  . intro m
    rw [St.hier_node]
    unfold St.hardLink St.attach St.addLink Hier.link
    dsimp only
    by_cases hmd : m = d
    . subst hmd
      rw [St.updNode_nodes_self, St.updNode_nodes_of_ne hn, if_pos rfl]
      rfl
    . rw [St.updNode_nodes_of_ne hmd, if_neg hmd]
      by_cases hmn : m = n
      . subst hmn
        rw [St.updNode_nodes_self, if_pos rfl]
        rfl
      . rw [St.updNode_nodes_of_ne hmn, if_neg hmn]
        rfl

theorem entries_erase {entries : List RamDentry} {de : RamDentry} (h : de ∈ entries)
    : (((entries.erase de).map (·.node) : List Nat) : Multiset Nat) =
        ((entries.map (·.node) : List Nat) : Multiset Nat).erase de.node := by
  rw [← Multiset.map_coe, ← Multiset.coe_erase, Multiset.map_erase_of_mem _ _ h, Multiset.map_coe]

theorem St.hier_dropLinks (k : Int) (m : Nat)
    : (s.dropLinks n k).hier.node m =
        if m = n then { s.hier.node m with count := (s.hier.node m).count - k }
        else s.hier.node m := by
  rw [St.hier_node]
  unfold St.dropLinks
  split
  . next hm =>
    subst hm
    rw [St.updNode_nodes_self]
    rfl
  . next hm =>
    rw [St.updNode_nodes_of_ne hm]
    rfl

theorem St.hier_detach {de : RamDentry} (h : de ∈ (s.nodes d).dentry) (m : Nat)
    : (s.detach d de).hier.node m =
        if m = d then
          { s.hier.node m with
            entries := (s.hier.node m).entries.erase de.node, count := (s.hier.node m).count - 1 }
        else s.hier.node m := by
  rw [St.hier_node]
  unfold St.detach
  split
  . next hm =>
    subst hm
    rw [St.updNode_nodes_self]
    simp [RamNode.hnode, St.hier, entries_erase h]
  . next hm =>
    rw [St.updNode_nodes_of_ne hm]
    rfl

theorem St.hier_unchain : (s.unchain n).hier = s.hier := by
  apply Hier.ext_nodes
  . apply ((OnlyNodes.refl s).unchain n).nextNode
  . intro m
    rw [St.hier_node, St.hier_node]
    apply hnode_of_unchained (St.unchain_unchained m)

theorem St.dentry_unchain : ((s.unchain n).nodes d).dentry = (s.nodes d).dentry := by
  have := congrArg RamNode.dentry (St.unchain_unchained (s := s) (n := n) d)
  exact this

theorem St.hier_unlinkFile {de : RamDentry} (h : de ∈ (s.nodes d).dentry) (hn : de.node ≠ d)
    : (s.unlinkFile d de).hier = s.hier.unlink d de.node 1 := by
  have hmem : de ∈ ((s.unchain de.node).nodes d).dentry := by
    rw [St.dentry_unchain]
    apply h
  apply Hier.ext_nodes
  . apply ((OnlyNodes.refl s).unchain de.node).nextNode
  . intro m
    unfold St.unlinkFile Hier.unlink
    rw [St.hier_dropLinks]
    simp only [St.hier_detach hmem, St.hier_unchain]
    by_cases hmd : m = d
    . subst hmd
      rw [if_neg (Ne.symm hn), if_pos rfl, if_pos rfl]
    . rw [if_neg hmd, if_neg hmd]

theorem St.hier_unlinkDir {de : RamDentry} (h : de ∈ (s.nodes d).dentry) (hn : de.node ≠ d)
    : (s.unlinkDir d de).hier = s.hier.unlink d de.node 2 := by
  have hmem : de ∈ (((s.dropLinks de.node 1).unchain de.node).nodes d).dentry := by
    rw [St.dentry_unchain]
    unfold St.dropLinks
    rw [St.updNode_nodes_of_ne (Ne.symm hn)]
    apply h
  apply Hier.ext_nodes
  . apply ((OnlyNodes.refl (s.dropLinks de.node 1)).unchain de.node).nextNode
  . intro m
    unfold St.unlinkDir Hier.unlink
    rw [St.hier_dropLinks]
    simp only [St.hier_detach hmem, St.hier_unchain, St.hier_dropLinks]
    by_cases hmd : m = d
    . subst hmd
      rw [if_neg (Ne.symm hn), if_pos rfl, if_pos rfl, if_neg (Ne.symm hn)]
    . rw [if_neg hmd, if_neg hmd]
      by_cases hmn : m = de.node
      . rw [if_pos hmn, if_pos hmn, if_pos hmn]
        dsimp only
        rw [Int.sub_sub]
        rfl
      . rw [if_neg hmn, if_neg hmn, if_neg hmn]

theorem St.hier_addRoot (vfs : Nat) : (s.addRoot vfs).hier = s.hier.root := by
  apply Hier.ext_nodes
  . rfl
  . intro m
    rw [St.hier_node]
    unfold St.addRoot Hier.root
    dsimp only
    by_cases hm : m = s.nextNode
    . rw [hm, Function.update_self, St.hier_next, if_pos rfl]
      rfl
    . rw [Function.update_of_ne hm, St.hier_next, if_neg hm]
      rfl

end Hier

structure SameVnodes (s s' : St) : Prop where
  vnodes : s'.vnodes = s.vnodes
  nextVnode : s'.nextVnode = s.nextVnode
  rootvn : s'.rootvn = s.rootvn
  vnode : ∀ n, (s'.nodes n).vnode = (s.nodes n).vnode
  node : ∀ n v, (s.nodes n).vnode = some v →
    (s'.nodes n).type = (s.nodes n).type ∧ (s'.nodes n).freed = (s.nodes n).freed
  mountpoint : ∀ vfs, (s'.vfss vfs).mountpoint = (s.vfss vfs).mountpoint
  nextNode : s.nextNode ≤ s'.nextNode

namespace SameVnodes

variable {s s' : St} {d n : Nat}

theorem refl (s : St) : SameVnodes s s :=
  ⟨rfl, rfl, rfl, fun _ => rfl, fun _ _ _ => ⟨rfl, rfl⟩, fun _ => rfl, Nat.le_refl _⟩

theorem inv (h : SameVnodes s s') (hinv : Inv s) : Inv s' := by
  constructor
  case linked =>
    intro n v hn
    rw [h.vnode] at hn
    rw [h.vnodes, h.nextVnode, (h.node n v hn).1]
    apply hinv.linked n v hn
  case counted =>
    intro v
    rw [h.vnodes, h.nextVnode]
    apply hinv.counted v
  case mountpoint =>
    intro vfs v hv
    rw [h.mountpoint] at hv
    rw [h.nextVnode]
    apply hinv.mountpoint vfs v hv
  case rootvn =>
    intro v hv
    rw [h.rootvn] at hv
    rw [h.nextVnode]
    apply hinv.rootvn v hv

theorem forest (h : SameVnodes s s') (hf : Forest s) (hwf : s'.hier.WF) : Forest s' := by
  constructor
  case inv => apply h.inv hf.inv
  case wf => apply hwf
  case back =>
    intro v
    rw [h.vnodes, h.nextVnode, h.vnode]
    apply hf.back v
  case live =>
    intro n v hn
    rw [h.vnode] at hn
    have := hf.live n v hn
    have := h.nextNode
    refine ⟨by omega, ?_⟩
    rw [(h.node n v hn).2]
    exact (hf.live n v hn).2

theorem updNode (h : SameVnodes s s') {f : RamNode → RamNode}
    (hf : (f (s'.nodes n)).vnode = (s'.nodes n).vnode ∧ (f (s'.nodes n)).type = (s'.nodes n).type ∧
      (f (s'.nodes n)).freed = (s'.nodes n).freed)
    : SameVnodes s (s'.updNode n f) := by
  refine ⟨h.vnodes, h.nextVnode, h.rootvn, ?_, ?_, h.mountpoint, h.nextNode⟩
  . intro m
    rw [← h.vnode m]
    by_cases hm : m = n
    . subst hm
      rw [St.updNode_nodes_self, hf.1]
    . rw [St.updNode_nodes_of_ne hm]
  . intro m v hv
    rw [← (h.node m v hv).1, ← (h.node m v hv).2]
    by_cases hm : m = n
    . subst hm
      rw [St.updNode_nodes_self]
      exact hf.2
    . rw [St.updNode_nodes_of_ne hm]
      exact ⟨rfl, rfl⟩

theorem addLink (h : SameVnodes s s') : SameVnodes s (s'.addLink n) := by
  apply h.updNode
  exact ⟨rfl, rfl, rfl⟩

theorem dropLinks (h : SameVnodes s s') (k : Int) : SameVnodes s (s'.dropLinks n k) := by
  apply h.updNode
  exact ⟨rfl, rfl, rfl⟩

theorem attach (h : SameVnodes s s') (de : RamDentry) : SameVnodes s (s'.attach d de) := by
  apply h.updNode
  exact ⟨rfl, rfl, rfl⟩

theorem detach (h : SameVnodes s s') (de : RamDentry) : SameVnodes s (s'.detach d de) := by
  apply h.updNode
  exact ⟨rfl, rfl, rfl⟩

theorem setPrev (h : SameVnodes s s') (p prev : Ptr) : SameVnodes s (s'.setPrev p prev) := by
  unfold St.setPrev
  split
  . apply h.updNode
    exact ⟨rfl, rfl, rfl⟩
  . apply h

theorem setNext (h : SameVnodes s s') (p next : Ptr) : SameVnodes s (s'.setNext p next) := by
  unfold St.setNext
  split
  . apply h.updNode
    exact ⟨rfl, rfl, rfl⟩
  . apply h

theorem unchain (h : SameVnodes s s') (n : Nat) : SameVnodes s (s'.unchain n) := by
  unfold St.unchain
  apply SameVnodes.setPrev
  apply h.setNext

theorem addNode (hnew : (s.nodes s.nextNode).vnode = none) (vfs : Nat) (dir : Option Nat)
    (type : VType) (link : Name) : SameVnodes s (s.addNode vfs dir type link) := by
  have hprev := (refl s).setPrev (s.vfss vfs).nodes (.ref s.nextNode)
  rw [St.addNode_eq]
  refine ⟨rfl, rfl, rfl, ?_, ?_, ?_, by simp⟩
  . intro m
    dsimp only
    by_cases hm : m = s.nextNode
    . rw [hm, Function.update_self, hnew]
      rfl
    . rw [Function.update_of_ne hm]
      apply hprev.vnode
  . intro m v hv
    dsimp only
    by_cases hm : m = s.nextNode
    . rw [hm, hnew] at hv
      cases hv
    . rw [Function.update_of_ne hm]
      apply hprev.node m v hv
  . intro m
    dsimp only
    by_cases hm : m = vfs
    . rw [hm, Function.update_self]
    . rw [Function.update_of_ne hm]

theorem addRoot (hnew : (s.nodes s.nextNode).vnode = none) (vfs : Nat)
    : SameVnodes s (s.addRoot vfs) := by
  unfold St.addRoot
  refine ⟨rfl, rfl, rfl, ?_, ?_, ?_, by simp⟩
  . intro m
    dsimp only
    by_cases hm : m = s.nextNode
    . rw [hm, Function.update_self, hnew]
    . rw [Function.update_of_ne hm]
  . intro m v hv
    dsimp only
    by_cases hm : m = s.nextNode
    . rw [hm, hnew] at hv
      cases hv
    . rw [Function.update_of_ne hm]
      exact ⟨rfl, rfl⟩
  . intro m
    dsimp only
    by_cases hm : m = vfs
    . rw [hm, Function.update_self]
    . rw [Function.update_of_ne hm]

theorem newFile (hnew : (s.nodes s.nextNode).vnode = none) (vfs : Nat) (name : Name) (type : VType)
    (link : Name) : SameVnodes s (s.newFile vfs d name type link) :=
  ((addNode hnew vfs (some d) type link).addLink).attach _

theorem hardLink (name : Name) : SameVnodes s (s.hardLink d n name) :=
  ((refl s).addLink).attach _

theorem unlinkFile (de : RamDentry) : SameVnodes s (s.unlinkFile d de) :=
  (((refl s).unchain de.node).detach de).dropLinks 1

theorem unlinkDir (de : RamDentry) : SameVnodes s (s.unlinkDir d de) :=
  ((((refl s).dropLinks 1).unchain de.node).detach de).dropLinks 1

end SameVnodes

theorem St.freeNode_unchained {s : St} {n : Nat} (m : Nat)
    : ((s.freeNode n).nodes m).unchained =
        if m = n then { (s.nodes m).unchained with freed := true } else (s.nodes m).unchained := by
  unfold St.freeNode
  split
  . next hm =>
    subst hm
    rw [St.updNode_nodes_self, ← s.setPrev_unchained (s.nodes m).next (s.nodes m).prev m]
    rfl
  . next hm =>
    rw [St.updNode_nodes_of_ne hm, St.setPrev_unchained]

theorem St.inactive_unchained {s : St} {n : Nat} (m : Nat)
    : ((s.inactive n).nodes m).unchained =
        if m = n then
          { (s.nodes m).unchained with
            vnode := none
            ramlock := false
            freed := (s.nodes m).freed || decide ((s.nodes m).linkcount = 0) }
        else (s.nodes m).unchained := by
  unfold St.inactive
  dsimp only
  rw [St.updNode_nodes_self]
  by_cases hm : m = n
  . subst hm
    split
    . next hcount =>
      dsimp only at hcount
      rw [St.freeNode_unchained, if_pos rfl, if_pos rfl, St.updNode_nodes_self]
      simp [hcount, RamNode.unchained]
    . next hcount =>
      dsimp only at hcount
      rw [St.updNode_nodes_self, if_pos rfl]
      simp [hcount, RamNode.unchained]
  . rw [if_neg hm]
    split
    . rw [St.freeNode_unchained, if_neg hm, St.updNode_nodes_of_ne hm]
    . rw [St.updNode_nodes_of_ne hm]

theorem Walked.inv {st s : St} {held : List (Nat × Loc)} {vl nl : List Nat} (hinv : Inv st)
    (h : Walked st s held vl nl) : Inv s := by
  constructor
  case linked =>
    intro n v hn
    cases h.node n with
    | inl heq =>
      rw [heq] at hn
      rcases hinv.linked n v hn with ⟨hlt, hdata, hfreed, htype⟩
      have := h.next_le
      rw [h.old v hlt, h.same.type_eq]
      exact ⟨by omega, hdata, hfreed, htype⟩
    | inr hnew =>
      rcases hnew with ⟨_, w, vfs, hw, hle, hmem⟩
      rw [hn, Option.some.injEq] at hw
      subst hw
      rcases h.heldNew v _ hmem hle with ⟨hlt, vfs', n', hL, hvn, _⟩
      rw [Loc.new.injEq] at hL
      rcases hL with ⟨rfl, rfl⟩
      rw [hvn, h.same.type_eq]
      exact ⟨hlt, rfl, rfl, rfl⟩
  case counted =>
    intro v hlt hfreed
    by_cases hold : v < st.nextVnode
    . rw [h.old v hold] at hfreed ⊢
      have := hinv.counted v hold hfreed
      dsimp only
      omega
    . have hpos : 0 < refs held v := by
        by_contra hzero
        have := h.dropped v (by omega) hlt (by omega)
        rw [this] at hfreed
        cases hfreed
      rcases refs_pos_iff.mp hpos with ⟨L, hL⟩
      rcases h.heldNew v L hL (by omega) with ⟨_, vfs, n, _, hvn, _⟩
      rw [hvn]
      simp only [freshVnode]
      omega
  case mountpoint =>
    intro vfs v hv
    rw [h.same.vfss] at hv
    have := hinv.mountpoint vfs v hv
    have := h.next_le
    omega
  case rootvn =>
    intro v hv
    rw [h.same.rootvn] at hv
    have := hinv.rootvn v hv
    have := h.next_le
    omega

theorem Walked.hier {st s : St} {held : List (Nat × Loc)} {vl nl : List Nat}
    (h : Walked st s held vl nl)
    : s.hier = st.hier.free fun n => (s.nodes n).freed && !(st.nodes n).freed := by
  apply Hier.ext_nodes
  . apply h.same.nextNode
  . intro n
    have hnode : s.hier.node n = { st.hier.node n with freed := (s.nodes n).freed } := by
      simp only [St.hier_node, RamNode.hnode, h.same.type_eq n, h.same.dentry_eq n,
        h.same.linkcount_eq n, h.same.parent_eq n]
    rw [hnode]
    unfold Hier.free
    dsimp only
    split
    . next hfree =>
      rw [Bool.and_eq_true] at hfree
      rw [hfree.1]
    . next hfree =>
      have : (s.nodes n).freed = (st.nodes n).freed := by
        cases h.freed n with
        | inl heq => apply heq
        | inr hnew =>
          rw [hnew.1] at hfree ⊢
          simpa using hfree
      rw [this]
      rfl

theorem Walked.not_attached_of_freed {st s : St} {held : List (Nat × Loc)} {vl nl : List Nat}
    (hwf : st.hier.WF) (h : Walked st s held vl nl) {n : Nat} (hs : (s.nodes n).freed = true)
    : ¬ st.hier.Attached n := by
  intro hattached
  cases h.freed n with
  | inl heq =>
    have := hattached.freed_eq hwf
    rw [St.hier_node] at this
    rw [heq] at hs
    exact absurd (hs.symm.trans this) (by simp)
  | inr hnew =>
    have := Hier.count_pos_of_attached hwf hattached
    rw [St.hier_node] at this
    simp only [RamNode.hnode, hnew.2.1] at this
    omega

theorem Walked.hier_freed {st s : St} {held : List (Nat × Loc)} {vl nl : List Nat}
    (hwf : st.hier.WF) (h : Walked st s held vl nl) (n : Nat)
    (hn : ((s.nodes n).freed && !(st.nodes n).freed) = true) : ¬ st.hier.Attached n := by
  rw [Bool.and_eq_true] at hn
  apply h.not_attached_of_freed hwf hn.1

theorem Walked.forest {st s : St} {held : List (Nat × Loc)} {vl nl : List Nat} (hf : Forest st)
    (h : Walked st s held vl nl)
    (hlive : ∀ v vfs n, (v, .new vfs n) ∈ held → n < st.nextNode ∧ (s.nodes n).freed = false)
    : Forest s := by
  constructor
  case inv => apply h.inv hf.inv
  case wf =>
    rw [h.hier]
    apply hf.wf.free (h.hier_freed hf.wf)
  case back =>
    intro v hlt hfreed
    by_cases hold : v < st.nextVnode
    . rw [h.old v hold] at hfreed ⊢
      have hback := hf.back v hold hfreed
      cases h.node (st.vnodes v).data with
      | inl heq => exact heq.trans hback
      | inr hnew =>
        rw [hback] at hnew
        cases hnew.1
    . have hpos : 0 < refs held v := by
        by_contra hzero
        have := h.dropped v (by omega) hlt (by omega)
        rw [this] at hfreed
        cases hfreed
      rcases refs_pos_iff.mp hpos with ⟨L, hL⟩
      rcases h.heldNew v L hL (by omega) with ⟨_, vfs, n, _, hvn, _, hs⟩
      rw [hvn]
      apply hs
  case live =>
    intro n v hn
    rw [h.same.nextNode]
    cases h.node n with
    | inl heq =>
      rw [heq] at hn
      have hlive := hf.live n v hn
      refine ⟨hlive.1, ?_⟩
      cases h.freed n with
      | inl heq => rw [heq, hlive.2]
      | inr hnew =>
        rw [hn] at hnew
        cases hnew.2.2
    | inr hnew =>
      rcases hnew with ⟨_, w, vfs, _, _, hmem⟩
      apply hlive w vfs n hmem

namespace Forest

variable {s : St} {d n v : Nat} (h : Forest s)

include h

theorem fresh : (s.nodes s.nextNode).vnode = none := by
  by_contra hne
  rcases Option.ne_none_iff_exists'.mp hne with ⟨v, hv⟩
  have := (h.live _ v hv).1
  omega

theorem type_eq (hv : v < s.nextVnode) (hfreed : (s.vnodes v).freed = false)
    : (s.vnodes v).type = (s.nodes (s.vnodes v).data).type :=
  (h.inv.linked _ v (h.back v hv hfreed)).2.2.2

omit h in
theorem of_empty (hv : s.nextVnode = 0) (hn : s.nextNode = 0)
    (hnode : ∀ n, (s.nodes n).vnode = none ∧ (s.nodes n).dentry = [])
    (hmount : ∀ vfs v, (s.vfss vfs).mountpoint ≠ .ref v) (hrootvn : s.rootvn = none) : Forest s := by
  have hentries : ∀ n, (s.hier.node n).entries = 0 := by
    intro n
    rw [St.hier_node]
    simp [RamNode.hnode, (hnode n).2]
  have hmem : ∀ m n, n ∉ (s.hier.node m).entries := by
    intro m n hn
    rw [hentries] at hn
    simp at hn
  have hattached : ∀ n, ¬ s.hier.Attached n := by
    intro n hattached
    cases hattached with
    | inl hroot =>
      have := hroot.1
      rw [St.hier_next] at this
      omega
    | inr hentry => exact hmem hentry.choose n hentry.choose_spec
  constructor
  case inv =>
    constructor
    case linked => simp [hnode]
    case counted =>
      intro v hlt
      omega
    case mountpoint =>
      intro vfs v hvfs
      exact absurd hvfs (hmount vfs v)
    case rootvn => simp [hrootvn]
  case wf =>
    constructor
    case beyond => exact fun n _ => hentries n
    case bound => exact fun m n hmn => absurd hmn (hmem m n)
    case leaf => exact fun m _ => hentries m
    case freed => exact fun m n hmn => absurd hmn (hmem m n)
    case leafCount =>
      intro n hlt
      rw [St.hier_next] at hlt
      omega
    case dirCount => exact fun n hn => absurd hn (hattached n)
    case dead =>
      intro n hlt
      rw [St.hier_next] at hlt
      omega
    case parent => exact fun m n hmn => absurd hmn (hmem m n)
  case back =>
    intro v hlt
    omega
  case live => simp [hnode]

theorem setRootvn (hv : v < s.nextVnode) : Forest { s with rootvn := some v } := by
  refine ⟨⟨h.inv.linked, h.inv.counted, h.inv.mountpoint, ?_⟩, h.wf, h.back, h.live⟩
  intro w hw
  rw [Option.some.injEq] at hw
  rw [← hw]
  apply hv

theorem addRoot (vfs : Nat) : Forest (s.addRoot vfs) := by
  apply (SameVnodes.addRoot h.fresh vfs).forest h
  rw [St.hier_addRoot]
  apply h.wf.root

theorem newFile (vfs : Nat) (name : Name) (type : VType) (link : Name) (hd : s.hier.Attached d)
    (hdir : (s.nodes d).type = .VDIR) : Forest (s.newFile vfs d name type link) := by
  have hlt : d < s.nextNode := hd.lt_next h.wf
  apply (SameVnodes.newFile h.fresh vfs name type link).forest h
  rw [St.hier_newFile vfs name type link (by omega)]
  apply h.wf.create hd
  simpa [St.hier_node, RamNode.hnode] using hdir

theorem hardLink (name : Name) (hd : s.hier.Attached d) (hdir : (s.nodes d).type = .VDIR)
    (hn : s.hier.Attached n) (hleaf : (s.nodes n).type ≠ .VDIR) : Forest (s.hardLink d n name) := by
  have hne : d ≠ n := by
    intro heq
    rw [heq] at hdir
    exact hleaf hdir
  apply (SameVnodes.hardLink name).forest h
  rw [St.hier_hardLink name hne]
  apply h.wf.link hd _ hn
  . simpa [St.hier_node, RamNode.hnode] using hleaf
  . simpa [St.hier_node, RamNode.hnode] using hdir

omit h in
theorem mem_entries {de : RamDentry} (hde : de ∈ (s.nodes d).dentry)
    : de.node ∈ (s.hier.node d).entries := by
  rw [St.hier_node]
  unfold RamNode.hnode
  dsimp only
  rw [Multiset.mem_coe]
  exact List.mem_map_of_mem hde

theorem unlinkFile {de : RamDentry} (hde : de ∈ (s.nodes d).dentry)
    (hleaf : (s.nodes de.node).type ≠ .VDIR) : Forest (s.unlinkFile d de) := by
  have hmem := mem_entries hde
  apply (SameVnodes.unlinkFile de).forest h
  rw [St.hier_unlinkFile hde (Hier.ne_of_mem h.wf hmem)]
  apply h.wf.unlink hmem
  apply Or.inl
  exact ⟨by simpa [St.hier_node, RamNode.hnode] using hleaf, rfl⟩

theorem unlinkDir {de : RamDentry} (hde : de ∈ (s.nodes d).dentry)
    (hdir : (s.nodes de.node).type = .VDIR) (hempty : (s.nodes de.node).dentry = [])
    : Forest (s.unlinkDir d de) := by
  have hmem := mem_entries hde
  apply (SameVnodes.unlinkDir de).forest h
  rw [St.hier_unlinkDir hde (Hier.ne_of_mem h.wf hmem)]
  apply h.wf.unlink hmem
  apply Or.inr
  exact ⟨by simpa [St.hier_node, RamNode.hnode] using hdir,
    by simp [St.hier_node, RamNode.hnode, hempty], rfl⟩

omit h in
theorem walked_vnew (hinv : Inv s) (vfs : Nat) (hlive : (s.nodes n).freed = false)
    (hnone : (s.nodes n).vnode = none) (hlock : (s.nodes n).ramlock = false)
    : Walked s (s.vnew vfs n) [(s.nextVnode, .new vfs n)] [] [] := by
  have hpure : wp (ramfs_vget vfs n) (fun v s' => v = s.nextVnode ∧ s' = s.vnew vfs n)
      (fun _ _ => False) s :=
    wp_ramfs_vget_none (by simp [hlive]) hnone hlock ⟨rfl, rfl⟩
  have hwalk := (Walked.init s).wp_ramfs_vget hinv (by simp) vfs n
  rcases wp_and hpure hwalk with ⟨v, s', ⟨hv, hs'⟩, hw, _⟩
  rw [hv, hs'] at hw
  simpa [Loc.get, hnone] using hw

theorem vnew (vfs : Nat) (hnone : (s.nodes n).vnode = none) (hlock : (s.nodes n).ramlock = false)
    (hlt : n < s.nextNode) (hlive : (s.nodes n).freed = false) : Forest (s.vnew vfs n) := by
  apply (walked_vnew h.inv vfs hlive hnone hlock).forest h
  intro v vfs' m hmem
  simp only [List.mem_singleton, Prod.mk.injEq, Loc.new.injEq] at hmem
  rw [hmem.2.2]
  refine ⟨hlt, ?_⟩
  unfold St.vnew
  dsimp only
  rw [St.updNode_nodes_self, hlive]

omit h in
theorem close_nodes (m : Nat)
    : ((s.close v).nodes m).unchained =
        if m = (s.vnodes v).data ∧ (s.vnodes v).refcount - 1 = 0 then
          { (s.nodes m).unchained with
            vnode := none
            ramlock := false
            freed := (s.nodes m).freed || decide ((s.nodes m).linkcount = 0) }
        else (s.nodes m).unchained := by
  unfold St.close
  dsimp only
  split
  . next hlast =>
    simp only [hlast, and_true]
    apply St.inactive_unchained
  . next hlast => simp only [hlast, and_false, if_false]

omit h in
theorem close_vnodes (w : Nat)
    : (s.close v).vnodes w =
        if w = v then
          { s.vnodes w with
            lock := decide ((s.vnodes v).refcount - 1 = 0)
            refcount := (s.vnodes v).refcount - 1
            freed := (s.vnodes v).freed || decide ((s.vnodes v).refcount - 1 = 0) }
        else s.vnodes w := by
  unfold St.close
  dsimp only
  by_cases hw : w = v
  . subst hw
    split
    . next hlast => simp [hlast]
    . next hlast => simp [hlast]
  . split
    . simp [hw]
    . simp [hw]

omit h in
theorem close_same (s : St) (v : Nat)
    : s.close v = { s with nodes := (s.close v).nodes, vnodes := (s.close v).vnodes } := by
  unfold St.close
  dsimp only
  split
  . rw [(OnlyNodes.refl s).inactive (s.vnodes v).data]
  . rfl

omit h in
theorem close_vnode (m : Nat)
    : ((s.close v).nodes m).vnode =
        if m = (s.vnodes v).data ∧ (s.vnodes v).refcount - 1 = 0 then none else (s.nodes m).vnode := by
  have := congrArg RamNode.vnode (close_nodes (s := s) (v := v) m)
  change ((s.close v).nodes m).vnode = _ at this
  rw [this]
  split <;> rfl

omit h in
theorem close_hier
    : (s.close v).hier = s.hier.free fun n => decide (n = (s.vnodes v).data ∧
        (s.vnodes v).refcount - 1 = 0) && decide ((s.nodes n).linkcount = 0) := by
  apply Hier.ext_nodes
  . rw [St.hier_next, close_same]
    rfl
  . intro m
    have := congrArg RamNode.hnode (close_nodes (s := s) (v := v) m)
    change ((s.close v).nodes m).hnode = _ at this
    rw [St.hier_node, this]
    unfold Hier.free
    dsimp only
    simp only [Bool.and_eq_true, decide_eq_true_iff]
    by_cases hcond : m = (s.vnodes v).data ∧ (s.vnodes v).refcount - 1 = 0
    . rw [if_pos hcond]
      by_cases hcount : (s.nodes m).linkcount = 0
      . rw [if_pos ⟨hcond, hcount⟩, decide_eq_true hcount, Bool.or_true]
        rfl
      . rw [if_neg (fun hand => hcount hand.2), decide_eq_false hcount, Bool.or_false]
        rfl
    . rw [if_neg hcond, if_neg (fun hand => hcond hand.1)]
      rfl

theorem secure {n : Nat} (hn : s.hier.Attached n) : Secure s n := by
  have hcount := Hier.count_pos_of_attached h.wf hn
  have hlive := hn.freed_eq h.wf
  rw [St.hier_node] at hcount hlive
  exact ⟨hlive, hcount⟩

theorem close_freed (n : Nat) (hn : (decide (n = (s.vnodes v).data ∧
    (s.vnodes v).refcount - 1 = 0) && decide ((s.nodes n).linkcount = 0)) = true)
    : ¬ s.hier.Attached n := by
  intro hattached
  rw [Bool.and_eq_true, decide_eq_true_iff, decide_eq_true_iff] at hn
  have := Hier.count_pos_of_attached h.wf hattached
  rw [St.hier_node] at this
  simp only [RamNode.hnode, hn.2] at this
  omega

end Forest

theorem Inv.close {s : St} {v : Nat} (hinv : Inv s) (hfreed : (s.vnodes v).freed = false)
    : Inv (s.close v) := by
  have hsame := Forest.close_same s v
  have hnext : (s.close v).nextVnode = s.nextVnode := by rw [hsame]
  have hvfss : (s.close v).vfss = s.vfss := by rw [hsame]
  have hrootvn : (s.close v).rootvn = s.rootvn := by rw [hsame]
  constructor
  case linked =>
    intro n w hn
    have htype := congrArg RamNode.type (Forest.close_nodes (s := s) (v := v) n)
    change ((s.close v).nodes n).type = _ at htype
    rw [Forest.close_vnode] at hn
    split at hn
    . cases hn
    . next hcond =>
      rw [if_neg hcond] at htype
      rcases hinv.linked n w hn with ⟨hlt, hdata, hwfreed, hwtype⟩
      rw [htype, hnext, Forest.close_vnodes]
      refine ⟨hlt, ?_⟩
      split
      . next heq =>
        subst heq
        have hlast : ¬ (s.vnodes w).refcount - 1 = 0 := fun hlast => hcond ⟨hdata.symm, hlast⟩
        refine ⟨hdata, ?_, hwtype⟩
        simp [hwfreed, hlast]
      . exact ⟨hdata, hwfreed, hwtype⟩
  case counted =>
    intro w hw hwfreed
    rw [hnext] at hw
    rw [Forest.close_vnodes] at hwfreed ⊢
    split
    . next heq =>
      subst heq
      rw [if_pos rfl] at hwfreed
      simp only [Bool.or_eq_false_iff, decide_eq_false_iff_not] at hwfreed
      have := hinv.counted w hw hfreed
      dsimp only
      omega
    . next hne =>
      rw [if_neg hne] at hwfreed
      apply hinv.counted w hw hwfreed
  case mountpoint =>
    intro vfs w hw
    rw [hvfss] at hw
    rw [hnext]
    apply hinv.mountpoint vfs w hw
  case rootvn =>
    intro w hw
    rw [hrootvn] at hw
    rw [hnext]
    apply hinv.rootvn w hw

theorem Forest.close {s : St} {v : Nat} (h : Forest s) (hv : v < s.nextVnode)
    (hfreed : (s.vnodes v).freed = false) : Forest (s.close v) := by
  have hback := h.back v hv hfreed
  have hsame := close_same s v
  have hnext : (s.close v).nextVnode = s.nextVnode := by rw [hsame]
  have hnextNode : (s.close v).nextNode = s.nextNode := by rw [hsame]
  constructor
  case inv => apply h.inv.close hfreed
  case wf =>
    rw [close_hier]
    apply h.wf.free h.close_freed
  case back =>
    intro w hw hwfreed
    rw [hnext] at hw
    rw [close_vnodes] at hwfreed ⊢
    rw [close_vnode]
    by_cases heq : w = v
    . subst heq
      rw [if_pos rfl] at hwfreed ⊢
      simp only [Bool.or_eq_false_iff, decide_eq_false_iff_not] at hwfreed
      rw [if_neg (fun hand => hwfreed.2 hand.2)]
      apply hback
    . rw [if_neg heq] at hwfreed ⊢
      have hwback := h.back w hw hwfreed
      rw [if_neg, hwback]
      intro hand
      rw [hand.1, hback, Option.some.injEq] at hwback
      exact heq hwback.symm
  case live =>
    intro n w hn
    rw [close_vnode] at hn
    split at hn
    . cases hn
    . next hcond =>
      have hfreedEq := congrArg HNode.freed (congrFun (congrArg Hier.node (close_hier (s := s) (v := v))) n)
      rw [Hier.freed_free, decide_eq_false hcond, Bool.false_and, Bool.false_or] at hfreedEq
      rw [hnextNode]
      refine ⟨(h.live n w hn).1, ?_⟩
      rw [← (h.live n w hn).2]
      exact hfreedEq

end Fs
end Franklin
