import Franklin.Fs.Tree
import Franklin.Fs.Lemmas.Forest
import Franklin.Fs.Lemmas.Lookup

/-!
This module contains that the operations on one file system keep its directories a tree and count the
links to every file.
-/

namespace Franklin
namespace Fs

def booted (junk : Junk) : St :=
  let vfs : Vfs := { next := none, mountpoint := .wild, rootfs := true, root := 0, nodes := .null }
  let s : St :=
    { St.empty junk with
      vfss := Function.update (St.empty junk).vfss 0 vfs
      nextVfs := 1
      rootfs := some 0
      mountedlist := some 0 }
  { (s.addRoot 0).vnew 0 0 with rootvn := some 0 }

theorem wp_boot (junk : Junk)
    : wp boot (fun _ s => s = booted junk) (fun _ _ => True) (.empty junk) := by
  unfold boot vfs_mount vfs_mount.finish
  rw [wp_bind, wp_bind, wp_acquireList]
  refine ⟨by simp, ?_⟩
  intro _
  rw [if_neg (by decide), wp_bind, wp_newVfs]
  dsimp only
  rw [wp_bind, wp_setVfs]
  apply wp_bind.mpr
  rw [wp_update, wp_bind, wp_getSt, wp_bind, wp_setVfs]
  apply wp_bind.mpr
  rw [wp_update]
  apply wp_bind_mono (wp_ramfs_mount (P := fun _ => True) _ (R := fun _ s' => s' = St.addRoot _ _) rfl)
  . simp
  . intro _ s1 hs1
    rw [wp_bind, wp_releaseList, wp_pure, hs1]
    unfold init_rootvn ramfs_root
    rw [wp_bind, wp_getSt]
    apply wp_bind.mpr
    rw [wp_bind, wp_getVfs]
    apply wp_mono (wp_ramfs_vget_none (E := fun _ _ => True) (R := fun v s' =>
      v = 0 ∧ s' = St.vnew _ 0 0) (fun _ => trivial) rfl rfl ⟨rfl, rfl⟩)
    . intro v s2 hs2
      rw [hs2.1, hs2.2, wp_update]
      simp [booted, St.addRoot, St.vnew, St.updNode, St.empty]
    . simp

theorem booted_dentry (junk : Junk) (n : Nat) : ((booted junk).nodes n).dentry = [] := by
  by_cases hn : n = 0
  . simp [booted, St.vnew, St.updNode, St.addRoot, St.empty, hn]
  . simp [booted, St.vnew, St.updNode, St.addRoot, St.empty, hn]

structure Tree (s : St) : Prop where
  forest : Forest s
  root : ∀ n, s.hier.Root n ↔ n = (s.vfss 0).root
  unlocked : ∀ v, v < s.nextVnode → (s.vnodes v).freed = false → (s.vnodes v).lock = false

theorem Forest.attached_parent {s : St} {d : Nat} (h : Forest s) (hd : s.hier.Attached d)
    (hdir : (s.nodes d).type = .VDIR) : s.hier.Attached (s.nodes d).parent := by
  cases hd with
  | inl hroot =>
    have hparent : (s.nodes d).parent = d := hroot.2.2.1
    rw [hparent]
    exact Or.inl hroot
  | inr hentry =>
    rcases hentry with ⟨m, hm⟩
    have hisDir : (s.hier.node d).isDir = true := by
      simpa [St.hier_node, RamNode.hnode] using hdir
    have hparent : (s.nodes d).parent = m := (h.wf.parent m d hm hisDir).1
    rw [hparent]
    apply Hier.attached_of_mem h.wf hm

theorem Forest.attached_look {s : St} {L V : Loc} {name : Name} {len : Nat} (h : Forest s)
    (hL : s.hier.Attached (L.node s)) (htype : L.type s = (s.nodes (L.node s)).type)
    (hlook : Resolve.look s L name len = some (.ok V)) : s.hier.Attached (V.node s) := by
  unfold Resolve.look at hlook
  dsimp only at hlook
  split at hlook
  . cases hlook
  split at hlook
  . simp at hlook
  . next hdir =>
    rw [not_not, htype] at hdir
    split at hlook
    . simp only [Option.some.injEq, Except.ok.injEq] at hlook
      rw [← hlook]
      apply hL
    . split at hlook
      . split at hlook
        . simp at hlook
        . simp only [Option.some.injEq, Except.ok.injEq] at hlook
          rw [← hlook, Loc.node_get h.inv]
          apply h.attached_parent hL hdir
      . split at hlook
        . next entry hfind =>
          split at hlook
          . simp at hlook
          . simp only [Option.some.injEq, Except.ok.injEq] at hlook
            rw [← hlook, Loc.node_get h.inv]
            apply Or.inr
            refine ⟨L.node s, Forest.mem_entries ?_⟩
            apply List.mem_of_find?_eq_some hfind
        . split at hlook
          . simp at hlook
          . simp at hlook

namespace Tree

variable {s s' : St} {d n v : Nat}

theorem attached_iff (h : Tree s) : s.hier.Attached n ↔ n = (s.vfss 0).root ∨ HasDentry s n := by
  unfold Hier.Attached HasDentry
  rw [h.root]
  simp only [St.hier_node, RamNode.hnode, Multiset.mem_coe, List.mem_map]

theorem attached (h : Tree s) (hv : InTree s v) : s.hier.Attached (s.vnodes v).data :=
  h.attached_iff.mpr hv.2.2

theorem of_booted (junk : Junk) : Tree (booted junk) := by
  constructor
  case forest =>
    unfold booted
    dsimp only
    apply Forest.setRootvn
    . apply Forest.vnew
      . apply Forest.addRoot
        apply Forest.of_empty
        . rfl
        . rfl
        . intro n
          exact ⟨rfl, rfl⟩
        . intro vfs v
          dsimp only
          by_cases hvfs : vfs = 0
          . simp [hvfs]
          . simp [hvfs, St.empty]
        . rfl
      . simp [St.addRoot, St.empty]
      . simp [St.addRoot, St.empty]
      . simp [St.addRoot, St.empty]
      . simp [St.addRoot, St.empty]
    . simp [St.vnew, St.addRoot, St.empty]
  case root =>
    intro n
    have hroot : ((booted junk).vfss 0).root = 0 := by
      simp [booted, St.vnew, St.updNode, St.addRoot, St.empty]
    have hnext : (booted junk).hier.next = 1 := by
      simp [booted, St.vnew, St.updNode, St.addRoot, St.empty]
    rw [hroot]
    constructor
    . intro h
      have := h.1
      omega
    . intro hn
      subst hn
      refine ⟨by omega, ?_⟩
      rw [St.hier_node]
      simp [booted, St.vnew, St.updNode, St.addRoot, St.empty, RamNode.hnode]
  case unlocked =>
    intro v hv _
    have : v = 0 := by
      simp [booted, St.vnew, St.updNode, St.addRoot, St.empty] at hv
      omega
    subst this
    simp [booted, St.vnew, St.updNode, St.addRoot, St.empty]

theorem walked {held : List (Nat × Loc)} (h : Tree s) (hw : Walked s s' held [] [])
    (hheld : ∀ v vfs n, (v, .new vfs n) ∈ held → s.hier.Attached n) : Tree s' := by
  constructor
  case forest =>
    apply hw.forest h.forest
    intro v vfs n hmem
    have hattached := hheld v vfs n hmem
    refine ⟨hattached.lt_next h.forest.wf, ?_⟩
    by_contra hfreed
    apply hw.not_attached_of_freed h.forest.wf (by simpa using hfreed) hattached
  case root =>
    intro n
    rw [hw.same.vfss, ← h.root n, hw.hier]
    apply Hier.root_free (hw.hier_freed h.forest.wf)
  case unlocked =>
    intro v hlt hfreed
    by_cases hold : v < s.nextVnode
    . rw [hw.old v hold] at hfreed ⊢
      have := h.unlocked v hold hfreed
      simp [this]
    . have hpos : 0 < refs held v := by
        by_contra hzero
        have := hw.dropped v (by omega) hlt (by omega)
        rw [this] at hfreed
        cases hfreed
      rcases refs_pos_iff.mp hpos with ⟨L, hL⟩
      rcases hw.heldNew v L hL (by omega) with ⟨_, vfs, n, _, hvn, _⟩
      rw [hvn]
      rfl

theorem sameVnodes (h : Tree s) (hs : SameVnodes s s') (hforest : Forest s')
    (hroot : (s'.vfss 0).root = (s.vfss 0).root) (hiff : ∀ n, s'.hier.Root n ↔ s.hier.Root n)
    : Tree s' := by
  refine ⟨hforest, ?_, ?_⟩
  . intro n
    rw [hroot, hiff, h.root]
  . rw [hs.vnodes, hs.nextVnode]
    apply h.unlocked

theorem newFile (h : Tree s) (vfs : Nat) (name : Name) (type : VType) (link : Name)
    (hd : s.hier.Attached d) (hdir : (s.nodes d).type = .VDIR)
    : Tree (s.newFile vfs d name type link) := by
  have hlt : d < s.nextNode := hd.lt_next h.forest.wf
  apply h.sameVnodes (SameVnodes.newFile h.forest.fresh vfs name type link)
    (h.forest.newFile vfs name type link hd hdir)
  . unfold St.newFile St.attach St.addLink
    rw [St.addNode_eq]
    simp only [St.updNode]
    by_cases hvfs : 0 = vfs
    . rw [hvfs, Function.update_self]
    . rw [Function.update_of_ne hvfs]
  . intro n
    rw [St.hier_newFile vfs name type link (by omega)]
    by_cases hn : n = s.nextNode
    . subst hn
      constructor
      . intro hroot
        have := hroot.2.2.1
        simp only [Hier.create, St.hier_next, if_pos] at this
        omega
      . intro hroot
        have := hroot.1
        rw [St.hier_next] at this
        omega
    . apply Hier.root_create hn

theorem hardLink (h : Tree s) (name : Name) (hd : s.hier.Attached d) (hdir : (s.nodes d).type = .VDIR)
    (hn : s.hier.Attached n) (hleaf : (s.nodes n).type ≠ .VDIR) : Tree (s.hardLink d n name) := by
  have hne : d ≠ n := by
    intro heq
    rw [heq] at hdir
    exact hleaf hdir
  apply h.sameVnodes (SameVnodes.hardLink name) (h.forest.hardLink name hd hdir hn hleaf) rfl
  intro m
  rw [St.hier_hardLink name hne]
  apply Hier.root_of_static (fun m => Hier.static_link m) rfl

theorem unlinkFile (h : Tree s) {de : RamDentry} (hde : de ∈ (s.nodes d).dentry)
    (hleaf : (s.nodes de.node).type ≠ .VDIR) : Tree (s.unlinkFile d de) := by
  apply h.sameVnodes (SameVnodes.unlinkFile de) (h.forest.unlinkFile hde hleaf)
  . unfold St.unlinkFile St.dropLinks St.detach
    rw [(OnlyNodes.refl s).unchain]
    rfl
  . intro m
    rw [St.hier_unlinkFile hde (Hier.ne_of_mem h.forest.wf (Forest.mem_entries hde))]
    apply Hier.root_of_static (fun m => Hier.static_unlink m) rfl

theorem unlinkDir (h : Tree s) {de : RamDentry} (hde : de ∈ (s.nodes d).dentry)
    (hdir : (s.nodes de.node).type = .VDIR) (hempty : (s.nodes de.node).dentry = [])
    : Tree (s.unlinkDir d de) := by
  apply h.sameVnodes (SameVnodes.unlinkDir de) (h.forest.unlinkDir hde hdir hempty)
  . unfold St.unlinkDir St.dropLinks St.detach
    rw [(OnlyNodes.refl _).unchain]
    rfl
  . intro m
    rw [St.hier_unlinkDir hde (Hier.ne_of_mem h.forest.wf (Forest.mem_entries hde))]
    apply Hier.root_of_static (fun m => Hier.static_unlink m) rfl

theorem close (h : Tree s) (hv : v < s.nextVnode) (hfreed : (s.vnodes v).freed = false)
    : Tree (s.close v) := by
  have hsame := Forest.close_same s v
  refine ⟨h.forest.close hv hfreed, ?_, ?_⟩
  . intro n
    have hvfss : (s.close v).vfss = s.vfss := by rw [hsame]
    rw [hvfss, ← h.root n, Forest.close_hier]
    apply Hier.root_free h.forest.close_freed
  . intro w hw hwfreed
    have hnext : (s.close v).nextVnode = s.nextVnode := by rw [hsame]
    rw [hnext] at hw
    rw [Forest.close_vnodes] at hwfreed ⊢
    split
    . next heq =>
      rw [if_pos heq] at hwfreed
      rw [Bool.or_eq_false_iff] at hwfreed
      exact hwfreed.2
    . next hne =>
      rw [if_neg hne] at hwfreed
      apply h.unlocked w hw hwfreed

theorem looked {vdir : Nat} (name : Name) (len : Nat) (h : Tree s) (hv : InTree s vdir)
    : wp (ramfs_lookup vdir none name len)
        (fun r s' => Looked s s' [] [] none (Resolve.look s (.old vdir) name len) r)
        (Bad s (Resolve.look s (.old vdir) name len = none)) s :=
  (Walked.init s).wp_ramfs_lookup h.forest.inv (.old rfl hv.1 hv.2.1 (h.unlocked vdir hv.1 hv.2.1))
    none name len

theorem attached_look {vdir len : Nat} {name : Name} {V : Loc} (h : Tree s) (hv : InTree s vdir)
    (hlook : Resolve.look s (.old vdir) name len = some (.ok V)) : s.hier.Attached (V.node s) :=
  h.forest.attached_look (L := .old vdir) (h.attached hv) (h.forest.type_eq hv.1 hv.2.1) hlook

theorem look_of_finds {vdir len vn : Nat} {name : Name} (h : Tree s) (hv : InTree s vdir)
    (hfinds : Finds s vdir name len vn)
    : Resolve.look s (.old vdir) name len = some (.ok (.old vn)) ∧ (s.vnodes vn).freed = false := by
  rcases hfinds with ⟨_, hlt, s', hrun⟩
  have hlooked := (wp_of_ok hrun).mp (h.looked name len hv)
  generalize Resolve.look s (.old vdir) name len = r at hlooked
  cases hlooked with
  | ok v V hw =>
    rcases hw.heldOld vn V List.mem_cons_self hlt with ⟨rfl, hfreed, _⟩
    exact ⟨rfl, hfreed⟩

theorem entry_of_look {vdir len vn : Nat} {name : Name} (h : Tree s)
    (hlook : Resolve.look s (.old vdir) name len = some (.ok (.old vn))) (hne : vn ≠ vdir)
    (hdots : name ≠ ['.', '.'])
    : (s.vnodes vn).data ∈ (s.hier.node (s.vnodes vdir).data).entries := by
  unfold Resolve.look at hlook
  dsimp only at hlook
  split at hlook
  . cases hlook
  split at hlook
  . simp at hlook
  . split at hlook
    . simp only [Option.some.injEq, Except.ok.injEq, Loc.old.injEq] at hlook
      exact absurd hlook.symm hne
    . split at hlook
      . next hdotdot =>
        unfold strcmp at hdotdot
        rw [if_neg hdots] at hdotdot
        simp at hdotdot
      . split at hlook
        . next entry hfind =>
          split at hlook
          . simp at hlook
          . simp only [Option.some.injEq, Except.ok.injEq] at hlook
            have hnode := Loc.node_get h.forest.inv [.old vdir] ((Loc.old vdir).vfs s) entry.node
            rw [hlook] at hnode
            simp only [Loc.node] at hnode
            rw [hnode]
            apply Forest.mem_entries
            apply List.mem_of_find?_eq_some hfind
        . split at hlook
          . simp at hlook
          . simp at hlook

end Tree

def Ruled (msg : String) : Prop :=
  msg = "ramfs_free_dentry: linkcount <= 0" ∨ msg = "ramfs_rmdir: parent"

section Still

variable {s : St} {vdir len n vfs v : Nat} {name : Name}

def St.chains (s : St) : (Nat → Ptr × Ptr) × (Nat → Vfs) :=
  (fun n => ((s.nodes n).prev, (s.nodes n).next), s.vfss)

def Still {α : Type} (x : Prog α) : Prop :=
  ∀ s, wp x (fun _ s' => s'.chains = s.chains) (fun e _ => ∀ msg, e ≠ .panic msg) s

theorem Still.bind {α β : Type} {x : Prog α} {f : α → Prog β} (hx : Still x)
    (hf : ∀ a, Still (f a)) : Still (x >>= f) := by
  intro s
  apply wp_bind_of (hx s)
  intro a s1 hs1
  rw [← hs1]
  apply hf a s1

theorem Still.pure {α : Type} (a : α) : Still (pure a : Prog α) := by
  intro s
  rfl

theorem Still.throw {α : Type} {e : Stop} (he : ∀ msg, e ≠ .panic msg)
    : Still (throw e : Prog α) := by
  intro s
  apply he

theorem Still.getVnode : Still (getVnode v) := by
  intro s
  rw [wp_getVnode]
  simp

theorem Still.updNode {f : RamNode → RamNode}
    (hf : ∀ node, (f node).prev = node.prev ∧ (f node).next = node.next)
    : (s.updNode n f).chains = s.chains := by
  unfold St.chains
  rw [Prod.mk.injEq]
  refine ⟨?_, rfl⟩
  funext m
  by_cases hm : m = n
  . subst hm
    rw [St.updNode_nodes_self, (hf _).1, (hf _).2]
  . rw [St.updNode_nodes_of_ne hm]

theorem Still.acquireNode : Still (acquireNode n) := by
  intro s
  rw [wp_acquireNode_iff]
  refine ⟨by simp, ?_⟩
  intro _
  apply Still.updNode
  simp

theorem Still.ite {α : Type} {c : Prop} [Decidable c] {x y : Prog α} (hx : Still x)
    (hy : Still y) : Still (if c then x else y) := by
  split
  . apply hx
  . apply hy

theorem Still.vref_locked : Still (vref_locked v) := by
  unfold Fs.vref_locked
  apply getVnode.bind
  intro vn
  apply Still.ite
  . apply Still.throw
    simp
  . intro s
    rfl

theorem Still.acquire : Still (acquire v) := by
  unfold Fs.acquire
  apply getVnode.bind
  intro vn
  apply Still.ite
  . apply Still.throw
    simp
  . intro s
    rfl

theorem Still.release : Still (release v) := by
  apply getVnode.bind
  intro vn s
  rfl

theorem Still.releaseNode : Still (releaseNode n) := by
  intro s
  rw [wp_releaseNode_iff]
  apply Still.updNode
  simp

theorem Still.getNode : Still (getNode n) := by
  intro s
  rfl

theorem Still.deref : Still (deref n) := by
  apply getNode.bind
  intro node
  apply Still.ite
  . apply Still.throw
    simp
  . apply Still.pure

theorem Still.ramfs_vget : Still (ramfs_vget vfs n) := by
  apply deref.bind
  intro _
  apply acquireNode.bind
  intro _
  apply getNode.bind
  intro node
  split
  . next v _ =>
    apply Still.acquire.bind
    intro _
    apply Still.vref_locked.bind
    intro _
    apply Still.release.bind
    intro _
    apply Still.releaseNode.bind
    intro _
    apply Still.pure
  . have hnew : Still (newVnode vfs n) := by
      intro s
      apply Still.updNode (s := s) (f := fun node => { node with vnode := some s.nextVnode })
      simp
    apply hnew.bind
    intro v
    apply Still.release.bind
    intro _
    apply Still.releaseNode.bind
    intro _
    apply Still.pure

theorem Still.ramfs_lookup {vpp : Option Nat} : Still (ramfs_lookup vdir vpp name len) := by
  apply getVnode.bind
  intro vd
  apply deref.bind
  intro _
  apply acquireNode.bind
  intro _
  apply getNode.bind
  intro node
  have hvget : ∀ n, Still (do
      let v ← Fs.ramfs_vget vd.vfs n
      Fs.releaseNode vd.data
      Pure.pure ((none : Code), some v)) := by
    intro n
    apply Still.ramfs_vget.bind
    intro v
    apply Still.releaseNode.bind
    intro _
    apply Still.pure
  have hrelease : ∀ r : Code × Option Nat, Still (do
      Fs.releaseNode vd.data
      Pure.pure r) := by
    intro r
    apply Still.releaseNode.bind
    intro _
    apply Still.pure
  apply Still.ite
  . apply hrelease
  . apply Still.ite
    . apply Still.vref_locked.bind
      intro _
      apply hrelease
    . apply Still.ite
      . apply hvget
      . split
        . apply hvget
        . apply Still.ite
          . apply Still.throw
            simp
          . apply hrelease

end Still

theorem Stop.panic_ne {e : Stop} {P : String → Prop} (h : ∀ msg, e ≠ .panic msg)
    : ∀ msg, e = .panic msg → P msg :=
  fun msg heq => absurd heq (h msg)

namespace Op

variable {s : St}

def Kept (s : St) (x : Prog Code) : Prop :=
  wp x (fun _ s' => Tree s') (fun e _ => ∀ msg, e = .panic msg → ¬ Ruled msg) s

theorem kept_root (h : Tree s) : Kept s root.run := by
  have hattached : s.hier.Attached (s.vfss 0).root := h.attached_iff.mpr (Or.inl rfl)
  have htree : wp (ramfs_vget 0 (s.vfss 0).root) (fun _ s' => Tree s')
      (fun _ _ => True) s := by
    apply wp_mono ((Walked.init s).wp_ramfs_vget h.forest.inv (by simp) 0 (s.vfss 0).root)
    . intro v s1 hs1
      apply h.walked hs1.1
      intro w vfs n hmem
      rw [List.mem_singleton, Prod.mk.injEq] at hmem
      rw [List.map_nil] at hmem
      have hnode := Loc.node_get h.forest.inv [] 0 (s.vfss 0).root
      rw [← hmem.2] at hnode
      simp only [Loc.node] at hnode
      rw [hnode]
      apply hattached
    . simp
  unfold Kept run ramfs_root
  rw [wp_bind, wp_bind, wp_getVfs]
  apply wp_mono (wp_conj (Still.ramfs_vget s) htree)
  . intro v s1 hs1
    apply hs1.2
  . intro e s1 hs1
    exact Stop.panic_ne hs1

theorem kept_lookup {vdir len : Nat} {name : Name} (h : Tree s) (hv : InTree s vdir)
    : Kept s (lookup vdir name len).run := by
  unfold Kept run
  rw [wp_bind]
  apply wp_mono (wp_conj (Still.ramfs_lookup s) (wp_mono (h.looked name len hv) (fun _ _ hs => hs) (by simp)))
  . intro r s1 hs1
    have hlooked := hs1.2
    generalize hlook : Resolve.look s (.old vdir) name len = looked at hlooked
    cases hlooked with
    | ok v V hw =>
      apply h.walked hw
      intro w vfs n hmem
      rw [List.mem_singleton, Prod.mk.injEq] at hmem
      have := h.attached_look hv hlook
      rw [← hmem.2] at this
      apply this
    | notdir hw =>
      apply h.walked hw
      simp
    | missing hw =>
      apply h.walked hw
      simp
  . intro e s1 hs1
    exact Stop.panic_ne hs1

theorem kept_close {v : Nat} (h : Tree s) (hv : v < s.nextVnode) (hfreed : (s.vnodes v).freed = false)
    : Kept s (close v).run := by
  unfold Kept run
  rw [wp_bind]
  apply wp_mono (wp_vfs_close_iff (P := fun _ => False) (Q := fun _ s' => Tree s') hfreed
    (h.close hv hfreed))
  . intro _ s1 hs1
    apply hs1
  . intro e s1 hs1 msg hmsg
    exact (hs1 msg hmsg).elim

theorem wp_alloc_file {vdir len : Nat} {name : Name} {type : VType} {target : Option Name} (h : Tree s)
    (hv : InTree s vdir)
    : wp (ramfs_alloc_file vdir name len type target) (fun _ s' => Tree s')
        (fun e _ => ∀ msg, e = .panic msg → ¬ Ruled msg) s := by
  have hattached := h.attached hv
  have hlt : (s.vnodes vdir).data < s.nextNode := hattached.lt_next h.forest.wf
  have htype := h.forest.type_eq hv.1 hv.2.1
  apply wp_mono (wp_ramfs_alloc_file (P := fun _ => False) (R := fun _ s' => Tree s') name len type
    target hv.2.1 (by omega) (fun hdir => htype ▸ hdir) h _)
  . intro _ s1 hs1
    apply hs1
  . intro e s1 hs1 msg hmsg
    exact (hs1.2 msg hmsg).elim
  . intro hdir
    rw [htype] at hdir
    have hfile := h.newFile (s.vnodes vdir).vfs (strldup name len) type (target.getD []) hattached hdir
    have hnode := s.newFile_nodes_self (s.vnodes vdir).vfs (strldup name len) type (target.getD [])
      (d := (s.vnodes vdir).data) (by omega)
    apply hfile.walked (Forest.walked_vnew hfile.forest.inv _ _ _ _)
    . intro w vfs n hmem
      rw [List.mem_singleton, Prod.mk.injEq, Loc.new.injEq] at hmem
      rw [hmem.2.2]
      refine Or.inr ⟨(s.vnodes vdir).data, ?_⟩
      rw [St.hier_newFile _ _ _ _ (by omega), Hier.entries_create h.forest.wf hattached, if_pos rfl]
      apply Multiset.mem_cons_self
    . rw [hnode]
      rfl
    . rw [hnode]
      rfl
    . rw [hnode]
      rfl

theorem kept_link {vdir vn : Nat} {name : Name} (h : Tree s) (hv : InTree s vdir) (hvn : InTree s vn)
    (hdir : (s.vnodes vdir).type = .VDIR) (hleaf : (s.vnodes vn).type ≠ .VDIR)
    : Kept s (link vdir vn name).run := by
  rw [h.forest.type_eq hv.1 hv.2.1] at hdir
  rw [h.forest.type_eq hvn.1 hvn.2.1] at hleaf
  have hne : (s.vnodes vdir).data ≠ (s.vnodes vn).data := by
    intro heq
    rw [heq] at hdir
    exact hleaf hdir
  unfold Kept run
  apply wp_mono (wp_ramfs_link (P := fun _ => False) (R := fun _ s' => Tree s') name hv.2.1 hvn.2.1 _
    (h.hardLink name (h.attached hv) hdir (h.attached hvn) hleaf))
  . intro _ s1 hs1
    apply hs1
  . intro e s1 hs1 msg hmsg
    exact (hs1.2 msg hmsg).elim
  . unfold St.addLink
    rw [St.updNode_nodes_of_ne hne]
    apply hdir

theorem linkcount_detach {d : Nat} {de : RamDentry} (hne : de.node ≠ d)
    : (((s.unchain de.node).detach d de).nodes de.node).linkcount = (s.nodes de.node).linkcount := by
  unfold St.detach
  rw [St.updNode_nodes_of_ne hne]
  have := congrArg RamNode.linkcount (St.unchain_unchained (s := s) (n := de.node) de.node)
  exact this

theorem linkcount_pos {d : Nat} {de : RamDentry} (h : Tree s) (hde : de ∈ (s.nodes d).dentry)
    : 0 < (s.nodes de.node).linkcount :=
  Hier.count_pos_of_attached h.forest.wf (Or.inr ⟨d, Forest.mem_entries hde⟩)

theorem kept_remove {vdir vn : Nat} {name : Name} (h : Tree s) (hv : InTree s vdir) (hvn : InTree s vn)
    : Kept s (remove vdir vn name).run := by
  unfold Kept run
  apply wp_mono (wp_ramfs_remove (P := fun msg => ¬ Ruled msg) (R := fun _ s' => Tree s') name hv.2.1
    hvn.2.1 _ _ (fun _ => h) _)
  . intro _ s1 hs1
    apply hs1
  . intro e s1 hs1
    apply hs1.2
  . intro _ _ _
    unfold Ruled
    decide
  . intro de hde _ _ hcount
    rw [linkcount_detach (Hier.ne_of_mem h.forest.wf (Forest.mem_entries hde))] at hcount
    have := linkcount_pos h hde
    omega
  . intro de hde hleaf hnode _
    rw [h.forest.type_eq hvn.1 hvn.2.1, ← hnode] at hleaf
    apply h.unlinkFile hde hleaf

theorem mem_of_dropLinks {d n : Nat} {k : Int} {de : RamDentry}
    (h : de ∈ ((s.dropLinks n k).nodes d).dentry) : de ∈ (s.nodes d).dentry := by
  unfold St.dropLinks at h
  by_cases heq : d = n
  . rw [heq, St.updNode_nodes_self] at h
    rw [heq]
    apply h
  . rw [St.updNode_nodes_of_ne heq] at h
    apply h

theorem compLen_dotdot : compLen ['.', '.'] = 2 := by
  decide

theorem kept_rmdir {vdir vn len : Nat} {name : Name} (h : Tree s) (hv : InTree s vdir)
    (hfinds : Finds s vdir name len vn) (hne : vn ≠ vdir) (hdir : (s.vnodes vn).type = .VDIR)
    : Kept s (rmdir vdir vn name len).run := by
  rcases h.look_of_finds hv hfinds with ⟨hlook, hfreed⟩
  rw [h.forest.type_eq hfinds.2.1 hfreed] at hdir
  have hisDir : (s.hier.node (s.vnodes vn).data).isDir = true := by
    simpa [St.hier_node, RamNode.hnode] using hdir
  unfold Kept run
  apply wp_mono (wp_ramfs_rmdir (P := fun msg => ¬ Ruled msg) (R := fun _ s' => Tree s') name len
    hv.2.1 hfreed _ _ _ (fun _ => h) _)
  . intro _ s1 hs1
    apply hs1
  . intro e s1 hs1
    apply hs1.2
  . intro _ _ _ _
    unfold Ruled
    decide
  . intro hdots hparent
    have hname : name ≠ ['.', '.'] := by
      intro heq
      rw [hfinds.1, heq] at hdots
      exact hdots ⟨compLen_dotdot, rfl⟩
    have hentry := h.entry_of_look hlook hne hname
    exact absurd (h.forest.wf.parent _ _ hentry hisDir).1 hparent
  . intro de hde hparent hnode hcount
    have hmem := Forest.mem_entries (mem_of_dropLinks hde)
    rw [linkcount_detach (Hier.ne_of_mem h.forest.wf hmem)] at hcount
    unfold St.dropLinks at hcount
    rw [St.updNode_nodes_self] at hcount
    have htwo := h.forest.wf.dirCount de.node (Or.inr ⟨_, hmem⟩) (by rw [hnode, hisDir])
    rw [St.hier_node] at htwo
    simp only [RamNode.hnode] at htwo hcount
    omega
  . intro de hde hparent hempty hnode _
    apply h.unlinkDir (mem_of_dropLinks hde)
    . rw [hnode, hdir]
    . rw [hnode, hempty]

theorem kept (h : Tree s) {op : Op} (hop : op.Allowed s) : Kept s op.run := by
  cases op with
  | root => apply kept_root h
  | lookup vdir name len => apply kept_lookup h hop
  | close v => apply kept_close h hop.1 hop.2
  | create vdir name len type =>
    unfold Kept run ramfs_create
    rw [wp_bind]
    apply wp_mono (wp_alloc_file h hop) (fun _ _ hs => hs) (fun _ _ hs => hs)
  | mkdir vdir name len =>
    unfold Kept run ramfs_mkdir
    rw [wp_bind]
    apply wp_mono (wp_alloc_file h hop) (fun _ _ hs => hs) (fun _ _ hs => hs)
  | symlink vdir target name len =>
    unfold Kept run ramfs_symlink
    rw [wp_bind]
    apply wp_mono (wp_alloc_file h hop) (fun _ _ hs => hs) (fun _ _ hs => hs)
  | link vdir vn name => apply kept_link h hop.1 hop.2.1 hop.2.2.1 hop.2.2.2
  | remove vdir vn name => apply kept_remove h hop.1 hop.2
  | rmdir vdir vn name len => apply kept_rmdir h hop.1 hop.2.1 hop.2.2.1 hop.2.2.2

theorem Reached.tree {C : St → Op → Prop} {junk : Junk} (h : Reached C junk s) : Tree s := by
  induction h with
  | boot h =>
    have := (wp_of_ok h).mp (wp_boot junk)
    rw [this]
    apply Tree.of_booted
  | step h hop _ hrun ih => exact (wp_of_ok hrun).mp (kept ih hop)

theorem Reached.boots {C : St → Op → Prop} {junk : Junk} (hret : returns Fs.boot (.empty junk) = true)
    : Reached C junk (Fs.after Fs.boot (.empty junk)) := by
  rcases ok_of_returns hret with ⟨_, hrun⟩
  apply Reached.boot hrun

theorem Reached.after {C : St → Op → Prop} {junk : Junk} {op : Op} (h : Reached C junk s)
    (hop : op.Allowed s) (hcond : C s op) (hret : returns op.run s = true)
    : Reached C junk (after op.run s) := by
  rcases ok_of_returns hret with ⟨error, hrun⟩
  apply Reached.step h hop hcond hrun

theorem Reached.not_ruled {C : St → Op → Prop} {junk : Junk} (h : Reached C junk s) {op : Op}
    (hop : op.Allowed s) {msg : String}
    (hmsg : Ruled msg) (s' : St) : op.run s ≠ .error (.panic msg) s' := by
  intro hrun
  exact (wp_of_error hrun).mp (kept h.tree hop) msg rfl hmsg

end Op

theorem St.hier_refs (s : St) (n : Nat) : s.hier.refs n = s.links n := by
  unfold Hier.refs St.links
  apply Finset.sum_congr rfl
  intro m _
  rw [St.hier_node]
  unfold RamNode.hnode
  dsimp only
  rw [Multiset.coe_count, List.count, List.countP_map]
  rfl

@[irreducible]
def dirWithFile : St :=
  let s := after (Op.mkdir 0 ['a'] 1).run (after boot (.empty zeroed))
  after (Op.create 1 ['f'] 1 .VREG).run s

theorem dirWithFile_reached : Op.Reached Op.Any zeroed dirWithFile := by
  have hboot : Op.Reached Op.Any zeroed (after boot (.empty zeroed)) := by
    apply Op.Reached.boots
    decide +kernel
  have hmkdir : Op.Reached Op.Any zeroed
      (after (Op.mkdir 0 ['a'] 1).run (after boot (.empty zeroed))) := by
    apply hboot.after
    . exact ⟨by decide +kernel, by decide +kernel, Or.inl (by decide +kernel)⟩
    . trivial
    . decide +kernel
  unfold dirWithFile
  apply hmkdir.after
  . refine ⟨by decide +kernel, by decide +kernel, Or.inr ⟨0, ⟨['a'], 1, 3⟩, ?_, ?_⟩⟩
    . decide +kernel
    . decide +kernel
  . trivial
  . decide +kernel

/--
The links of every file are counted, in every state that operations on the file system lead to.
-/
theorem linkcount_eq_links {s : St} (h : Op.Reached Op.Any zeroed s)
    : (∀ n, n < s.nextNode → (s.nodes n).freed = false →
        ((s.nodes n).type ≠ .VDIR → (s.nodes n).linkcount = s.links n) ∧
        ((s.nodes n).type = .VDIR → n = (s.vfss 0).root ∨ HasDentry s n →
          (s.nodes n).linkcount = 2 + (s.nodes n).dentry.length) ∧
        ((s.nodes n).type = .VDIR → ¬ (n = (s.vfss 0).root ∨ HasDentry s n) →
          (s.nodes n).linkcount = 0)) ∧
      ∀ op : Op, op.Allowed s → ∀ s',
        op.run s ≠ .error (.panic "ramfs_free_dentry: linkcount <= 0") s' := by
  have htree := h.tree
  have hwf := htree.forest.wf
  constructor
  . intro n hn hfreed
    have hisDir : (s.nodes n).type = .VDIR → (s.hier.node n).isDir = true := by
      intro hdir
      simpa [St.hier_node, RamNode.hnode] using hdir
    rw [← htree.attached_iff]
    refine ⟨?_, ?_, ?_⟩
    . intro hleaf
      rw [← s.hier_refs]
      apply hwf.leafCount n hn _ hfreed
      simpa [St.hier_node, RamNode.hnode] using hleaf
    . intro hdir hattached
      have := hwf.dirCount n hattached (hisDir hdir)
      simpa [St.hier_node, RamNode.hnode] using this
    . intro hdir hnot
      exact (hwf.dead n hn (hisDir hdir) hfreed hnot).1
  . intro op hop s'
    apply h.not_ruled hop (Or.inl rfl)

theorem linkcount_eq_links_dirWithFile
    : (dirWithFile.nodes 1).linkcount = 2 + (dirWithFile.nodes 1).dentry.length ∧
        (dirWithFile.nodes 2).linkcount = dirWithFile.links 2 := by
  have h := (linkcount_eq_links dirWithFile_reached).1
  constructor
  . apply (h 1 (by decide +kernel) (by decide +kernel)).2.1 (by decide +kernel)
    exact Or.inr ⟨0, ⟨['a'], 1, 3⟩, by decide +kernel, by decide +kernel⟩
  . apply (h 2 (by decide +kernel) (by decide +kernel)).1
    decide +kernel

/--
The directories of a file system are a tree, in every state that operations on it lead to.
-/
theorem directories_form_tree {s : St} (h : Op.Reached Op.Any zeroed s)
    : (∀ n, (s.nodes n).type = .VDIR → n ≠ (s.vfss 0).root → HasDentry s n →
        s.links n = 1 ∧ (∃ de ∈ (s.nodes (s.nodes n).parent).dentry, de.node = n) ∧
        ∃ k, (fun i => (s.nodes i).parent)^[k] n = (s.vfss 0).root) ∧
      ∀ op : Op, op.Allowed s → ∀ s', op.run s ≠ .error (.panic "ramfs_rmdir: parent") s' := by
  have htree := h.tree
  have hwf := htree.forest.wf
  constructor
  . intro n hdir _ hdentry
    have hisDir : (s.hier.node n).isDir = true := by
      simpa [St.hier_node, RamNode.hnode] using hdir
    have hattached := htree.attached_iff.mpr (Or.inr hdentry)
    rcases hdentry with ⟨m, de, hde, rfl⟩
    have hmem := Forest.mem_entries hde
    refine ⟨?_, ?_, ?_⟩
    . rw [← s.hier_refs]
      apply Hier.refs_eq_one hwf hisDir hmem
    . have hparent : (s.nodes de.node).parent = m := (hwf.parent m de.node hmem hisDir).1
      rw [hparent]
      exact ⟨de, hde, rfl⟩
    . rcases Hier.exists_iterate_parent_root hwf hattached hisDir with ⟨k, hk⟩
      exact ⟨k, (htree.root _).mp hk⟩
  . intro op hop s'
    apply h.not_ruled hop (Or.inr rfl)

theorem directories_form_tree_dirWithFile
    : dirWithFile.links 1 = 1 ∧
        (∃ de ∈ (dirWithFile.nodes (dirWithFile.nodes 1).parent).dentry, de.node = 1) ∧
        ∃ k, (fun i => (dirWithFile.nodes i).parent)^[k] 1 = (dirWithFile.vfss 0).root := by
  apply (directories_form_tree dirWithFile_reached).1 1 (by decide +kernel) (by decide +kernel)
  exact ⟨0, ⟨['a'], 1, 3⟩, by decide +kernel, by decide +kernel⟩

end Fs
end Franklin
