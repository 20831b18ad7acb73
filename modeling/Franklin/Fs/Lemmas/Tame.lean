import Franklin.Fs.Calls
import Franklin.Fs.Lemmas.Forest
import Franklin.Fs.Lemmas.Namei
import Franklin.Fs.Lemmas.Rules

/-!
This module contains what the functions of `vfs.c` do to the names in the directories, in every state
with consistent vnodes.
-/

namespace Franklin
namespace Fs

def Shrinks (s s' : St) : Prop :=
  ∀ n, (s'.nodes n).dentry.Sublist (s.nodes n).dentry

theorem Shrinks.refl (s : St) : Shrinks s s :=
  fun _ => List.Sublist.refl _

theorem Shrinks.trans {s s1 s2 : St} (h : Shrinks s s1) (h1 : Shrinks s1 s2) : Shrinks s s2 :=
  fun n => (h1 n).trans (h n)

theorem Shrinks.of_eq {s s' : St} (h : ∀ n, (s'.nodes n).dentry = (s.nodes n).dentry) : Shrinks s s' :=
  fun n => h n ▸ List.Sublist.refl _

def Tame {α : Type} (x : Prog α) : Prop :=
  Keeps Inv Shrinks x

namespace Tame

variable {α β : Type} {s : St} {v n : Nat}

theorem pure (a : α) : Tame (pure a : Prog α) :=
  Keeps.pure Shrinks.refl a

theorem throw (e : Stop) : Tame (throw e : Prog α) :=
  Keeps.throw e

theorem bind {x : Prog α} {f : α → Prog β} (hx : Tame x) (hf : ∀ a, Tame (f a)) : Tame (x >>= f) :=
  Keeps.bind (fun _ _ _ => Shrinks.trans) hx hf

theorem ite {c : Prop} [Decidable c] {x y : Prog α} (hx : Tame x) (hy : Tame y)
    : Tame (if c then x else y) :=
  Keeps.ite hx hy

theorem getSt : Tame getSt := by
  intro s hs
  exact ⟨hs, Shrinks.refl s⟩

theorem getVnode : Tame (getVnode v) := by
  intro s hs
  rw [wp_getVnode]
  exact ⟨fun _ => trivial, fun _ => ⟨hs, Shrinks.refl s⟩⟩

theorem getNode : Tame (getNode n) := by
  intro s hs
  exact ⟨hs, Shrinks.refl s⟩

theorem getVfs : Tame (getVfs n) := by
  intro s hs
  exact ⟨hs, Shrinks.refl s⟩

theorem setVnode {f : Vnode → Vnode}
    (hf : ∀ vn, (f vn).data = vn.data ∧ (f vn).type = vn.type ∧ (f vn).freed = vn.freed ∧
      vn.refcount ≤ (f vn).refcount) : Tame (setVnode v f) := by
  intro s hs
  rw [wp_setVnode]
  refine ⟨?_, Shrinks.of_eq (fun _ => rfl)⟩
  have hother : ∀ w, Function.update s.vnodes v (f (s.vnodes v)) w =
      if w = v then f (s.vnodes w) else s.vnodes w := by
    intro w
    by_cases hw : w = v
    . rw [hw, Function.update_self, if_pos rfl]
    . rw [Function.update_of_ne hw, if_neg hw]
  refine ⟨?_, ?_, hs.mountpoint, hs.rootvn⟩
  . intro m w hw
    rcases hs.linked m w hw with ⟨hlt, hdata, hfreed, htype⟩
    dsimp only
    rw [hother]
    split
    . rcases hf (s.vnodes w) with ⟨h1, h2, h3, _⟩
      rw [h1, h2, h3]
      exact ⟨hlt, hdata, hfreed, htype⟩
    . exact ⟨hlt, hdata, hfreed, htype⟩
  . intro w hw
    dsimp only
    rw [hother]
    split
    . rcases hf (s.vnodes w) with ⟨_, _, h3, h4⟩
      rw [h3]
      intro hfreed
      have := hs.counted w hw hfreed
      omega
    . apply hs.counted w hw

theorem setNode {f : RamNode → RamNode}
    (hf : ∀ node, ((f node).vnode = none ∨ (f node).vnode = node.vnode) ∧ (f node).type = node.type ∧
      (f node).dentry.Sublist node.dentry) : Tame (setNode n f) := by
  intro s hs
  rw [wp_setNode_iff]
  have hnode : ∀ m, (s.updNode n f).nodes m = if m = n then f (s.nodes m) else s.nodes m := by
    intro m
    by_cases hm : m = n
    . rw [hm, St.updNode_nodes_self, if_pos rfl]
    . rw [St.updNode_nodes_of_ne hm, if_neg hm]
  refine ⟨⟨?_, hs.counted, hs.mountpoint, hs.rootvn⟩, ?_⟩
  . intro m w hw
    rw [hnode] at hw ⊢
    split at hw
    . next hm =>
      rw [if_pos hm, (hf _).2.1]
      cases (hf (s.nodes m)).1 with
      | inl hnone =>
        rw [hnone] at hw
        cases hw
      | inr hsame =>
        rw [hsame] at hw
        apply hs.linked m w hw
    . next hm =>
      rw [if_neg hm]
      apply hs.linked m w hw
  . intro m
    rw [hnode]
    split
    . exact (hf _).2.2
    . apply List.Sublist.refl

theorem files : FileRules fun _ x => Tame x where
  pure := pure
  throw := throw
  bind := bind
  getSt := getSt
  getVnode _ := getVnode
  getNode _ := getNode
  setNode n f hf := by
    apply setNode
    intro node
    rcases hf node with ⟨hvnode, htype, _, hdentry⟩
    exact ⟨hvnode, htype, hdentry⟩

theorem acquire : Tame (acquire v) := by
  apply getVnode.bind
  intro vn
  apply Tame.ite
  . apply Tame.throw
  . apply Tame.setVnode
    simp

theorem release : Tame (release v) := by
  apply getVnode.bind
  intro vn
  apply Tame.setVnode
  simp

theorem acquireNode : Tame (acquireNode n) :=
  files.acquireNode n

theorem releaseNode : Tame (releaseNode n) :=
  files.releaseNode n

theorem vref_locked : Tame (vref_locked v) := by
  apply getVnode.bind
  intro vn
  apply Tame.ite
  . apply Tame.throw
  . apply Tame.setVnode
    simp

theorem vfs_close : Tame (vfs_close v) := by
  intro s hs
  by_cases hfreed : (s.vnodes v).freed = true
  . unfold Fs.vfs_close
    rw [wp_bind, wp_getVnode]
    simp [hfreed]
  . apply wp_mono (wp_vfs_close_iff (P := fun _ => True) (by simpa using hfreed)
      (Q := fun _ s' => Inv s' ∧ Shrinks s s') ⟨?_, ?_⟩)
    . intro _ s1 hs1
      apply hs1
    . simp
    . apply hs.close (by simpa using hfreed)
    . apply Shrinks.of_eq
      intro m
      have := congrArg RamNode.dentry (Forest.close_nodes (s := s) (v := v) m)
      change ((s.close v).nodes m).dentry = _ at this
      rw [this]
      split <;> rfl

theorem newVnode {vfs : Nat} : Tame (newVnode vfs n) := by
  intro s hs
  have hw : wp (Fs.newVnode vfs n) (fun _ s' => Inv s' ∧ Shrinks s s') (fun _ _ => True) s := by
    refine ⟨⟨?_, ?_, ?_, ?_⟩, ?_⟩
    . intro m w hm
      dsimp only at hm ⊢
      by_cases heq : m = n
      . rw [heq, Function.update_self, Option.some.injEq] at hm
        rw [heq, ← hm, Function.update_self, Function.update_self]
        exact ⟨by omega, rfl, rfl, rfl⟩
      . rw [Function.update_of_ne heq] at hm ⊢
        rcases hs.linked m w hm with ⟨hlt, hrest⟩
        rw [Function.update_of_ne (by omega)]
        exact ⟨by omega, hrest⟩
    . intro w hlt
      dsimp only at hlt ⊢
      by_cases heq : w = s.nextVnode
      . rw [heq, Function.update_self]
        simp
      . rw [Function.update_of_ne heq]
        apply hs.counted w (by omega)
    . intro vfs' w hw
      have := hs.mountpoint vfs' w hw
      dsimp only
      omega
    . intro w hw
      have := hs.rootvn w hw
      dsimp only
      omega
    . apply Shrinks.of_eq
      intro m
      dsimp only
      by_cases heq : m = n
      . rw [heq, Function.update_self]
      . rw [Function.update_of_ne heq]
  apply hw

theorem walk : WalkRules fun _ x => Tame x where
  pure := pure
  throw e _ := throw e
  bind := bind
  getSt := getSt
  getVnode _ := getVnode
  getNode _ := getNode
  getVfs _ := getVfs
  acquire _ := acquire
  release _ := release
  acquireNode _ := acquireNode
  releaseNode _ := releaseNode
  vref_locked _ := vref_locked
  newVnode _ _ := newVnode
  vfs_close _ := vfs_close

theorem vputOpt {vn : Option Nat} : Tame (vputOpt vn) :=
  walk.vputOpt vn

theorem ramfs_vget {vfs : Nat} : Tame (ramfs_vget vfs n) :=
  walk.ramfs_vget vfs n

theorem ramfs_remove {vdir vn : Nat} {name : Name} : Tame (ramfs_remove vdir vn name) :=
  files.ramfs_remove vdir vn name

theorem ramfs_rmdir {vdir vn len : Nat} {name : Name} : Tame (ramfs_rmdir vdir vn name len) :=
  files.ramfs_rmdir vdir vn name len

theorem ramfs_unmount {vfs : Nat} : Tame (ramfs_unmount vfs) :=
  files.ramfs_unmount vfs

theorem setVfs {vfs : Nat} {f : Vfs → Vfs} (hf : ∀ vfs, (f vfs).mountpoint = vfs.mountpoint)
    : Tame (setVfs vfs f) := by
  intro s hs
  rw [wp_setVfs]
  refine ⟨⟨hs.linked, hs.counted, ?_, hs.rootvn⟩, Shrinks.of_eq (fun _ => rfl)⟩
  intro vfs' w hw
  dsimp only at hw
  by_cases heq : vfs' = vfs
  . rw [heq, Function.update_self, hf] at hw
    apply hs.mountpoint vfs w hw
  . rw [Function.update_of_ne heq] at hw
    apply hs.mountpoint vfs' w hw

theorem newNode {vfs : Nat} {dir : Option Nat} {type : VType} {link : Name}
    : Tame (newNode vfs dir type link) := by
  intro s hs
  have hw : wp (Fs.newNode vfs dir type link) (fun _ s' => Inv s' ∧ Shrinks s s') (fun _ _ => True) s := by
    refine ⟨⟨?_, hs.counted, ?_, hs.rootvn⟩, ?_⟩
    . intro m w hm
      dsimp only at hm ⊢
      by_cases heq : m = s.nextNode
      . rw [heq, Function.update_self] at hm
        cases hm
      . rw [Function.update_of_ne heq] at hm ⊢
        apply hs.linked m w hm
    . intro vfs' w hw
      dsimp only at hw
      by_cases heq : vfs' = vfs
      . rw [heq, Function.update_self] at hw
        apply hs.mountpoint vfs w hw
      . rw [Function.update_of_ne heq] at hw
        apply hs.mountpoint vfs' w hw
    . intro m
      dsimp only
      by_cases heq : m = s.nextNode
      . rw [heq, Function.update_self]
        apply List.nil_sublist
      . rw [Function.update_of_ne heq]
  apply hw

theorem ramfs_alloc_node {vfs : Nat} {dir : Option Nat} {type : VType} {link : Option Name}
    : Tame (ramfs_alloc_node vfs dir type link) :=
  files.ramfs_alloc_node (fun _ _ _ _ => newNode) vfs dir type link

theorem ramfs_mount {vfs : Nat} : Tame (ramfs_mount vfs) := by
  apply getSt.bind
  intro st
  apply Tame.bind
  . apply setVfs
    simp
  . intro _
    apply ramfs_alloc_node.bind
    intro root
    apply Tame.bind
    . apply Tame.setNode
      simp
    . intro _
      apply Tame.bind
      . apply setVfs
        simp
      . intro _
        apply Tame.pure

theorem acquireList : Tame acquireList := by
  intro s hs
  rw [wp_acquireList]
  exact ⟨fun _ => trivial, fun _ => ⟨⟨hs.linked, hs.counted, hs.mountpoint, hs.rootvn⟩,
    Shrinks.of_eq (fun _ => rfl)⟩⟩

theorem releaseList : Tame releaseList := by
  intro s hs
  exact ⟨⟨hs.linked, hs.counted, hs.mountpoint, hs.rootvn⟩, Shrinks.of_eq (fun _ => rfl)⟩

theorem newVfs : Tame newVfs := by
  intro s hs
  rw [wp_newVfs]
  refine ⟨⟨hs.linked, hs.counted, ?_, hs.rootvn⟩, Shrinks.of_eq (fun _ => rfl)⟩
  intro vfs v hv
  dsimp only at hv
  by_cases heq : vfs = s.nextVfs
  . rw [heq, Function.update_self] at hv
    simp at hv
  . rw [Function.update_of_ne heq] at hv
    apply hs.mountpoint vfs v hv

theorem finish {vfs : Nat} : Tame (vfs_mount.finish vfs) := by
  apply getSt.bind
  intro st
  apply Tame.bind
  . apply setVfs
    simp
  . intro _
    have hlist : Tame (fun st => .ok () { st with mountedlist := some vfs }) := by
      intro s hs
      exact ⟨⟨hs.linked, hs.counted, hs.mountpoint, hs.rootvn⟩, Shrinks.of_eq (fun _ => rfl)⟩
    apply hlist.bind
    intro _
    apply ramfs_mount.bind
    intro error
    apply releaseList.bind
    intro _
    apply Tame.pure

theorem fail2 {error : Errno} {nd : Nameidata} : Tame (vfs_mount.fail2 error nd) := by
  apply vputOpt.bind
  intro _
  apply vfs_close.bind
  intro _
  apply releaseList.bind
  intro _
  apply Tame.pure

end Tame

def Edits (d : Nat) (new : Name) (s s' : St) : Prop :=
  ∀ n, (s'.nodes n).dentry.Sublist (s.nodes n).dentry ∨
    n = d ∧ ∃ de l, de.name = new ∧ (s'.nodes n).dentry = de :: l ∧ l.Sublist (s.nodes n).dentry

section Edits

variable {s s1 s' : St} {d : Nat} {new : Name}

theorem Shrinks.edits (h : Shrinks s s') : Edits d new s s' :=
  fun n => Or.inl (h n)

theorem Edits.after (h : Shrinks s s1) (h1 : Edits d new s1 s') : Edits d new s s' := by
  intro n
  cases h1 n with
  | inl hsub => exact Or.inl (hsub.trans (h n))
  | inr hadd =>
    rcases hadd with ⟨hn, de, l, hname, heq, hsub⟩
    exact Or.inr ⟨hn, de, l, hname, heq, hsub.trans (h n)⟩

theorem Edits.before (h : Edits d new s s1) (h1 : Shrinks s1 s') : Edits d new s s' := by
  intro n
  cases h n with
  | inl hsub => exact Or.inl ((h1 n).trans hsub)
  | inr hadd =>
    rcases hadd with ⟨hn, de, l, hname, heq, hsub⟩
    have hcons := h1 n
    rw [heq, List.sublist_cons_iff] at hcons
    cases hcons with
    | inl hl => exact Or.inl (hl.trans hsub)
    | inr hl =>
      rcases hl with ⟨l', heq', hl'⟩
      exact Or.inr ⟨hn, de, l', hname, heq', hl'.trans hsub⟩

theorem Tame.edits {α β : Type} {x : Prog α} {f : α → Prog β} (hx : Tame x) (hinv : Inv s)
    (hf : ∀ a s1, Inv s1 → Shrinks s s1 →
      wp (f a) (fun _ s' => Inv s' ∧ Edits d new s1 s') (fun _ _ => True) s1)
    : wp (x >>= f) (fun _ s' => Inv s' ∧ Edits d new s s') (fun _ _ => True) s := by
  apply wp_bind_of (hx s hinv)
  intro a s1 hs1
  apply wp_mono (hf a s1 hs1.1 hs1.2)
  . intro b s2 hs2
    exact ⟨hs2.1, hs2.2.after hs1.2⟩
  . intro e s2 he
    apply he

theorem wp_dir_attach_edits (hinv : Inv s) (de : RamDentry)
    : wp (ramfs_dir_attach d de) (fun _ s' => Inv s' ∧ Edits d de.name s s') (fun _ _ => True) s := by
  apply Tame.acquireNode.edits hinv
  intro _ s1 hinv1 _
  rw [wp_bind, wp_getNode]
  split
  . apply Tame.releaseNode.edits hinv1
    intro _ s2 hinv2 _
    exact ⟨hinv2, (Shrinks.refl s2).edits⟩
  . rw [wp_bind, wp_setNode_iff, wp_bind, wp_releaseNode_iff, wp_pure, St.updNode_updNode]
    change Inv (s1.attach d de) ∧ Edits d de.name s1 (s1.attach d de)
    refine ⟨((SameVnodes.refl s1).attach de).inv hinv1, ?_⟩
    intro n
    unfold St.attach
    by_cases hn : n = d
    . subst hn
      rw [St.updNode_nodes_self]
      exact Or.inr ⟨rfl, { de with seq := (s1.nodes n).lastseq }, (s1.nodes n).dentry, rfl, rfl,
        List.Sublist.refl _⟩
    . rw [St.updNode_nodes_of_ne hn]
      exact Or.inl (List.Sublist.refl _)

theorem wp_alloc_dentry (hinv : Inv s) (n : Nat) (name : Name)
    : wp (ramfs_alloc_dentry n name) (fun de s' => de.name = name ∧ Inv s' ∧ Shrinks s s')
        (fun _ _ => True) s := by
  unfold ramfs_alloc_dentry
  apply wp_bind_of (Tame.acquireNode s hinv)
  intro _ s1 hs1
  have hset : Tame (setNode n fun node => { node with linkcount := node.linkcount + 1 }) := by
    apply Tame.setNode
    simp
  apply wp_bind_of (hset s1 hs1.1)
  intro _ s2 hs2
  apply wp_bind_of (Tame.releaseNode s2 hs2.1)
  intro _ s3 hs3
  exact ⟨rfl, hs3.1, (hs1.2.trans hs2.2).trans hs3.2⟩

theorem wp_new_dentry {α : Type} {x : Prog α} (hinv : Inv s) (hx : Tame x) (n : Nat) (name : Name)
    : wp (do
          let de ← ramfs_alloc_dentry n name
          let _ ← ramfs_dir_attach d de
          x) (fun _ s' => Inv s' ∧ Edits d name s s') (fun _ _ => True) s := by
  apply wp_bind_of (wp_alloc_dentry hinv n name)
  intro de s1 hs1
  rcases hs1 with ⟨rfl, hinv1, hsub1⟩
  apply wp_bind_of (wp_dir_attach_edits hinv1 de)
  intro _ s2 hs2
  apply wp_mono (hx s2 hs2.1)
  . intro a s3 hs3
    exact ⟨hs3.1, (hs2.2.after hsub1).before hs3.2⟩
  . intro e s3 he
    apply he

theorem wp_alloc_file_edits {vdir len : Nat} {name : Name} {type : VType} {target : Option Name}
    (hinv : Inv s)
    : wp (ramfs_alloc_file vdir name len type target)
        (fun _ s' => Inv s' ∧ Edits (s.vnodes vdir).data (strldup name len) s s')
        (fun _ _ => True) s := by
  unfold ramfs_alloc_file
  rw [wp_bind, wp_getVnode]
  refine ⟨fun _ => trivial, ?_⟩
  intro _
  dsimp only
  split
  . exact ⟨hinv, (Shrinks.refl s).edits⟩
  . apply Tame.ramfs_alloc_node.edits hinv
    intro n s1 hinv1 _
    apply wp_new_dentry hinv1
    apply Tame.ramfs_vget.bind
    intro v
    apply Tame.pure

theorem wp_ramfs_link_edits {vdir vn : Nat} {name : Name} (hinv : Inv s)
    : wp (ramfs_link vdir vn name) (fun _ s' => Inv s' ∧ Edits (s.vnodes vdir).data name s s')
        (fun _ _ => True) s := by
  unfold ramfs_link
  rw [wp_bind, wp_getVnode]
  refine ⟨fun _ => trivial, ?_⟩
  intro _
  rw [wp_bind, wp_getVnode]
  refine ⟨fun _ => trivial, ?_⟩
  intro _
  apply wp_new_dentry hinv (Tame.pure none)

end Edits

end Fs
end Franklin
