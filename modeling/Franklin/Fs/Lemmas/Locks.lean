import Franklin.Fs.Lemmas.Update

/-!
This module contains which locks a program takes, and when it waits for one that is held already.
-/

namespace Franklin
namespace Fs

/--
No lock is held but those of the vnodes in `vl`, those of the ramnodes in `nl` and, if `list` is set,
`vfslist.lock`.
-/
structure Locked (list : Bool) (vl nl : List Nat) (s : St) : Prop where
  list : s.vfslistLock = true → list = true
  vnode : ∀ v, (s.vnodes v).freed = false → (s.vnodes v).lock = true → v ∈ vl
  ramnode : ∀ n, (s.nodes n).ramlock = true → n ∈ nl

def Stuck (M : Prop) (e : Stop) (_ : St) : Prop :=
  e = .hang → M

theorem Stuck.of_ne {M : Prop} {e : Stop} {s : St} (h : e ≠ .hang) : Stuck M e s :=
  fun heq => absurd heq h

theorem Stuck.mono {M M' : Prop} {e : Stop} {s : St} (h : Stuck M e s) (hM : M → M') : Stuck M' e s :=
  fun heq => hM (h heq)

theorem wp_throw_stuck {α : Type} {M : Prop} {e : Stop} {s : St} {Q : α → St → Prop} (h : e ≠ .hang)
    : wp (throw e : Prog α) Q (Stuck M) s :=
  Stuck.of_ne (s := s) h

def Locks (vl nl vl' nl' : List Nat) {α : Type} (x : Prog α) : Prop :=
  ∀ list s, Locked list vl nl s → wp x (fun _ s' => Locked list vl' nl' s') (Stuck False) s

namespace Locks

variable {α β : Type} {vl nl vl' nl' vl'' nl'' : List Nat} {v n : Nat}

theorem pure (a : α) : Locks vl nl vl nl (pure a : Prog α) := by
  intro list s hs
  apply hs

theorem throw {e : Stop} (he : e ≠ .hang) : Locks vl nl vl' nl' (throw e : Prog α) := by
  intro list s hs
  exact wp_throw_stuck he

theorem bind {x : Prog α} {f : α → Prog β} (hx : Locks vl nl vl' nl' x)
    (hf : ∀ a, Locks vl' nl' vl'' nl'' (f a)) : Locks vl nl vl'' nl'' (x >>= f) := by
  intro list s hs
  apply wp_bind_of (hx list s hs)
  intro a s1 hs1
  apply hf a list s1 hs1

theorem ite {c : Prop} [Decidable c] {x y : Prog α} (hx : Locks vl nl vl' nl' x) (hy : Locks vl nl vl' nl' y)
    : Locks vl nl vl' nl' (if c then x else y) := by
  split
  . apply hx
  . apply hy

theorem getSt : Locks vl nl vl nl getSt := by
  intro list s hs
  apply hs

theorem getNode : Locks vl nl vl nl (getNode n) := by
  intro list s hs
  apply hs

theorem getVfs : Locks vl nl vl nl (getVfs n) := by
  intro list s hs
  apply hs

theorem getVnode : Locks vl nl vl nl (getVnode v) := by
  intro list s hs
  rw [wp_getVnode]
  exact ⟨fun _ => .of_ne (by simp), fun _ => hs⟩

theorem setVfs (f : Vfs → Vfs) : Locks vl nl vl nl (setVfs n f) := by
  intro list s hs
  exact ⟨hs.list, hs.vnode, hs.ramnode⟩

theorem setVnode {f : Vnode → Vnode}
    (hmem : ∀ w ∈ vl, w ∈ vl' ∨ w = v ∧ ∀ vn, (f vn).freed = false → (f vn).lock = false)
    (hf : v ∈ vl' ∨ ∀ vn, (f vn).freed = false → (f vn).lock = true → vn.freed = false ∧ vn.lock = true)
    : Locks vl nl vl' nl (setVnode v f) := by
  intro list s hs
  refine ⟨hs.list, ?_, hs.ramnode⟩
  intro w hfreed hlock
  dsimp only at hfreed hlock
  by_cases hw : w = v
  . subst hw
    rw [Function.update_self] at hfreed hlock
    rcases hf with hin | hf
    . apply hin
    . rcases hf _ hfreed hlock with ⟨hfreed', hlock'⟩
      rcases hmem w (hs.vnode w hfreed' hlock') with hin | ⟨_, hnot⟩
      . apply hin
      . rw [hnot _ hfreed] at hlock
        cases hlock
  . rw [Function.update_of_ne hw] at hfreed hlock
    rcases hmem w (hs.vnode w hfreed hlock) with hin | ⟨heq, _⟩
    . apply hin
    . exact absurd heq hw

theorem setNode {f : RamNode → RamNode} (hf : ∀ node, (f node).ramlock = node.ramlock)
    : Locks vl nl vl nl (setNode n f) := by
  intro list s hs
  refine ⟨hs.list, hs.vnode, ?_⟩
  intro m hm
  dsimp only at hm
  by_cases heq : m = n
  . rw [heq, Function.update_self, hf] at hm
    rw [heq]
    apply hs.ramnode n hm
  . rw [Function.update_of_ne heq] at hm
    apply hs.ramnode m hm

theorem acquire (hv : v ∉ vl) : Locks vl nl (v :: vl) nl (acquire v) := by
  intro list s hs
  unfold Fs.acquire
  rw [wp_bind, wp_getVnode]
  refine ⟨fun _ => .of_ne (by simp), ?_⟩
  intro hfreed
  split
  . next hlock => exact absurd (hs.vnode v hfreed hlock) hv
  . apply setVnode _ (Or.inl List.mem_cons_self) list s hs
    intro w hw
    exact Or.inl (List.mem_cons_of_mem _ hw)

theorem release (hvl : ∀ w ∈ vl, w = v ∨ w ∈ vl') : Locks vl nl vl' nl (release v) := by
  apply getVnode.bind
  intro _
  apply setVnode
  . intro w hw
    rcases hvl w hw with heq | hin
    . exact Or.inr ⟨heq, fun _ _ => rfl⟩
    . exact Or.inl hin
  . right
    intro vn _ hlock
    cases hlock

theorem vref_locked : Locks vl nl vl nl (vref_locked v) := by
  apply getVnode.bind
  intro vn
  apply ite
  . exact throw (by simp)
  . apply setVnode
    . intro w hw
      exact Or.inl hw
    . exact Or.inr (fun vn hfreed hlock => ⟨hfreed, hlock⟩)

theorem acquireNode : Locks vl [] vl [n] (acquireNode n) := by
  intro list s hs
  unfold Fs.acquireNode
  rw [wp_bind, wp_getNode]
  split
  . next hlock => exact absurd (hs.ramnode n hlock) List.not_mem_nil
  . refine ⟨hs.list, hs.vnode, ?_⟩
    intro m hm
    dsimp only at hm
    by_cases heq : m = n
    . rw [heq]
      exact List.mem_singleton_self n
    . rw [Function.update_of_ne heq] at hm
      exact absurd (hs.ramnode m hm) List.not_mem_nil

theorem releaseNode : Locks vl [n] vl [] (releaseNode n) := by
  intro list s hs
  refine ⟨hs.list, hs.vnode, ?_⟩
  intro m hm
  dsimp only at hm
  by_cases heq : m = n
  . rw [heq, Function.update_self] at hm
    cases hm
  . rw [Function.update_of_ne heq] at hm
    exact absurd (List.mem_singleton.mp (hs.ramnode m hm)) heq

theorem deref : Locks vl nl vl nl (deref n) := by
  apply getNode.bind
  intro node
  apply ite
  . exact throw (by simp)
  . apply pure

theorem setPrev (p prev : Ptr) : Locks vl nl vl nl (setPrev p prev) := by
  cases p with
  | null => apply pure
  | ref n => exact deref.bind fun _ => @setNode vl nl n (fun node => { node with prev }) (by simp)
  | wild => exact throw (by simp)

theorem setNext (p next : Ptr) : Locks vl nl vl nl (setNext p next) := by
  cases p with
  | null => apply pure
  | ref n => exact deref.bind fun _ => @setNode vl nl n (fun node => { node with next }) (by simp)
  | wild => exact throw (by simp)

theorem ramfs_free_node : Locks vl nl vl nl (ramfs_free_node n) := by
  apply deref.bind
  intro _
  apply getNode.bind
  intro node
  apply (setPrev _ _).bind
  intro _
  apply setNode
  intro _
  rfl

theorem ramfs_inactive : Locks vl [] vl [] (ramfs_inactive n) := by
  apply deref.bind
  intro _
  apply acquireNode.bind
  intro _
  apply bind (setNode (by simp))
  intro _
  apply getNode.bind
  intro node
  split
  . apply ramfs_free_node.bind
    intro _
    apply releaseNode
  . apply releaseNode

theorem vfs_close (hvl : ∀ w ∈ vl, w = v ∨ w ∈ vl') : Locks vl [] vl' [] (vfs_close v) := by
  apply getVnode.bind
  intro vn
  have hlock : Locks vl [] (v :: vl) []
      (Fs.setVnode v fun vn => { vn with lock := true, refcount := vn.refcount - 1 }) := by
    apply setVnode _ (Or.inl List.mem_cons_self)
    intro w hw
    exact Or.inl (List.mem_cons_of_mem _ hw)
  have hmem : ∀ w ∈ v :: vl, w = v ∨ w ∈ vl' := by
    intro w hw
    rcases List.mem_cons.mp hw with heq | hin
    . exact Or.inl heq
    . apply hvl w hin
  apply hlock.bind
  intro _
  split
  . apply ramfs_inactive.bind
    intro _
    apply setVnode
    . intro w hw
      rcases hmem w hw with heq | hin
      . exact Or.inr ⟨heq, by simp⟩
      . exact Or.inl hin
    . exact Or.inr (by simp)
  . apply release hmem

theorem vputOpt (vn : Option Nat) (hvl : ∀ w ∈ vl, vn = some w ∨ w ∈ vl') : Locks vl [] vl' [] (vputOpt vn) := by
  cases vn with
  | none =>
    intro list s hs
    refine ⟨hs.list, ?_, hs.ramnode⟩
    intro w hfreed hlock
    rcases hvl w (hs.vnode w hfreed hlock) with hnone | hin
    . cases hnone
    . apply hin
  | some v =>
    apply vfs_close
    intro w hw
    rcases hvl w hw with heq | hin
    . exact Or.inl (Option.some.inj heq).symm
    . exact Or.inr hin

theorem ramfs_alloc_dentry (name : Name) : Locks vl [] vl [] (ramfs_alloc_dentry n name) := by
  apply acquireNode.bind
  intro _
  apply bind (setNode (by simp))
  intro _
  apply releaseNode.bind
  intro _
  apply pure

theorem ramfs_dir_attach (de : RamDentry) : Locks vl [] vl [] (ramfs_dir_attach n de) := by
  apply acquireNode.bind
  intro _
  apply getNode.bind
  intro node
  apply ite
  . apply releaseNode.bind
    intro _
    apply pure
  . apply bind (setNode (by simp))
    intro _
    apply releaseNode.bind
    intro _
    apply pure

theorem ramfs_dir_detach (de : RamDentry) : Locks vl [] vl [] (ramfs_dir_detach n de) := by
  apply acquireNode.bind
  intro _
  apply bind (setNode (by simp))
  intro _
  apply releaseNode

theorem ramfs_free_dentry (de : RamDentry) : Locks vl [] vl [] (ramfs_free_dentry de) := by
  apply acquireNode.bind
  intro _
  apply getNode.bind
  intro node
  apply ite
  . exact throw (by simp)
  . apply bind (setNode (by simp))
    intro _
    apply releaseNode

theorem ramfs_dir_lookup (name : Name) : Locks vl [] vl [] (ramfs_dir_lookup n name) := by
  apply acquireNode.bind
  intro _
  apply getNode.bind
  intro node
  cases node.dentry.find? fun de => strcmp de.name name = 0 with
  | some de =>
    apply releaseNode.bind
    intro _
    apply pure
  | none =>
    apply ite
    . exact throw (by simp)
    . apply releaseNode.bind
      intro _
      apply pure

theorem unlinkNode : Locks vl nl vl nl (unlinkNode n) := by
  apply getNode.bind
  intro node
  apply (setNext _ _).bind
  intro _
  apply getNode.bind
  intro node
  apply setPrev

theorem ramfs_link (vdir vn : Nat) (name : Name) : Locks vl [] vl [] (ramfs_link vdir vn name) := by
  apply getVnode.bind
  intro vd
  apply getVnode.bind
  intro v
  apply (ramfs_alloc_dentry name).bind
  intro de
  apply (ramfs_dir_attach de).bind
  intro _
  apply pure

theorem remove (d : Nat) (de : RamDentry) : Locks vl [] vl [] (do
    Fs.unlinkNode n
    Fs.ramfs_dir_detach d de
    Fs.ramfs_free_dentry de
    Pure.pure (none : Code)) := by
  apply unlinkNode.bind
  intro _
  apply (ramfs_dir_detach de).bind
  intro _
  apply (ramfs_free_dentry de).bind
  intro _
  apply pure

theorem ramfs_remove (vdir vn : Nat) (name : Name) : Locks vl [] vl [] (ramfs_remove vdir vn name) := by
  apply getVnode.bind
  intro vd
  apply getVnode.bind
  intro v
  apply ite (pure _)
  apply ite (pure _)
  apply (ramfs_dir_lookup name).bind
  intro found
  cases found with
  | none => exact throw (by simp)
  | some de =>
    apply ite
    . exact throw (by simp)
    . apply remove

theorem ramfs_rmdir (vdir vn : Nat) (name : Name) (len : Nat) : Locks vl [] vl [] (ramfs_rmdir vdir vn name len) := by
  apply getVnode.bind
  intro vd
  apply getVnode.bind
  intro v
  apply ite (pure _)
  apply acquireNode.bind
  intro _
  apply getNode.bind
  intro node
  apply ite
  . exact throw (by simp)
  . apply ite
    . apply releaseNode.bind
      intro _
      apply pure
    . apply bind (setNode (by simp))
      intro _
      apply releaseNode.bind
      intro _
      apply (ramfs_dir_lookup name).bind
      intro found
      cases found with
      | none => exact throw (by simp)
      | some de =>
        apply ite
        . exact throw (by simp)
        . apply remove

theorem newNode (vfs : Nat) (dir : Option Nat) (type : VType) (link : Name)
    : Locks vl nl vl nl (newNode vfs dir type link) := by
  intro list s hs
  refine ⟨hs.list, hs.vnode, ?_⟩
  intro m hm
  dsimp only at hm
  by_cases heq : m = s.nextNode
  . rw [heq, Function.update_self] at hm
    cases hm
  . rw [Function.update_of_ne heq] at hm
    apply hs.ramnode m hm

theorem ramfs_alloc_node (vfs : Nat) (dir : Option Nat) (type : VType) (link : Option Name)
    : Locks vl nl vl nl (ramfs_alloc_node vfs dir type link) := by
  apply getSt.bind
  intro st
  apply (setPrev _ _).bind
  intro _
  apply ite
  . exact throw (by simp)
  . apply newNode

theorem ramfs_mount (vfs : Nat) : Locks vl nl vl nl (ramfs_mount vfs) := by
  apply getSt.bind
  intro st
  apply (setVfs _).bind
  intro _
  apply (ramfs_alloc_node _ _ _ _).bind
  intro root
  apply bind (setNode (by simp))
  intro _
  apply (setVfs _).bind
  intro _
  apply pure

theorem freeDentries (entries : List RamDentry) : Locks vl [] vl [] (ramfs_unmount.freeDentries n entries) := by
  induction entries with
  | nil =>
    apply getNode.bind
    intro node
    apply ite
    . exact throw (by simp)
    . apply pure
  | cons de entries ih =>
    apply deref.bind
    intro _
    apply bind (setNode (by simp))
    intro _
    apply (ramfs_dir_detach de).bind
    intro _
    apply (ramfs_free_dentry de).bind
    intro _
    apply getSt.bind
    intro st
    apply ite
    . exact throw (by simp)
    . apply ih

theorem freeAllDentries (fuel : Nat) (p : Ptr) : Locks vl [] vl [] (ramfs_unmount.freeAllDentries fuel p) := by
  induction fuel generalizing p with
  | zero =>
    cases p with
    | null => apply pure
    | ref n => exact throw (by simp)
    | wild => exact throw (by simp)
  | succ fuel ih =>
    cases p with
    | null => apply pure
    | wild => exact throw (by simp)
    | ref n =>
      apply deref.bind
      intro _
      apply bind (setNode (by simp))
      intro _
      apply getNode.bind
      intro node
      apply ite
      . apply ih
      . apply (freeDentries _).bind
        intro _
        apply getNode.bind
        intro node
        apply ih

theorem freeAllNodes (fuel : Nat) (p : Ptr) : Locks vl nl vl nl (ramfs_unmount.freeAllNodes fuel p) := by
  induction fuel generalizing p with
  | zero =>
    cases p with
    | null => apply pure
    | ref n => exact throw (by simp)
    | wild => exact throw (by simp)
  | succ fuel ih =>
    cases p with
    | null => apply pure
    | wild => exact throw (by simp)
    | ref n =>
      apply ramfs_free_node.bind
      intro _
      apply getNode.bind
      intro node
      apply ih

theorem ramfs_unmount (vfs : Nat) : Locks vl [] vl [] (ramfs_unmount vfs) := by
  apply getSt.bind
  intro st
  apply (freeAllDentries _ _).bind
  intro _
  apply (freeAllNodes _ _).bind
  intro _
  apply pure

theorem mono {x : Prog α} (hx : Locks vl nl vl' nl' x) (hvl : ∀ w ∈ vl'', w ∈ vl) : Locks vl'' nl vl' nl' x := by
  intro list s hs
  apply hx list s
  exact ⟨hs.list, fun w hfreed hlock => hvl w (hs.vnode w hfreed hlock), hs.ramnode⟩

end Locks

section Unmade

variable {s : St} {vl : List Nat} {list : Bool} {n d : Nat} {f : RamNode → RamNode}

theorem St.updNode_vnode (hf : ∀ node, (f node).vnode = node.vnode) (m : Nat)
    : ((s.updNode n f).nodes m).vnode = (s.nodes m).vnode := by
  by_cases hm : m = n
  . rw [hm, St.updNode_nodes_self, hf]
  . rw [St.updNode_nodes_of_ne hm]

theorem wp_alloc_node_vnode (vfs : Nat) (dir : Option Nat) (type : VType) (link : Option Name)
    : wp (ramfs_alloc_node vfs dir type link) (fun n s' => (s'.nodes n).vnode = none) (fun _ _ => True) s := by
  unfold ramfs_alloc_node
  rw [wp_bind, wp_getSt]
  apply wp_bind_of wp_trivial
  intro _ s1 _
  split
  . trivial
  . unfold newNode wp
    dsimp only
    rw [Function.update_self]

theorem wp_alloc_dentry_vnode (name : Name)
    : wp (ramfs_alloc_dentry n name) (fun _ s' => ∀ m, (s'.nodes m).vnode = (s.nodes m).vnode)
        (fun _ _ => True) s := by
  unfold ramfs_alloc_dentry
  rw [wp_bind, wp_acquireNode_iff]
  refine ⟨fun _ => trivial, ?_⟩
  intro _
  rw [wp_bind, wp_setNode_iff, wp_bind, wp_releaseNode_iff, wp_pure, St.updNode_updNode, St.updNode_updNode]
  apply St.updNode_vnode
  intro node
  rfl

theorem wp_dir_attach_vnode (de : RamDentry)
    : wp (ramfs_dir_attach d de) (fun _ s' => ∀ m, (s'.nodes m).vnode = (s.nodes m).vnode)
        (fun _ _ => True) s := by
  unfold ramfs_dir_attach
  rw [wp_bind, wp_acquireNode_iff]
  refine ⟨fun _ => trivial, ?_⟩
  intro _
  rw [wp_bind, wp_getNode]
  split
  . rw [wp_bind, wp_releaseNode_iff, wp_pure, St.updNode_updNode]
    apply St.updNode_vnode
    intro node
    rfl
  . rw [wp_bind, wp_setNode_iff, wp_bind, wp_releaseNode_iff, wp_pure, St.updNode_updNode, St.updNode_updNode]
    apply St.updNode_vnode
    intro node
    rfl

theorem Locked.wp_vget_unmade (h : Locked list vl [] s) (hn : (s.nodes n).vnode = none) (vfs : Nat)
    : wp (ramfs_vget vfs n) (fun _ s' => Locked list vl [] s') (Stuck False) s := by
  have hfree : (s.nodes n).ramlock = false := by
    by_contra hlock
    rw [Bool.not_eq_false] at hlock
    exact absurd (h.ramnode n hlock) List.not_mem_nil
  apply wp_ramfs_vget_none (fun _ => .of_ne (by simp)) hn hfree
  unfold St.vnew
  refine ⟨h.list, ?_, ?_⟩
  . intro w hw hlock
    dsimp only at hw hlock
    by_cases heq : w = s.nextVnode
    . rw [heq, Function.update_self] at hlock
      cases hlock
    . rw [Function.update_of_ne heq] at hw hlock
      apply h.vnode w hw hlock
  . intro m hm
    dsimp only at hm
    by_cases heq : m = n
    . rw [heq, St.updNode_nodes_self] at hm
      cases hm
    . rw [St.updNode_nodes_of_ne heq] at hm
      apply h.ramnode m hm

theorem Locks.ramfs_alloc_file (vdir : Nat) (name : Name) (len : Nat) (type : VType) (target : Option Name)
    : Locks vl [] vl [] (ramfs_alloc_file vdir name len type target) := by
  apply getVnode.bind
  intro vd
  apply ite (pure _)
  intro list s hs
  apply wp_bind_of (wp_conj (ramfs_alloc_node _ _ _ _ list s hs) (wp_alloc_node_vnode _ _ _ _))
  intro n s1 hs1
  apply wp_bind_of (wp_conj (ramfs_alloc_dentry _ list s1 hs1.1) (wp_alloc_dentry_vnode _))
  intro de s2 hs2
  apply wp_bind_of (wp_conj (ramfs_dir_attach de list s2 hs2.1) (wp_dir_attach_vnode de))
  intro _ s3 hs3
  apply wp_bind_of (hs3.1.wp_vget_unmade _ _)
  . intro v s4 hs4
    apply hs4
  . rw [hs3.2, hs2.2, hs1.2]

end Unmade

end Fs
end Franklin
