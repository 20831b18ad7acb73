import Franklin.Fs.Lemmas.Rules

/-!
This module contains what every function of `vfs.c` and `ramfs.c` but `vfs_mount` and `vfs_unmount` leaves
as it is: the mount table, and the members of a vnode that are set once. No function takes a ramnode back.
-/

namespace Franklin
namespace Fs

def Vnode.fixed (vn : Vnode) : Nat × Option Nat × VType × Bool × Nat :=
  (vn.vfs, vn.mountedhere, vn.type, vn.vroot, vn.data)

structure SameMounts (s s' : St) : Prop where
  mountedlist : s'.mountedlist = s.mountedlist
  rootfs : s'.rootfs = s.rootfs
  nextVfs : s'.nextVfs = s.nextVfs
  next : ∀ v, (s'.vfss v).next = (s.vfss v).next
  mountpoint : ∀ v, (s'.vfss v).mountpoint = (s.vfss v).mountpoint
  le : s.nextVnode ≤ s'.nextVnode
  node_le : s.nextNode ≤ s'.nextNode
  fixed : ∀ v, v < s.nextVnode → (s'.vnodes v).fixed = (s.vnodes v).fixed
  freed : ∀ v, v < s.nextVnode ∨ s'.nextVnode ≤ v → (s.vnodes v).freed = true →
    (s'.vnodes v).freed = true

namespace SameMounts

variable {s s1 s2 : St}

theorem refl (s : St) : SameMounts s s :=
  ⟨rfl, rfl, rfl, fun _ => rfl, fun _ => rfl, Nat.le_refl _, Nat.le_refl _, fun _ _ => rfl,
    fun _ _ h => h⟩

theorem trans (h : SameMounts s s1) (h1 : SameMounts s1 s2) : SameMounts s s2 where
  mountedlist := h1.mountedlist.trans h.mountedlist
  rootfs := h1.rootfs.trans h.rootfs
  nextVfs := h1.nextVfs.trans h.nextVfs
  next v := (h1.next v).trans (h.next v)
  mountpoint v := (h1.mountpoint v).trans (h.mountpoint v)
  le := Nat.le_trans h.le h1.le
  node_le := Nat.le_trans h.node_le h1.node_le
  fixed v hv := (h1.fixed v (Nat.lt_of_lt_of_le hv h.le)).trans (h.fixed v hv)
  freed v hv hfreed := by
    have := h.le
    have := h1.le
    apply h1.freed v (by omega)
    apply h.freed v (by omega) hfreed

end SameMounts

def Fixed {α : Type} (x : Prog α) : Prop :=
  Keeps (fun _ => True) SameMounts x

namespace Fixed

variable {α β : Type} {v n vdir vn len : Nat} {name : Name}

theorem pure (a : α) : Fixed (pure a : Prog α) :=
  Keeps.pure SameMounts.refl a

theorem throw (e : Stop) : Fixed (throw e : Prog α) :=
  Keeps.throw e

theorem bind {x : Prog α} {f : α → Prog β} (hx : Fixed x) (hf : ∀ a, Fixed (f a)) : Fixed (x >>= f) :=
  Keeps.bind (fun _ _ _ => SameMounts.trans) hx hf

theorem ite {c : Prop} [Decidable c] {x y : Prog α} (hx : Fixed x) (hy : Fixed y)
    : Fixed (if c then x else y) :=
  Keeps.ite hx hy

theorem getSt : Fixed getSt := by
  intro s _
  exact ⟨trivial, SameMounts.refl s⟩

theorem getVnode : Fixed (getVnode v) := by
  intro s _
  unfold wp Fs.getVnode
  cases (s.vnodes v).freed with
  | false => exact ⟨trivial, SameMounts.refl s⟩
  | true => trivial

theorem getNode : Fixed (getNode n) := by
  intro s _
  exact ⟨trivial, SameMounts.refl s⟩

theorem getVfs : Fixed (getVfs n) := by
  intro s _
  exact ⟨trivial, SameMounts.refl s⟩

theorem setVnode {f : Vnode → Vnode}
    (hf : ∀ vn, (f vn).fixed = vn.fixed ∧ (vn.freed = true → (f vn).freed = true))
    : Fixed (setVnode v f) := by
  intro s _
  have hvn : ∀ w, (Function.update s.vnodes v (f (s.vnodes v)) w).fixed = (s.vnodes w).fixed ∧
      ((s.vnodes w).freed = true →
        (Function.update s.vnodes v (f (s.vnodes v)) w).freed = true) := by
    intro w
    by_cases hw : w = v
    . rw [hw, Function.update_self]
      apply hf
    . rw [Function.update_of_ne hw]
      exact ⟨rfl, fun h => h⟩
  exact ⟨trivial, rfl, rfl, rfl, fun _ => rfl, fun _ => rfl, Nat.le_refl _, Nat.le_refl _,
    fun w _ => (hvn w).1, fun w _ => (hvn w).2⟩

theorem setNode {f : RamNode → RamNode} : Fixed (setNode n f) := by
  intro s _
  exact ⟨trivial, rfl, rfl, rfl, fun _ => rfl, fun _ => rfl, Nat.le_refl _, Nat.le_refl _,
    fun _ _ => rfl, fun _ _ h => h⟩

theorem setVfs {f : Vfs → Vfs} (hf : ∀ vfs, (f vfs).next = vfs.next ∧ (f vfs).mountpoint = vfs.mountpoint)
    : Fixed (setVfs n f) := by
  intro s _
  have hvfs : ∀ v, Function.update s.vfss n (f (s.vfss n)) v =
      if v = n then f (s.vfss v) else s.vfss v := by
    intro v
    by_cases hv : v = n
    . rw [hv, Function.update_self, if_pos rfl]
    . rw [Function.update_of_ne hv, if_neg hv]
  refine ⟨trivial, rfl, rfl, rfl, ?_, ?_, Nat.le_refl _, Nat.le_refl _, fun _ _ => rfl,
    fun _ _ h => h⟩
  . intro v
    dsimp only
    rw [hvfs]
    split
    . exact (hf _).1
    . rfl
  . intro v
    dsimp only
    rw [hvfs]
    split
    . exact (hf _).2
    . rfl

theorem acquire : Fixed (acquire v) := by
  apply getVnode.bind
  intro vn
  apply ite (throw _)
  apply setVnode
  intro vn
  exact ⟨rfl, fun h => h⟩

theorem release : Fixed (release v) := by
  apply getVnode.bind
  intro vn
  apply setVnode
  intro vn
  exact ⟨rfl, fun h => h⟩

theorem files : FileRules fun _ x => Fixed x where
  pure := pure
  throw := throw
  bind := bind
  getSt := getSt
  getVnode _ := getVnode
  getNode _ := getNode
  setNode _ _ _ := setNode

theorem vref_locked : Fixed (vref_locked v) := by
  apply getVnode.bind
  intro vn
  apply ite (throw _)
  apply setVnode
  intro vn
  exact ⟨rfl, fun h => h⟩

theorem acquireList : Fixed acquireList := by
  intro s _
  unfold wp Fs.acquireList
  cases s.vfslistLock with
  | false => exact ⟨trivial, rfl, rfl, rfl, fun _ => rfl, fun _ => rfl, Nat.le_refl _, Nat.le_refl _,
    fun _ _ => rfl, fun _ _ h => h⟩
  | true => trivial

theorem releaseList : Fixed releaseList := by
  intro s _
  exact ⟨trivial, rfl, rfl, rfl, fun _ => rfl, fun _ => rfl, Nat.le_refl _, Nat.le_refl _,
    fun _ _ => rfl, fun _ _ h => h⟩

theorem vfs_close : Fixed (vfs_close v) := by
  apply getVnode.bind
  intro vn
  apply bind
  . apply setVnode
    intro vn
    exact ⟨rfl, fun h => h⟩
  . intro _
    apply ite
    . apply (files.ramfs_inactive _).bind
      intro _
      apply setVnode
      intro vn
      exact ⟨rfl, fun _ => rfl⟩
    . apply release

theorem newVnode {vfs : Nat} : Fixed (newVnode vfs n) := by
  intro s _
  refine ⟨trivial, rfl, rfl, rfl, fun _ => rfl, fun _ => rfl, Nat.le_succ _, Nat.le_refl _, ?_, ?_⟩
  . intro w hw
    dsimp only
    rw [Function.update_of_ne (Nat.ne_of_lt hw)]
  . intro w hw hfreed
    dsimp only at hw ⊢
    rw [Function.update_of_ne (by omega)]
    apply hfreed

theorem walk : WalkRules fun _ x => Fixed x where
  pure := pure
  throw e _ := throw e
  bind := bind
  getSt := getSt
  getVnode _ := getVnode
  getNode _ := getNode
  getVfs _ := getVfs
  acquire _ := acquire
  release _ := release
  acquireNode := files.acquireNode
  releaseNode := files.releaseNode
  vref_locked _ := vref_locked
  newVnode _ _ := newVnode
  vfs_close _ := vfs_close

theorem vputOpt {vn : Option Nat} : Fixed (vputOpt vn) :=
  walk.vputOpt vn

theorem ramfs_vget {vfs : Nat} : Fixed (ramfs_vget vfs n) :=
  walk.ramfs_vget vfs n

theorem namei (fuel : Nat) : Fixed (namei name fuel) :=
  walk.namei name fuel

theorem newNode {vfs : Nat} {dir : Option Nat} {type : VType} {link : Name}
    : Fixed (newNode vfs dir type link) := by
  intro s _
  have hvfs : ∀ v nodes,
      (Function.update s.vfss vfs { s.vfss vfs with nodes } v).next = (s.vfss v).next ∧
        (Function.update s.vfss vfs { s.vfss vfs with nodes } v).mountpoint = (s.vfss v).mountpoint := by
    intro v nodes
    by_cases hv : v = vfs
    . rw [hv, Function.update_self]
      exact ⟨rfl, rfl⟩
    . rw [Function.update_of_ne hv]
      exact ⟨rfl, rfl⟩
  exact ⟨trivial, rfl, rfl, rfl, fun v => (hvfs v _).1, fun v => (hvfs v _).2, Nat.le_refl _,
    Nat.le_succ _, fun _ _ => rfl, fun _ _ h => h⟩

theorem ramfs_alloc_node {vfs : Nat} {dir : Option Nat} {type : VType} {link : Option Name}
    : Fixed (ramfs_alloc_node vfs dir type link) :=
  files.ramfs_alloc_node (fun _ _ _ _ => newNode) vfs dir type link

theorem ramfs_dir_attach {de : RamDentry} : Fixed (ramfs_dir_attach n de) := by
  apply (files.acquireNode n).bind
  intro _
  apply getNode.bind
  intro node
  apply ite
  . apply (files.releaseNode n).bind
    intro _
    apply pure
  . apply setNode.bind
    intro _
    apply (files.releaseNode n).bind
    intro _
    apply pure

theorem ramfs_alloc_file {type : VType} {target : Option Name}
    : Fixed (ramfs_alloc_file vdir name len type target) := by
  apply getVnode.bind
  intro vd
  apply ite
  . apply pure
  . apply ramfs_alloc_node.bind
    intro n
    apply (files.ramfs_alloc_dentry _ _).bind
    intro de
    apply ramfs_dir_attach.bind
    intro _
    apply ramfs_vget.bind
    intro v
    apply pure

theorem ramfs_link : Fixed (ramfs_link vdir vn name) := by
  apply getVnode.bind
  intro vd
  apply getVnode.bind
  intro v
  apply (files.ramfs_alloc_dentry _ _).bind
  intro de
  apply ramfs_dir_attach.bind
  intro _
  apply pure

theorem calls : CallRules fun _ x => Fixed x where
  walk := walk
  files := files
  ramfs_alloc_file _ _ _ _ _ := ramfs_alloc_file
  ramfs_link _ _ _ := ramfs_link

theorem ramfs_mount {vfs : Nat} : Fixed (ramfs_mount vfs) := by
  apply getSt.bind
  intro st
  apply bind
  . apply setVfs
    intro vfs
    exact ⟨rfl, rfl⟩
  . intro _
    apply ramfs_alloc_node.bind
    intro root
    apply setNode.bind
    intro _
    apply bind
    . apply setVfs
      intro vfs
      exact ⟨rfl, rfl⟩
    . intro _
      apply pure

end Fixed

end Fs
end Franklin
