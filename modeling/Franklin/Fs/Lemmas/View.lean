import Franklin.Fs.View
import Franklin.Fs.Lemmas.Mounting

/-!
This module contains that every call returns and changes what `Call.outcome` says.
-/

namespace Franklin
namespace Fs

section Updates

variable {s : St} {n d : Nat} {f : RamNode → RamNode}

theorem View.setEntries_self (w : View) (d : Nat) : w.setEntries d (w.file d).entries = w := by
  unfold setEntries
  rw [Function.update_eq_self]

theorem View.ext_file {w w' : View} (hfile : ∀ m, w.file m = w'.file m) (hnext : w.next = w'.next) : w = w' := by
  cases w
  cases w'
  rw [View.mk.injEq]
  exact ⟨funext hfile, hnext⟩

theorem St.view_updNode
    : (s.updNode n f).view = { s.view with file := Function.update s.view.file n (f (s.nodes n)).view } := by
  refine View.ext_file ?_ rfl
  intro m
  show ((s.updNode n f).nodes m).view = Function.update s.view.file n (f (s.nodes n)).view m
  by_cases hm : m = n
  . rw [hm, Function.update_self, updNode_nodes_self]
  . rw [Function.update_of_ne hm, updNode_nodes_of_ne hm]
    rfl

theorem St.view_updNode_same (h : (f (s.nodes n)).view = (s.nodes n).view) : (s.updNode n f).view = s.view := by
  rw [view_updNode, h]
  show { s.view with file := Function.update s.view.file n (s.view.file n) } = s.view
  rw [Function.update_eq_self]

@[simp]
theorem St.view_setPrev (p prev : Ptr) : (s.setPrev p prev).view = s.view := by
  unfold setPrev
  split
  . exact view_updNode_same rfl
  . rfl

@[simp]
theorem St.view_setNext (p next : Ptr) : (s.setNext p next).view = s.view := by
  unfold setNext
  split
  . exact view_updNode_same rfl
  . rfl

@[simp]
theorem St.view_unchain (n : Nat) : (s.unchain n).view = s.view := by
  unfold unchain
  dsimp only
  rw [view_setPrev, view_setNext]

@[simp]
theorem St.view_addLink (n : Nat) : (s.addLink n).view = s.view :=
  view_updNode_same rfl

@[simp]
theorem St.view_dropLinks (n : Nat) (k : Int) : (s.dropLinks n k).view = s.view :=
  view_updNode_same rfl

@[simp]
theorem St.view_vnew (vfs n : Nat) : (s.vnew vfs n).view = s.view := by
  show (s.updNode n fun node => { node with vnode := some s.nextVnode, ramlock := false }).view = s.view
  exact view_updNode_same rfl

@[simp]
theorem St.view_freeNode (n : Nat) : (s.freeNode n).view = s.view := by
  unfold freeNode
  rw [view_updNode_same rfl, view_setPrev]

@[simp]
theorem St.view_inactive (n : Nat) : (s.inactive n).view = s.view := by
  have hnode : (s.updNode n fun node => { node with vnode := none, ramlock := false }).view = s.view :=
    view_updNode_same rfl
  unfold inactive
  dsimp only
  split
  . rw [view_freeNode, hnode]
  . exact hnode

@[simp]
theorem St.view_close (v : Nat) : (s.close v).view = s.view := by
  unfold close
  dsimp only
  split
  . exact view_inactive _
  . rfl

theorem St.view_attach (d : Nat) (de : RamDentry) : (s.attach d de).view = s.view.bind d de.name de.node := by
  unfold attach
  rw [view_updNode]
  rfl

theorem St.view_detach (d : Nat) (de : RamDentry)
    : (s.detach d de).view =
        s.view.setEntries d (((s.nodes d).dentry.erase de).map fun de => (de.name, de.node)) := by
  unfold detach
  rw [view_updNode]
  rfl

theorem St.view_addNode (vfs : Nat) (dir : Option Nat) (type : VType) (link : Name)
    : (s.addNode vfs dir type link).view =
        s.view.add s.nextNode { type, parent := dir.getD s.nextNode, link, entries := [] } := by
  have hview : (s.setPrev (s.vfss vfs).nodes (.ref s.nextNode)).view = s.view := view_setPrev _ _
  rw [addNode_eq]
  refine View.ext_file ?_ rfl
  intro m
  unfold View.add
  show RamNode.view (Function.update (s.setPrev (s.vfss vfs).nodes (.ref s.nextNode)).nodes s.nextNode
    (s.freshNode vfs dir type link) m) = Function.update s.view.file _ _ m
  by_cases hm : m = s.nextNode
  . rw [hm, Function.update_self, Function.update_self]
    rfl
  . rw [Function.update_of_ne hm, Function.update_of_ne hm]
    exact congrFun (congrArg View.file hview) m

theorem St.view_newFile (vfs d : Nat) (name : Name) (type : VType) (link : Name)
    : (s.newFile vfs d name type link).view = s.view.apply (.create d name s.nextNode type link) := by
  unfold newFile
  rw [view_attach, view_addLink, view_addNode]
  rfl

theorem St.view_hardLink (d n : Nat) (name : Name) : (s.hardLink d n name).view = s.view.apply (.link d name n) := by
  unfold hardLink
  rw [view_attach, view_addLink]
  rfl

theorem St.view_addRoot (vfs : Nat) : (s.addRoot vfs).view = s.view.apply (.mount s.nextNode) := by
  refine View.ext_file ?_ rfl
  intro m
  unfold View.apply View.add
  show RamNode.view (Function.update s.nodes s.nextNode _ m) = Function.update s.view.file s.nextNode _ m
  by_cases hm : m = s.nextNode
  . rw [hm, Function.update_self, Function.update_self]
    rfl
  . rw [Function.update_of_ne hm, Function.update_of_ne hm]
    rfl

theorem erase_of_find {entries : List RamDentry} {name : Name} {de : RamDentry}
    (h : entries.find? (fun de => strcmp de.name name = 0) = some de)
    : (entries.erase de).map (fun de => (de.name, de.node)) =
        (entries.map fun de => (de.name, de.node)).eraseP fun entry => entry.1 = name := by
  have hname := (name_eq_of_find h).2
  induction entries with
  | nil => cases h
  | cons e entries ih =>
    rw [List.find?_cons] at h
    rw [List.map_cons]
    by_cases heq : e.name = name
    . have hfound : decide (strcmp e.name name = 0) = true := by simp [strcmp, heq]
      rw [hfound] at h
      rw [← Option.some.inj h, List.erase_cons_head, List.eraseP_cons_of_pos (by simp [heq])]
    . have hother : decide (strcmp e.name name = 0) = false := by simp [strcmp, heq]
      rw [hother] at h
      have hne : e ≠ de := by
        intro hde
        rw [hde] at heq
        exact heq hname
      rw [List.erase_cons_tail (by simpa using hne), List.eraseP_cons_of_neg (by simp [heq]), List.map_cons, ih h]

theorem St.view_detach_found {name : Name} {de : RamDentry}
    (h : (s.nodes d).dentry.find? (fun de => strcmp de.name name = 0) = some de)
    : (s.detach d de).view = s.view.apply (.remove d name) := by
  rw [view_detach, erase_of_find h]
  rfl

end Updates

structure SameView (s s' : St) : Prop where
  view : s'.view = s.view
  next_le : s.nextVnode ≤ s'.nextVnode
  data : ∀ v, v < s.nextVnode → (s'.vnodes v).data = (s.vnodes v).data

namespace SameView

variable {s s1 s' : St}

theorem refl (s : St) : SameView s s :=
  ⟨rfl, Nat.le_refl _, fun _ _ => rfl⟩

theorem trans (h : SameView s s1) (h1 : SameView s1 s') : SameView s s' where
  view := h1.view.trans h.view
  next_le := Nat.le_trans h.next_le h1.next_le
  data v hv := (h1.data v (Nat.lt_of_lt_of_le hv h.next_le)).trans (h.data v hv)

theorem of_vnodes (hview : s'.view = s.view) (hnext : s'.nextVnode = s.nextVnode)
    (hdata : ∀ v, (s'.vnodes v).data = (s.vnodes v).data) : SameView s s' :=
  ⟨hview, Nat.le_of_eq hnext.symm, fun v _ => hdata v⟩

theorem updVnode {v : Nat} {f : Vnode → Vnode} (hf : (f (s.vnodes v)).data = (s.vnodes v).data)
    : SameView s { s with vnodes := Function.update s.vnodes v (f (s.vnodes v)) } := by
  apply of_vnodes
  . rfl
  . rfl
  . intro w
    by_cases hw : w = v
    . rw [hw]
      simpa using hf
    . simp [hw]

theorem close (s : St) (v : Nat) : SameView s (s.close v) := by
  apply of_vnodes (St.view_close v)
  . unfold St.close
    dsimp only
    split
    . have hnext : s.inactive (s.vnodes v).data = _ := (OnlyNodes.refl s).inactive (s.vnodes v).data
      rw [hnext]
    . rfl
  . intro w
    unfold St.close
    dsimp only
    split
    . by_cases hw : w = v
      . rw [hw]
        simp
      . simp [hw]
    . by_cases hw : w = v
      . rw [hw]
        simp
      . simp [hw]

end SameView

theorem Walked.sameView {st s : St} {held : List (Nat × Loc)} {vl nl : List Nat} (h : Walked st s held vl nl)
    : SameView st s where
  view := by
    refine View.ext_file ?_ h.same.nextNode
    intro n
    show (s.nodes n).view = (st.nodes n).view
    unfold RamNode.view
    rw [h.same.type_eq, h.same.parent_eq, h.same.link_eq, h.same.dentry_eq]
  next_le := h.next_le
  data v hv := by
    rw [h.old v hv]

theorem wp_vput_view {s : St} (v : Nat) : wp (vput v) (fun _ s' => SameView s s') (fun _ _ => True) s := by
  unfold vput
  cases hfreed : (s.vnodes v).freed with
  | true =>
    unfold vfs_close
    rw [wp_bind, wp_getVnode]
    exact ⟨fun _ => trivial, fun hfalse => absurd (hfreed.symm.trans hfalse) (by simp)⟩
  | false =>
    apply wp_mono (wp_vfs_close_iff (P := fun _ => True) (Q := fun _ s' => s' = s.close v) hfreed rfl)
    . intro _ s1 hs1
      rw [hs1]
      exact SameView.close s v
    . simp

def Delivers {α : Type} (a : α) (x : Prog α) : Prop :=
  ∀ s, wp x (fun r s' => r = a ∧ SameView s s') (fun _ _ => True) s

namespace Delivers

variable {α : Type} {a : α} {x : Prog α}

theorem pure (a : α) : Delivers a (pure a : Prog α) := by
  intro s
  exact ⟨rfl, SameView.refl s⟩

theorem vput (v : Nat) (h : Delivers a x) : Delivers a (do
    vput v
    x) := by
  intro s
  apply wp_bind_of (wp_vput_view v)
  intro _ s1 hs1
  apply wp_mono (h s1)
  . intro r s2 hs2
    exact ⟨hs2.1, hs1.trans hs2.2⟩
  . simp

theorem vputOpt (vn : Option Nat) (h : Delivers a x) : Delivers a (do
    vputOpt vn
    x) := by
  cases vn with
  | none => exact h
  | some v => exact h.vput v

theorem setVnode (v : Nat) {f : Vnode → Vnode} (hf : ∀ vn, (f vn).data = vn.data) (h : Delivers a x) : Delivers a (do
    setVnode v f
    x) := by
  intro s
  rw [wp_bind, wp_setVnode]
  apply wp_mono (h _)
  . intro r s1 hs1
    exact ⟨hs1.1, (SameView.updVnode (hf _)).trans hs1.2⟩
  . simp

theorem acquire (v : Nat) (h : Delivers a x) : Delivers a (do
    acquire v
    x) := by
  intro s
  unfold Fs.acquire
  rw [bind_assoc, wp_bind, wp_getVnode]
  refine ⟨fun _ => trivial, ?_⟩
  intro _
  split
  . trivial
  . apply h.setVnode v
    simp

theorem release (v : Nat) (h : Delivers a x) : Delivers a (do
    release v
    x) := by
  intro s
  unfold Fs.release
  rw [bind_assoc, wp_bind, wp_getVnode]
  refine ⟨fun _ => trivial, ?_⟩
  intro _
  apply h.setVnode v
  simp

theorem releaseList (h : Delivers a x) : Delivers a (do
    releaseList
    x) := by
  intro s
  rw [wp_bind, wp_releaseList]
  have hsame : SameView s { s with vfslistLock := false } := SameView.of_vnodes rfl rfl (fun _ => rfl)
  apply wp_mono (h _)
  . intro r s1 hs1
    exact ⟨hs1.1, hsame.trans hs1.2⟩
  . simp

end Delivers

section Ops

variable {s : St} {vdir vn len : Nat} {name : Name} {type : VType} {target : Option Name}

theorem wp_alloc_file_code (htype : (s.vnodes vdir).type = .VDIR) (htarget : target.isSome → type = .VLNK)
    : wp (ramfs_alloc_file vdir name len type target)
        (fun r _ => r.1 = none ∧ ¬ (type = .VLNK ∧ target = none)) (fun _ _ => True) s := by
  unfold ramfs_alloc_file
  rw [wp_bind, wp_getVnode]
  refine ⟨fun _ => trivial, ?_⟩
  intro _
  dsimp only
  have hvalid : ¬ ((s.vnodes vdir).type ≠ .VDIR ∨ (target.isSome ∧ type ≠ .VLNK)) := by
    rintro (hdir | ⟨hsome, hlink⟩)
    . exact hdir htype
    . exact hlink (htarget hsome)
  rw [if_neg hvalid]
  unfold ramfs_alloc_node
  rw [wp_bind, wp_bind, wp_getSt]
  apply wp_bind_of wp_trivial
  intro _ s1 _
  split
  . trivial
  . next hlink =>
    apply wp_mono wp_trivial
    . intro n s2 _
      apply wp_bind_of wp_trivial
      intro de s3 _
      apply wp_bind_of wp_trivial
      intro _ s4 _
      apply wp_bind_of wp_trivial
      intro v s5 _
      exact ⟨rfl, hlink⟩
    . simp

structure Removed (s s' : St) (d n : Nat) (name : Name) : Prop where
  found : ((s.nodes d).dentry.find? fun de => strcmp de.name name = 0).map (·.node) = some n
  view : s'.view = s.view.apply (.remove d name)
  frame : OnlyNodes s s'

theorem wp_dir_remove {d n : Nat} {msg : String}
    : wp (do
          let found ← ramfs_dir_lookup d name
          match found with
          | none => throw (.panic msg)
          | some de =>
            if de.node ≠ n then
              throw (.panic msg)
            else
              unlinkNode n
              ramfs_dir_detach d de
              ramfs_free_dentry de
              pure (none : Code))
        (fun r s' => r = none ∧ Removed s s' d n name) (fun _ _ => True) s := by
  apply wp_bind_mono (wp_ramfs_dir_lookup (P := fun _ => True) (R := fun r s' => s' = s ∧
    r = (s.nodes d).dentry.find? fun de => strcmp de.name name = 0) name (fun _ => ⟨rfl, rfl⟩))
  . simp
  . intro r s1 hs1
    rcases hs1 with ⟨rfl, hr⟩
    cases r with
    | none => trivial
    | some de =>
      dsimp only
      split
      . trivial
      . next hnode =>
        rw [not_not] at hnode
        rw [← hnode]
        apply wp_mono (wp_unlink_dentry (P := fun _ => True) (R := fun r s' => r = none ∧
          s' = ((s1.unchain de.node).detach d de).dropLinks de.node 1) de (fun _ => trivial) (fun _ => ⟨rfl, rfl⟩))
        . intro r s2 hs2
          rcases hs2 with ⟨rfl, rfl⟩
          have hdentry : ((s1.unchain de.node).nodes d).dentry = (s1.nodes d).dentry := by
            have hdentry := congrArg RamNode.dentry (@St.unchain_unchained s1 de.node d)
            exact hdentry
          refine ⟨rfl, ?_, ?_, ?_⟩
          . rw [← hr]
            rfl
          . rw [← hdentry] at hr
            rw [St.view_dropLinks, St.view_detach_found hr.symm, St.view_unchain]
          . unfold St.dropLinks St.detach
            apply OnlyNodes.updNode
            apply OnlyNodes.updNode
            exact (OnlyNodes.refl s1).unchain de.node
        . simp

theorem wp_remove_view
    : wp (ramfs_remove vdir vn name)
        (fun r s' =>
          r = some .EISDIR ∧ (s.vnodes vn).type = .VDIR ∧ s' = s ∨
          r = some .ENOTDIR ∧ (s.vnodes vn).type ≠ .VDIR ∧ (s.vnodes vdir).type ≠ .VDIR ∧ s' = s ∨
          r = none ∧ (s.vnodes vn).type ≠ .VDIR ∧ (s.vnodes vdir).type = .VDIR ∧
            Removed s s' (s.vnodes vdir).data (s.vnodes vn).data name) (fun _ _ => True) s := by
  unfold ramfs_remove
  rw [wp_bind, wp_getVnode]
  refine ⟨fun _ => trivial, ?_⟩
  intro _
  rw [wp_bind, wp_getVnode]
  refine ⟨fun _ => trivial, ?_⟩
  intro _
  split
  . next htype => exact Or.inl ⟨rfl, htype, rfl⟩
  . next htype =>
    split
    . next hdir => exact Or.inr (Or.inl ⟨rfl, htype, hdir, rfl⟩)
    . next hdir =>
      rw [not_not] at hdir
      apply wp_mono wp_dir_remove
      . intro r s1 hs1
        exact Or.inr (Or.inr ⟨hs1.1, htype, hdir, hs1.2⟩)
      . simp

theorem wp_rmdir_view
    : wp (ramfs_rmdir vdir vn name len)
        (fun r s' =>
          r = some .ENOTEMPTY ∧ len = 2 ∧ name.take 2 = ['.', '.'] ∧ s' = s ∨
          ¬ (len = 2 ∧ name.take 2 = ['.', '.']) ∧ (s.nodes (s.vnodes vn).data).parent = (s.vnodes vdir).data ∧
            (r = some .ENOTEMPTY ∧
                ((s.nodes (s.vnodes vn).data).dentry ≠ [] ∨ (s.nodes (s.vnodes vn).data).wild = true) ∧ s' = s ∨
              r = none ∧
                ¬ ((s.nodes (s.vnodes vn).data).dentry ≠ [] ∨ (s.nodes (s.vnodes vn).data).wild = true) ∧
                Removed s s' (s.vnodes vdir).data (s.vnodes vn).data name)) (fun _ _ => True) s := by
  unfold ramfs_rmdir
  rw [wp_bind, wp_getVnode]
  refine ⟨fun _ => trivial, ?_⟩
  intro _
  rw [wp_bind, wp_getVnode]
  refine ⟨fun _ => trivial, ?_⟩
  intro _
  split
  . next hdots => exact Or.inl ⟨rfl, hdots.1, hdots.2, rfl⟩
  . next hdots =>
    rw [wp_bind, wp_acquireNode_iff]
    refine ⟨fun _ => trivial, ?_⟩
    intro hlock
    rw [wp_bind, wp_getNode]
    simp only [St.updNode_nodes_self]
    split
    . trivial
    . next hparent =>
      rw [not_not] at hparent
      split
      . next hused =>
        rw [wp_bind, wp_releaseNode_iff, wp_pure, St.updNode_updNode, St.updNode_eq_self]
        . exact Or.inr ⟨hdots, hparent, Or.inl ⟨rfl, hused, rfl⟩⟩
        . dsimp only [Function.comp_apply]
          rw [← hlock]
      . next hempty =>
        rw [wp_bind, wp_setNode_iff, wp_bind, wp_releaseNode_iff, St.updNode_updNode, St.updNode_updNode]
        change wp _ _ _ (s.dropLinks (s.vnodes vn).data 1)
        apply wp_mono wp_dir_remove
        . intro r s1 hs1
          rcases hs1 with ⟨rfl, hfound, hview, hframe⟩
          rw [St.dropLinks_dentry] at hfound
          rw [St.view_dropLinks] at hview
          exact Or.inr ⟨hdots, hparent, Or.inr ⟨rfl, hempty, hfound, hview, hframe⟩⟩
        . simp

theorem wp_link_view (hdir : (s.nodes (s.vnodes vdir).data).type = .VDIR)
    : wp (ramfs_link vdir vn name)
        (fun r s' => r = none ∧ s'.view = s.view.apply (.link (s.vnodes vdir).data name (s.vnodes vn).data))
        (fun _ _ => True) s := by
  cases hvdir : (s.vnodes vdir).freed with
  | true =>
    unfold ramfs_link
    rw [wp_bind, wp_getVnode]
    exact ⟨fun _ => trivial, fun hfalse => absurd (hvdir.symm.trans hfalse) (by simp)⟩
  | false =>
    cases hvn : (s.vnodes vn).freed with
    | true =>
      unfold ramfs_link
      rw [wp_bind, wp_getVnode]
      refine ⟨fun _ => trivial, ?_⟩
      intro _
      rw [wp_bind, wp_getVnode]
      exact ⟨fun _ => trivial, fun hfalse => absurd (hvn.symm.trans hfalse) (by simp)⟩
    | false =>
      have htype : ((s.addLink (s.vnodes vn).data).nodes (s.vnodes vdir).data).type = .VDIR := by
        have hview := congrFun (congrArg View.file (St.view_addLink (s := s) (s.vnodes vn).data)) (s.vnodes vdir).data
        exact (congrArg FileView.type hview).trans hdir
      apply wp_mono (wp_ramfs_link (P := fun _ => True) (R := fun r s' => r = none ∧ s' = s.hardLink
        (s.vnodes vdir).data (s.vnodes vn).data name) name hvdir hvn htype ⟨rfl, rfl⟩)
      . intro r s1 hs1
        rcases hs1 with ⟨rfl, rfl⟩
        exact ⟨rfl, St.view_hardLink _ _ _⟩
      . simp

theorem wp_finish_view (v : Nat)
    : wp (vfs_mount.finish v) (fun r s' => r = none ∧ s'.view = s.view.apply (.mount s.nextNode))
        (fun _ _ => True) s := by
  unfold vfs_mount.finish
  rw [wp_bind, wp_getSt, wp_bind, wp_setVfs]
  apply wp_bind.mpr
  rw [wp_update]
  apply wp_bind_mono (wp_ramfs_mount (P := fun _ => True) (R := fun r s' => r = none ∧ s' = St.addRoot _ v) v ⟨rfl, rfl⟩)
  . simp
  . intro r s1 hs1
    rcases hs1 with ⟨rfl, rfl⟩
    rw [wp_bind, wp_releaseList]
    exact ⟨rfl, St.view_addRoot v⟩

end Ops

namespace View

variable {w : View} {n : Nat} {ns : List Nat}

theorem unmount_file (w : View) (ns : List Nat) (m : Nat)
    : (w.apply (.unmount ns)).file m =
        if m ∈ ns ∧ (w.file m).type = .VDIR then { w.file m with entries := [] } else w.file m := by
  rfl

theorem setEntries_file_self (w : View) (n : Nat) (entries : List (Name × Nat))
    : (w.setEntries n entries).file n = { w.file n with entries } :=
  Function.update_self ..

theorem setEntries_file_of_ne (w : View) (entries : List (Name × Nat)) {m : Nat} (hm : m ≠ n)
    : (w.setEntries n entries).file m = w.file m :=
  Function.update_of_ne hm ..

theorem apply_unmount_nil : w.apply (.unmount []) = w := by
  refine ext_file ?_ rfl
  intro m
  rw [unmount_file, if_neg (by simp)]

theorem apply_unmount_file (hn : (w.file n).type ≠ .VDIR) : w.apply (.unmount (n :: ns)) = w.apply (.unmount ns) := by
  refine ext_file ?_ rfl
  intro m
  rw [unmount_file, unmount_file]
  by_cases hm : m = n
  . rw [hm, if_neg (fun h => hn h.2), if_neg (fun h => hn h.2)]
  . simp only [List.mem_cons, hm, false_or]

theorem apply_unmount_dir (hn : (w.file n).type = .VDIR)
    : w.apply (.unmount (n :: ns)) = (w.setEntries n []).apply (.unmount ns) := by
  refine ext_file ?_ rfl
  intro m
  rw [unmount_file, unmount_file]
  by_cases hm : m = n
  . rw [hm, if_pos ⟨List.mem_cons_self, hn⟩]
    simp only [setEntries_file_self]
    split <;> rfl
  . simp only [setEntries_file_of_ne _ _ hm, List.mem_cons, hm, false_or]

theorem setEntries_setEntries (entries entries' : List (Name × Nat))
    : (w.setEntries n entries).setEntries n entries' = w.setEntries n entries' := by
  unfold setEntries
  simp

end View

section Unmount

variable {s : St} {n : Nat}

theorem St.chain_congr {s' : St} (hnext : ∀ n, (s'.nodes n).next = (s.nodes n).next) (fuel : Nat) (p : Ptr)
    : s'.chain fuel p = s.chain fuel p := by
  induction fuel generalizing p with
  | zero => rfl
  | succ fuel ih =>
    cases p with
    | ref n =>
      unfold chain
      rw [hnext, ih]
    | null => rfl
    | wild => rfl

structure SameChain (s s' : St) : Prop where
  next : ∀ n, (s'.nodes n).next = (s.nodes n).next
  frame : OnlyNodes s s'

theorem SameChain.trans {s s1 s' : St} (h : SameChain s s1) (h1 : SameChain s1 s') : SameChain s s' where
  next n := (h1.next n).trans (h.next n)
  frame := by
    have hframe := h1.frame
    unfold OnlyNodes at hframe ⊢
    rw [h.frame] at hframe
    exact hframe

theorem Tearing.sameChain {X : Nat → Prop} {s s' : St} (h : Tearing X s s') : SameChain s s' :=
  ⟨h.next, h.frame⟩

theorem wp_freeDentries_view {entries : List RamDentry} (hentries : (s.nodes n).dentry = entries)
    : wp (ramfs_unmount.freeDentries n entries)
        (fun _ s' => s'.view = s.view.setEntries n []) (fun _ _ => True) s := by
  induction entries generalizing s with
  | nil =>
    unfold ramfs_unmount.freeDentries
    rw [wp_bind, wp_getNode]
    split
    . trivial
    . have hnil : (s.view.file n).entries = [] := by
        show ((s.nodes n).dentry.map _) = []
        rw [hentries, List.map_nil]
      rw [← hnil, View.setEntries_self]
      rfl
  | cons de entries ih =>
    unfold ramfs_unmount.freeDentries
    rw [wp_bind, wp_deref]
    refine ⟨fun _ => trivial, ?_⟩
    intro _
    rw [wp_bind, wp_setNode_iff]
    have hview1 : (s.updNode de.node fun node => { node with vnode := none }).view = s.view :=
      St.view_updNode_same rfl
    have hdentry1 : ((s.updNode de.node fun node => { node with vnode := none }).nodes n).dentry = de :: entries := by
      rw [← hentries]
      by_cases hn : n = de.node
      . rw [← hn, St.updNode_nodes_self]
      . rw [St.updNode_nodes_of_ne hn]
    generalize s.updNode de.node (fun node => { node with vnode := none }) = s1 at hview1 hdentry1 ⊢
    apply wp_bind_mono (wp_ramfs_dir_detach (P := fun _ => True) (Q := fun _ s' => s' = s1.detach n de) de rfl)
    . simp
    . intro _ s2 hs2
      have hdentry2 : (s2.nodes n).dentry = entries := by
        rw [hs2]
        unfold St.detach
        rw [St.updNode_nodes_self]
        dsimp only
        rw [hdentry1, List.erase_cons_head]
      have hview2 := s1.view_detach n de
      rw [← hs2] at hview2
      apply wp_bind_mono (wp_ramfs_free_dentry (P := fun _ => True) (Q := fun _ s' => s' = s2.dropLinks de.node 1) de
        (fun _ => trivial) (fun _ => rfl))
      . simp
      . intro _ s3 hs3
        subst hs3
        rw [wp_bind, wp_getSt]
        split
        . trivial
        . have hdentry3 : ((s2.dropLinks de.node 1).nodes n).dentry = entries := by
            rw [St.dropLinks_dentry, hdentry2]
          apply wp_mono (ih hdentry3)
          . intro _ s4 hs4
            rw [hs4, St.view_dropLinks, hview2, View.setEntries_setEntries, hview1]
          . simp

theorem wp_freeAllDentries_view (fuel : Nat) {p : Ptr}
    : wp (ramfs_unmount.freeAllDentries fuel p)
        (fun _ s' => s'.view = s.view.apply (.unmount (s.chain fuel p)) ∧ SameChain s s') (fun _ _ => True) s := by
  induction fuel generalizing s p with
  | zero =>
    cases p with
    | null => exact ⟨View.apply_unmount_nil.symm, fun _ => rfl, rfl⟩
    | ref k => trivial
    | wild => trivial
  | succ fuel ih =>
    cases p with
    | null => exact ⟨View.apply_unmount_nil.symm, fun _ => rfl, rfl⟩
    | wild => trivial
    | ref k =>
      unfold ramfs_unmount.freeAllDentries St.chain
      rw [wp_bind, wp_deref]
      refine ⟨fun _ => trivial, ?_⟩
      intro _
      rw [wp_bind, wp_setNode_iff, wp_bind, wp_getNode]
      have hview1 : (s.updNode k fun node => { node with vnode := none }).view = s.view := St.view_updNode_same rfl
      have hsame1 : SameChain s (s.updNode k fun node => { node with vnode := none }) := by
        refine ⟨?_, (OnlyNodes.refl s).updNode k _⟩
        intro m
        by_cases hm : m = k
        . rw [hm, St.updNode_nodes_self]
        . rw [St.updNode_nodes_of_ne hm]
      generalize s.updNode k (fun node => { node with vnode := none }) = s1 at hview1 hsame1 ⊢
      have htype : (s1.nodes k).type = (s.view.file k).type := by
        rw [← hview1]
        rfl
      rw [htype]
      split
      . next hfile =>
        apply wp_mono (ih (s := s1))
        . intro _ s2 hs2
          rw [hs2.1, hview1, View.apply_unmount_file hfile, St.chain_congr hsame1.next, hsame1.next]
          exact ⟨rfl, hsame1.trans hs2.2⟩
        . simp
      . next hdir =>
        rw [not_not] at hdir
        apply wp_bind_of (wp_conj (wp_freeDentries_view (n := k) rfl)
          (wp_freeDentries (X := fun _ => True) (n := k) trivial rfl (fun _ _ => trivial)))
        intro _ s2 hs2
        rcases hs2 with ⟨hview2, htear, _⟩
        have hsame2 := hsame1.trans htear.sameChain
        rw [wp_bind, wp_getNode]
        apply wp_mono (ih (s := s2))
        . intro _ s3 hs3
          rw [hs3.1, hview2, hview1, View.apply_unmount_dir hdir, St.chain_congr hsame2.next, hsame2.next]
          exact ⟨rfl, hsame2.trans hs3.2⟩
        . simp

theorem wp_freeAllNodes_view (fuel : Nat) {p : Ptr}
    : wp (ramfs_unmount.freeAllNodes fuel p) (fun _ s' => s'.view = s.view ∧ OnlyNodes s s') (fun _ _ => True) s := by
  induction fuel generalizing s p with
  | zero =>
    cases p with
    | null => exact ⟨rfl, rfl⟩
    | ref k => trivial
    | wild => trivial
  | succ fuel ih =>
    cases p with
    | null => exact ⟨rfl, rfl⟩
    | wild => trivial
    | ref k =>
      unfold ramfs_unmount.freeAllNodes
      apply wp_bind_mono (wp_ramfs_free_node_iff (P := fun _ => True) (Q := fun _ s' => s' = s.freeNode k) rfl)
      . simp
      . intro _ s1 hs1
        have hview1 : s1.view = s.view := by rw [hs1, St.view_freeNode]
        have hframe1 : OnlyNodes s s1 := by
          rw [hs1]
          exact ((OnlyNodes.refl s).setPrev _ _).updNode _ _
        rw [wp_bind, wp_getNode]
        apply wp_mono (ih (s := s1))
        . intro _ s2 hs2
          have hframe2 := hs2.2
          unfold OnlyNodes at hframe2 ⊢
          rw [hframe1] at hframe2
          exact ⟨hs2.1.trans hview1, hframe2⟩
        . simp

theorem wp_ramfs_unmount_view (v : Nat)
    : wp (ramfs_unmount v)
        (fun _ s' => s'.view = s.view.apply (.unmount (s.chain (s.nextNode + 1) (s.vfss v).nodes)) ∧ OnlyNodes s s')
        (fun _ _ => True) s := by
  unfold ramfs_unmount
  rw [wp_bind, wp_getSt]
  apply wp_bind_of (wp_freeAllDentries_view _)
  intro _ s1 hs1
  apply wp_bind_of (wp_freeAllNodes_view _)
  intro _ s2 hs2
  have hframe := hs2.2
  unfold OnlyNodes at hframe
  rw [hs1.2.frame] at hframe
  exact ⟨hs2.1.trans hs1.1, hframe⟩

end Unmount

end Fs
end Franklin
