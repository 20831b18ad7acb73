import Franklin.Fs.Lemmas.Listing
import Franklin.Fs.Lemmas.Rules
import Franklin.Fs.Lemmas.Mounts

/-!
This module contains the numbers of the dentries: in a directory they are different, and none is one of the
offsets that have a meaning of their own.
-/

namespace Franklin
namespace Fs

structure RamNode.Numbered (node : RamNode) : Prop where
  lastseq : node.type = .VDIR → SEQ_START ≤ node.lastseq
  seq : ∀ de ∈ node.dentry, SEQ_START ≤ de.seq ∧ de.seq < node.lastseq
  nodup : (node.dentry.map (·.seq)).Nodup

theorem RamNode.Numbered.of_sublist {node node' : RamNode} (h : node.Numbered) (htype : node'.type = node.type)
    (hlast : node'.lastseq = node.lastseq) (hsub : node'.dentry.Sublist node.dentry) : node'.Numbered where
  lastseq hdir := by
    rw [hlast]
    apply h.lastseq
    rw [← htype, hdir]
  seq de hde := by
    rw [hlast]
    apply h.seq de (hsub.subset hde)
  nodup := h.nodup.sublist (hsub.map _)

theorem RamNode.Numbered.attach {node : RamNode} (h : node.Numbered) (hdir : node.type = .VDIR) (de : RamDentry)
    (linkcount : Int)
    : RamNode.Numbered { node with
        dentry := { de with seq := node.lastseq } :: node.dentry
        lastseq := node.lastseq + 1
        linkcount } where
  lastseq _ := Nat.le_succ_of_le (h.lastseq hdir)
  seq de' hde' := by
    rcases List.mem_cons.mp hde' with rfl | hmem
    . exact ⟨h.lastseq hdir, Nat.lt_succ_self _⟩
    . rcases h.seq de' hmem with ⟨hle, hlt⟩
      exact ⟨hle, Nat.lt_succ_of_lt hlt⟩
  nodup := by
    rw [List.map_cons, List.nodup_cons]
    refine ⟨?_, h.nodup⟩
    intro hmem
    rcases List.mem_map.mp hmem with ⟨de', hde', heq⟩
    have hlt := (h.seq de' hde').2
    dsimp only at heq
    omega

def St.Numbered (s : St) : Prop :=
  ∀ n, (s.nodes n).Numbered

def Numbering {α : Type} (x : Prog α) : Prop :=
  Keeps St.Numbered (fun _ _ => True) x

namespace Numbering

variable {α β : Type} {v n : Nat}

theorem pure (a : α) : Numbering (pure a : Prog α) :=
  Keeps.pure (fun _ => trivial) a

theorem throw (e : Stop) : Numbering (throw e : Prog α) :=
  Keeps.throw e

theorem bind {x : Prog α} {f : α → Prog β} (hx : Numbering x) (hf : ∀ a, Numbering (f a)) : Numbering (x >>= f) :=
  Keeps.bind (fun _ _ _ _ _ => trivial) hx hf

theorem ite {c : Prop} [Decidable c] {x y : Prog α} (hx : Numbering x) (hy : Numbering y)
    : Numbering (if c then x else y) :=
  Keeps.ite hx hy

theorem getSt : Numbering getSt := by
  intro s hs
  exact ⟨hs, trivial⟩

theorem getVnode (v : Nat) : Numbering (getVnode v) := by
  intro s hs
  rw [wp_getVnode]
  exact ⟨fun _ => trivial, fun _ => ⟨hs, trivial⟩⟩

theorem getNode (n : Nat) : Numbering (getNode n) := by
  intro s hs
  exact ⟨hs, trivial⟩

theorem getVfs (vfs : Nat) : Numbering (getVfs vfs) := by
  intro s hs
  exact ⟨hs, trivial⟩

theorem setVnode {f : Vnode → Vnode} : Numbering (setVnode v f) := by
  intro s hs
  exact ⟨hs, trivial⟩

theorem setVfs {f : Vfs → Vfs} : Numbering (setVfs v f) := by
  intro s hs
  exact ⟨hs, trivial⟩

theorem updNode {s : St} {f : RamNode → RamNode} (hs : s.Numbered) (hf : (f (s.nodes n)).Numbered)
    : (s.updNode n f).Numbered := by
  intro m
  by_cases hm : m = n
  . subst hm
    rw [St.updNode_nodes_self]
    exact hf
  . rw [St.updNode_nodes_of_ne hm]
    exact hs m

theorem setNode {f : RamNode → RamNode}
    (hf : ∀ node, (f node).type = node.type ∧ (f node).lastseq = node.lastseq ∧
      (f node).dentry.Sublist node.dentry) : Numbering (setNode n f) := by
  intro s hs
  rcases hf (s.nodes n) with ⟨htype, hlast, hsub⟩
  exact ⟨updNode hs ((hs n).of_sublist htype hlast hsub), trivial⟩

theorem acquire (v : Nat) : Numbering (acquire v) := by
  apply (getVnode v).bind
  intro vn
  apply ite (throw _) setVnode

theorem release (v : Nat) : Numbering (release v) := by
  apply (getVnode v).bind
  intro vn
  apply setVnode

theorem files : FileRules fun _ x => Numbering x where
  pure := pure
  throw := throw
  bind := bind
  getSt := getSt
  getVnode := getVnode
  getNode := getNode
  setNode n f hf := by
    apply setNode
    intro node
    rcases hf node with ⟨_, htype, hlastseq, hdentry⟩
    exact ⟨htype, hlastseq, hdentry⟩

theorem vref_locked (v : Nat) : Numbering (vref_locked v) := by
  apply (getVnode v).bind
  intro vn
  apply ite (throw _) setVnode

theorem vfs_close (v : Nat) : Numbering (vfs_close v) := by
  apply (getVnode v).bind
  intro vn
  apply setVnode.bind
  intro _
  apply ite
  . apply (files.ramfs_inactive _).bind
    intro _
    apply setVnode
  . apply release

theorem walk : WalkRules fun _ x => Numbering x where
  pure := pure
  throw e _ := throw e
  bind := bind
  getSt := getSt
  getVnode := getVnode
  getNode := getNode
  getVfs := getVfs
  acquire := acquire
  release := release
  acquireNode := files.acquireNode
  releaseNode := files.releaseNode
  vref_locked := vref_locked
  newVnode vfs n s hs := by
    refine ⟨?_, trivial⟩
    exact @updNode n s (fun node => { node with vnode := some s.nextVnode }) hs
      ((hs n).of_sublist rfl rfl (List.Sublist.refl _))
  vfs_close := vfs_close

theorem vputOpt (vn : Option Nat) : Numbering (vputOpt vn) :=
  walk.vputOpt vn

theorem namei (name : Name) (fuel : Nat) : Numbering (namei name fuel) :=
  walk.namei name fuel

theorem newNode (vfs : Nat) (dir : Option Nat) (type : VType) (link : Name)
    : Numbering (newNode vfs dir type link) := by
  intro s hs
  refine ⟨?_, trivial⟩
  intro m
  change (Function.update s.nodes s.nextNode _ m).Numbered
  by_cases hm : m = s.nextNode
  . subst hm
    rw [Function.update_self]
    constructor
    . intro _
      exact Nat.le_refl _
    . intro de hde
      cases hde
    . exact List.nodup_nil
  . rw [Function.update_of_ne hm]
    exact hs m

theorem ramfs_alloc_node (vfs : Nat) (dir : Option Nat) (type : VType) (link : Option Name)
    : Numbering (ramfs_alloc_node vfs dir type link) :=
  files.ramfs_alloc_node newNode vfs dir type link

theorem ramfs_dir_attach (parent : Nat) (de : RamDentry) : Numbering (ramfs_dir_attach parent de) := by
  apply (files.acquireNode parent).bind
  intro _ s hs
  rw [wp_bind, wp_getNode]
  split
  . apply bind (files.releaseNode parent) _ s hs
    intro _
    apply pure
  . next hdir =>
    rw [ne_eq, not_not] at hdir
    rw [wp_bind, wp_setNode_iff]
    apply bind (files.releaseNode parent) _ _ _
    . intro _
      apply pure
    . exact updNode hs ((hs parent).attach hdir de _)

theorem ramfs_alloc_file (vdir : Nat) (name : Name) (len : Nat) (type : VType) (target : Option Name)
    : Numbering (ramfs_alloc_file vdir name len type target) := by
  apply (getVnode vdir).bind
  intro vd
  apply ite (pure _)
  apply (ramfs_alloc_node _ _ _ _).bind
  intro n
  apply (files.ramfs_alloc_dentry _ _).bind
  intro de
  apply (ramfs_dir_attach _ _).bind
  intro _
  apply (walk.ramfs_vget _ _).bind
  intro v
  apply pure

theorem ramfs_link (vdir vn : Nat) (name : Name) : Numbering (ramfs_link vdir vn name) := by
  apply (getVnode vdir).bind
  intro vd
  apply (getVnode vn).bind
  intro v
  apply (files.ramfs_alloc_dentry _ _).bind
  intro de
  apply (ramfs_dir_attach _ _).bind
  intro _
  apply pure

theorem calls : CallRules fun _ x => Numbering x where
  walk := walk
  files := files
  ramfs_alloc_file := ramfs_alloc_file
  ramfs_link := ramfs_link

theorem ramfs_mount (vfs : Nat) : Numbering (ramfs_mount vfs) := by
  apply getSt.bind
  intro st
  apply setVfs.bind
  intro _
  apply (ramfs_alloc_node _ _ _ _).bind
  intro root
  refine bind (setNode fun _ => ⟨rfl, rfl, List.Sublist.refl _⟩) ?_
  intro _
  apply setVfs.bind
  intro _
  apply pure

theorem acquireList : Numbering acquireList := by
  intro s hs
  rw [wp_acquireList]
  exact ⟨fun _ => trivial, fun _ => ⟨hs, trivial⟩⟩

theorem releaseList : Numbering releaseList := by
  intro s hs
  exact ⟨hs, trivial⟩

theorem newVfs : Numbering newVfs := by
  intro s hs
  exact ⟨hs, trivial⟩

theorem finish (vfs : Nat) : Numbering (vfs_mount.finish vfs) := by
  apply getSt.bind
  intro st
  apply setVfs.bind
  intro _
  apply bind
  . intro s hs
    exact ⟨hs, trivial⟩
  . intro _
    apply (ramfs_mount vfs).bind
    intro error
    apply releaseList.bind
    intro _
    apply pure

theorem fail2 (error : Errno) (n : Nameidata) : Numbering (vfs_mount.fail2 error n) := by
  apply (vputOpt _).bind
  intro _
  apply (vfs_close _).bind
  intro _
  apply releaseList.bind
  intro _
  apply pure

theorem vfs_mount (mntpoint : Option Name) (fstype : Name) (fuel : Nat)
    : Numbering (vfs_mount mntpoint fstype fuel) := by
  apply acquireList.bind
  intro _
  apply ite
  . apply releaseList.bind
    intro _
    apply pure
  . apply newVfs.bind
    intro vfs
    cases mntpoint with
    | none =>
      apply setVfs.bind
      intro _
      apply bind
      . intro s hs
        exact ⟨hs, trivial⟩
      . intro _
        apply finish
    | some mntpoint =>
      apply (namei mntpoint fuel).bind
      rintro ⟨error, nd⟩
      dsimp only
      split
      . apply fail2
      . apply throw
      . next _ _ mntvnode _ =>
        apply (acquire mntvnode).bind
        intro _
        apply (getVnode mntvnode).bind
        intro mnt
        apply ite (fail2 _ _)
        apply ite (fail2 _ _)
        apply setVfs.bind
        intro _
        apply setVnode.bind
        intro _
        apply (vfs_close mntvnode).bind
        intro _
        apply (vfs_close _).bind
        intro _
        apply finish

theorem vfs_unmount (name : Name) (fuel : Nat) : Numbering (vfs_unmount name fuel) := by
  apply (namei name fuel).bind
  rintro ⟨error, nd⟩
  dsimp only
  split
  . apply calls.closeFailed
  . apply throw
  . next _ _ vn _ =>
    apply (getVnode vn).bind
    intro v
    apply (getVfs _).bind
    intro vfs
    apply (acquire vn).bind
    intro _
    apply ite
    . apply (vfs_close vn).bind
      intro _
      apply pure
    . apply ite
      . apply (vfs_close vn).bind
        intro _
        apply pure
      . apply (vfs_close vn).bind
        intro _
        apply (files.ramfs_unmount _).bind
        intro _
        split
        . next mntvnode _ =>
          apply (acquire mntvnode).bind
          intro _
          apply setVnode.bind
          intro _
          apply (release mntvnode).bind
          intro _
          apply (vfs_close _).bind
          intro _
          apply pure
        . apply throw

theorem init_rootvn : Numbering init_rootvn := by
  apply getSt.bind
  intro st
  split
  . apply pure
  . apply (walk.ramfs_root _).bind
    intro v s hs
    exact ⟨hs, trivial⟩

theorem code {x : Prog Code} (hx : Numbering x) : Numbering (do
    let error ← x
    Pure.pure (error, (none : Option Nat))) := by
  apply hx.bind
  intro error
  apply pure

theorem run (call : Call) (fuel : Nat) : Numbering (call.run fuel) := by
  cases call with
  | vfs_open path type create => apply calls.vfs_open
  | vfs_mkdir path => apply calls.vfs_mkdir
  | vfs_rmdir path => exact code (calls.vfs_rmdir path fuel)
  | vfs_unlink path => exact code (calls.vfs_unlink path fuel)
  | vfs_link path target => exact code (calls.vfs_link path target fuel)
  | vfs_symlink path target => exact code (calls.vfs_symlink path target fuel)
  | vfs_mount path fstype => exact code (vfs_mount (some path) fstype fuel)
  | vfs_unmount path => exact code (vfs_unmount path fuel)
  | vfs_close v =>
    apply (vfs_close v).bind
    intro _
    apply pure

theorem krun (call : KCall) (fuel : Nat) : Numbering (call.run fuel) := by
  cases call with
  | vfs_mount_root fstype => exact code (vfs_mount none fstype fuel)
  | init_rootvn =>
    apply init_rootvn.bind
    intro _
    apply pure
  | call c => apply run

end Numbering

theorem St.Numbered.empty (junk : Junk) : (St.empty junk).Numbered := by
  intro n
  constructor
  . intro hdir
    cases hdir
  . intro de hde
    cases hde
  . exact List.nodup_nil

theorem KCall.Reached.numbered {Cond : St → Nat → KCall → Prop} {junk : Junk} {s : St} (h : Reached Cond junk s)
    : s.Numbered := by
  induction h with
  | empty => exact .empty junk
  | memory _ _ ih => exact ih
  | step _ _ hrun ih => exact ((wp_of_ok hrun).mp (Numbering.krun _ _ _ ih)).1

theorem Call.Reached.numbered {Cond : St → Nat → Call → Prop} {junk : Junk} {own : List Nat} {s : St}
    (h : Reached Cond junk own s) : s.Numbered := by
  induction h with
  | boot h =>
    have hboot : Numbering Fs.boot := by
      apply (Numbering.vfs_mount none _ 0).bind
      intro _
      exact Numbering.init_rootvn
    exact ((wp_of_ok h).mp (hboot _ (.empty junk))).1
  | memory _ _ ih => exact ih
  | step _ _ _ hrun ih => exact ((wp_of_ok hrun).mp (Numbering.run _ _ _ ih)).1

theorem St.Numbered.listable {s : St} {v : Nat} (h : s.Numbered) (hfreed : (s.vnodes v).freed = false)
    (hramlock : (s.nodes (s.vnodes v).data).ramlock = false) : Listable s v where
  freed := hfreed
  ramlock := hramlock
  seq de hde := ((h _).seq de hde).1
  nodup := (h _).nodup

theorem KCall.Reached.listable {Cond : St → Nat → KCall → Prop} {junk : Junk} {s : St} {v : Nat}
    (h : Reached Cond junk s) (hfreed : (s.vnodes v).freed = false)
    (hramlock : (s.nodes (s.vnodes v).data).ramlock = false) : Listable s v := by
  exact h.numbered.listable hfreed hramlock

end Fs
end Franklin
