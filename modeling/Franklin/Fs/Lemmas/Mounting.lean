import Franklin.Fs.Lemmas.Sown
import Franklin.Fs.Lemmas.Mounts

/-!
This module contains that mounting a file system, and unmounting one that is not in use, keeps the trees of
all file systems consistent, so that vnodes and ramnodes correspond one to one.
-/

namespace Franklin
namespace Fs

structure SameVfss (s s' : St) : Prop where
  vfss : s'.vfss = s.vfss
  nextNode : s'.nextNode = s.nextNode
  nextVfs : s'.nextVfs = s.nextVfs

theorem SameVfss.refl (s : St) : SameVfss s s :=
  ⟨rfl, rfl, rfl⟩

theorem SameVfss.trans {s s1 s2 : St} (h : SameVfss s s1) (h1 : SameVfss s1 s2) : SameVfss s s2 :=
  ⟨h1.vfss.trans h.vfss, h1.nextNode.trans h.nextNode, h1.nextVfs.trans h.nextVfs⟩

def Barren {α : Type} (x : Prog α) : Prop :=
  Keeps (fun _ => True) SameVfss x

namespace Barren

variable {α β : Type} {v n : Nat}

theorem pure (a : α) : Barren (pure a : Prog α) :=
  Keeps.pure SameVfss.refl a

theorem throw (e : Stop) : Barren (throw e : Prog α) :=
  Keeps.throw e

theorem bind {x : Prog α} {f : α → Prog β} (hx : Barren x) (hf : ∀ a, Barren (f a)) : Barren (x >>= f) :=
  Keeps.bind (fun _ _ _ => SameVfss.trans) hx hf

theorem ite {c : Prop} [Decidable c] {x y : Prog α} (hx : Barren x) (hy : Barren y)
    : Barren (if c then x else y) :=
  Keeps.ite hx hy

theorem getVnode (v : Nat) : Barren (getVnode v) := by
  intro s _
  rw [wp_getVnode]
  exact ⟨fun _ => trivial, fun _ => ⟨trivial, SameVfss.refl s⟩⟩

theorem getNode (n : Nat) : Barren (getNode n) := by
  intro s _
  exact ⟨trivial, SameVfss.refl s⟩

theorem setVnode {f : Vnode → Vnode} : Barren (setVnode v f) := by
  intro s _
  exact ⟨trivial, rfl, rfl, rfl⟩

theorem setNode {f : RamNode → RamNode} : Barren (setNode n f) := by
  intro s _
  exact ⟨trivial, rfl, rfl, rfl⟩

theorem deref (n : Nat) : Barren (deref n) := by
  apply (getNode n).bind
  intro node
  apply ite (throw _) (pure _)

theorem acquire (v : Nat) : Barren (acquire v) := by
  apply (getVnode v).bind
  intro vn
  apply ite (throw _) setVnode

theorem release (v : Nat) : Barren (release v) := by
  apply (getVnode v).bind
  intro vn
  apply setVnode

theorem setPrev (p prev : Ptr) : Barren (setPrev p prev) := by
  unfold Fs.setPrev
  split
  . apply pure
  . apply (deref _).bind
    intro _
    apply setNode
  . apply throw

theorem acquireNode (n : Nat) : Barren (acquireNode n) := by
  apply (getNode n).bind
  intro node
  apply ite (throw _) setNode

theorem ramfs_inactive (n : Nat) : Barren (ramfs_inactive n) := by
  apply (deref n).bind
  intro _
  apply (acquireNode n).bind
  intro _
  apply setNode.bind
  intro _
  apply (getNode n).bind
  intro node
  apply ite
  . apply bind _ fun _ => setNode
    apply (deref n).bind
    intro _
    apply (getNode n).bind
    intro node'
    apply (setPrev _ _).bind
    intro _
    apply setNode
  . apply setNode

theorem vfs_close (v : Nat) : Barren (vfs_close v) := by
  apply (getVnode v).bind
  intro vn
  apply setVnode.bind
  intro _
  apply ite
  . apply (ramfs_inactive _).bind
    intro _
    apply setVnode
  . apply release

theorem walk : WalkRules fun _ x => Barren x where
  pure := pure
  throw e _ := throw e
  bind := bind
  getSt s _ := ⟨trivial, SameVfss.refl s⟩
  getVnode := getVnode
  getNode := getNode
  getVfs _ s _ := ⟨trivial, SameVfss.refl s⟩
  acquire := acquire
  release := release
  acquireNode := acquireNode
  releaseNode _ := setNode
  vref_locked v := (getVnode v).bind fun _ => ite (throw _) setVnode
  newVnode _ _ _ _ := ⟨trivial, rfl, rfl, rfl⟩
  vfs_close := vfs_close

end Barren

structure Bare (own : Nat → Nat) (s : St) (v : Nat) : Prop where
  lt : v < s.nextVfs
  own : ∀ n, n < s.nextNode → own n ≠ v
  nodes : ∀ n, (s.vfss v).nodes ≠ .ref n

theorem Unborn.same {own : Nat → Nat} {s s' : St} {v : Nat} (h : Unborn own s v) (hs : SameVfss s s')
    : Unborn own s' v where
  last := by rw [hs.nextVfs, h.last]
  own := by
    rw [hs.nextNode]
    apply h.own
  mountpoint := by
    rw [hs.vfss]
    apply h.mountpoint
  nodes := by
    rw [hs.vfss]
    apply h.nodes

theorem Bare.same {own : Nat → Nat} {s s' : St} {v : Nat} (h : Bare own s v) (hs : SameVfss s s')
    : Bare own s' v where
  lt := by
    rw [hs.nextVfs]
    apply h.lt
  own := by
    rw [hs.nextNode]
    apply h.own
  nodes := by
    rw [hs.vfss]
    apply h.nodes

section Calls

variable {own : Nat → Nat} {st s : St} {v : Nat} {path fstype : Name} {fuel : Nat}

theorem wp_finish (h : Grove (some v) own s) (hlists : Lists own s) (hv : Bare own s v)
    : wp (vfs_mount.finish v) (fun _ s' => Grown s') (fun _ _ => True) s := by
  unfold vfs_mount.finish
  rw [wp_bind, wp_getSt, wp_bind, wp_setVfs]
  apply wp_bind.mpr
  rw [wp_update]
  generalize hvfss : Function.update s.vfss v { s.vfss v with next := s.mountedlist } = vfss
  have hsame : ∀ u, (vfss u).mountpoint = (s.vfss u).mountpoint ∧ (vfss u).root = (s.vfss u).root ∧
      (vfss u).rootfs = (s.vfss u).rootfs ∧ (vfss u).nodes = (s.vfss u).nodes := by
    intro u
    rw [← hvfss]
    by_cases hu : u = v
    . rw [hu, Function.update_self]
      exact ⟨rfl, rfl, rfl, rfl⟩
    . rw [Function.update_of_ne hu]
      exact ⟨rfl, rfl, rfl, rfl⟩
  have hsteady : Steady s { s with vfss, mountedlist := some v } :=
    ⟨rfl, rfl, rfl, rfl, fun u => ⟨(hsame u).1, (hsame u).2.1, (hsame u).2.2.1⟩, Nat.le_refl _,
      Nat.le_refl _, fun _ _ => rfl, fun _ _ hfreed => hfreed, fun _ _ => ⟨rfl, rfl⟩⟩
  have hforest : Forest { s with vfss, mountedlist := some v } := by
    refine ⟨⟨h.forest.inv.linked, h.forest.inv.counted, ?_, h.forest.inv.rootvn⟩, h.forest.wf,
      h.forest.back, h.forest.live⟩
    intro u w hw
    dsimp only at hw
    rw [(hsame u).1] at hw
    apply h.forest.inv.mountpoint u w hw
  have hgrove : Grove (some v) own { s with vfss, mountedlist := some v } := by
    apply h.steady hsteady hforest h.beyond (fun _ => Iff.rfl) (fun _ _ _ hn => hn) (fun _ _ => rfl) h.entry
    intro w hle hfreed
    exact absurd ((h.beyond w hle).symm.trans hfreed) (by simp)
  have hnodes : ∀ n, (vfss v).nodes ≠ .ref n := by
    rw [(hsame v).2.2.2]
    apply hv.nodes
  have hlists' : Lists own { s with vfss, mountedlist := some v } :=
    hlists.congr rfl rfl rfl fun u => ⟨(hsame u).2.2.2, (hsame u).2.1⟩
  have hend : wp (ramfs_mount v) (fun _ s' => Grown s') (fun _ _ => True)
      { s with vfss, mountedlist := some v } := by
    apply wp_mono (wp_ramfs_mount (P := fun _ => True) (R := fun _ s' => Grown s') v
      ⟨_, hgrove.addRoot hv.lt hv.own, hlists'.addRoot hv.lt hnodes⟩)
    . intro _ s1 hs1
      apply hs1
    . simp
  apply wp_bind_of hend
  intro error s1 hs1
  rcases hs1 with ⟨own', hs1⟩
  have hrelease : Settled own' (do
      releaseList
      pure error) := by
    apply Settled.releaseList.bind
    intro _
    apply Settled.pure
  apply hrelease.grown hs1

theorem Sown.wp_newVfs (h : Sown own s)
    : wp newVfs (fun v s' => Sown own s' ∧ Unborn own s' v) (fun _ _ => True) s := by
  rw [Fs.wp_newVfs]
  refine ⟨⟨h.grove.newVfs h.lists _, h.lists.newVfs _ rfl⟩, ?_⟩
  constructor
  case last => rfl
  case own =>
    intro n hn
    have := h.lists.lt n hn
    omega
  case mountpoint =>
    intro mp
    dsimp only
    rw [Function.update_self]
    simp
  case nodes =>
    intro n
    dsimp only
    rw [Function.update_self]
    simp

theorem Settled.fail2 (error : Errno) (n : Nameidata) : Settled own (vfs_mount.fail2 error n) := by
  apply (Settled.vputOpt n.vn).bind
  intro _
  apply (Settled.vfs_close n.vdir).bind
  intro _
  apply Settled.releaseList.bind
  intro _
  apply Settled.pure

variable (h : Sown own st)

include h

theorem Sown.wp_vfs_mount
    : wp (vfs_mount (some path) fstype fuel) (fun _ s' => Grown s') (fun _ _ => True) st := by
  unfold vfs_mount
  apply wp_bind_of (Settled.acquireList st h)
  intro _ s1 hs1
  split
  . have hrelease : Settled own (do
        releaseList
        pure (some Errno.ENOENT)) := by
      apply Settled.releaseList.bind
      intro _
      apply Settled.pure
    apply hrelease.grown hs1.1
  . apply wp_bind_of hs1.1.wp_newVfs
    intro v s2 hs2
    rcases hs2 with ⟨hs2, hv2⟩
    dsimp only
    apply wp_bind_of (wp_conj (hs2.wp_namei path fuel) (Barren.walk.namei path fuel s2 trivial))
    intro r s3 hs3
    rcases hs3 with ⟨⟨⟨hs3, hstays3⟩, hsym, e, _, he, hended⟩, _, hsame3⟩
    have hv3 := hv2.same hsame3
    rcases r with ⟨error, vdir, found, name, len, issymlink⟩
    cases error with
    | some e => apply (Settled.fail2 e _).grown hs3
    | none =>
    cases found with
    | none => trivial
    | some mp =>
      rcases hended.mem_held rfl hsym rfl with ⟨held, V, hV, hw, hmem⟩
      rcases (he.vn hV).attached_held hw hmem hstays3 with ⟨hlt, hattached⟩
      dsimp only
      apply wp_bind_of (wp_conj (Settled.acquire mp s3 hs3) (Barren.acquire mp s3 trivial))
      intro _ s4 hs4
      rcases hs4 with ⟨⟨hs4, hstays4⟩, _, hsame4⟩
      have hv4 := hv3.same hsame4
      rw [wp_bind, wp_getVnode]
      refine ⟨fun _ => trivial, ?_⟩
      intro halive
      split
      . apply (Settled.fail2 _ _).grown hs4
      . next htype =>
        rw [not_not] at htype
        split
        . apply (Settled.fail2 _ _).grown hs4
        . next hhere =>
          rw [not_not] at hhere
          have hattached4 : s4.hier.Attached (s4.vnodes mp).data := by
            rw [hstays4.data_eq hlt]
            apply hstays4.attached _ hattached
          have hgrove5 := hs4.grove.setMountpoint hs4.lists hv4 halive htype hhere hattached4
          rw [wp_bind, wp_setVfs, wp_bind, wp_setVnode]
          dsimp only
          generalize hs5 : { s4 with
            vfss := Function.update s4.vfss v { s4.vfss v with mountpoint := .ref mp }
            vnodes := Function.update s4.vnodes mp { s4.vnodes mp with mountedhere := some v } } = s5
            at hgrove5
          have hlists5 : Lists own s5 := by
            rw [← hs5]
            apply hs4.lists.congr
            . rfl
            . rfl
            . rfl
            intro u
            dsimp only
            by_cases hu : u = v
            . rw [hu, Function.update_self]
              exact ⟨rfl, rfl⟩
            . rw [Function.update_of_ne hu]
              exact ⟨rfl, rfl⟩
          have hv5 : Bare own s5 v := by
            rw [← hs5]
            refine ⟨?_, hv4.own, ?_⟩
            . have := hv4.last
              dsimp only
              omega
            . intro n
              dsimp only
              rw [Function.update_self]
              apply hv4.nodes
          have hclose : ∀ w s, Grove (some v) own s → Lists own s → Bare own s v →
              wp (vfs_close w) (fun _ s' => Grove (some v) own s' ∧ Lists own s' ∧ Bare own s' v)
                (fun _ _ => True) s := by
            intro w s hgrove hlists hv
            apply wp_mono (wp_conj (wp_conj (Calm.vfs_close s hgrove) (Apart.vfs_close w s hlists))
              (Barren.vfs_close w s trivial))
            . intro _ s' hs'
              exact ⟨hs'.1.1.1, hs'.1.2.1, hv.same hs'.2.2⟩
            . simp
          apply wp_bind_of (hclose mp s5 hgrove5 hlists5 hv5)
          intro _ s6 hs6
          apply wp_bind_of (hclose vdir s6 hs6.1 hs6.2.1 hs6.2.2)
          intro _ s7 hs7
          apply wp_finish hs7.1 hs7.2.1 hs7.2.2

theorem Sown.wp_vfs_mount_root
    : wp (vfs_mount none fstype fuel) (fun _ s' => Grown s') (fun _ _ => True) st := by
  unfold vfs_mount
  apply wp_bind_of (Settled.acquireList st h)
  intro _ s1 hs1
  split
  . have hrelease : Settled own (do
        releaseList
        pure (some Errno.ENOENT)) := by
      apply Settled.releaseList.bind
      intro _
      apply Settled.pure
    apply hrelease.grown hs1.1
  . apply wp_bind_of hs1.1.wp_newVfs
    intro v s2 hs2
    rcases hs2 with ⟨hs2, hv2⟩
    dsimp only
    rw [wp_bind, wp_setVfs]
    apply wp_bind.mpr
    rw [wp_update]
    have hsame : ∀ u, (Function.update s2.vfss v { s2.vfss v with rootfs := true } u).nodes =
        (s2.vfss u).nodes ∧
          (Function.update s2.vfss v { s2.vfss v with rootfs := true } u).root = (s2.vfss u).root := by
      intro u
      by_cases hu : u = v
      . rw [hu, Function.update_self]
        exact ⟨rfl, rfl⟩
      . rw [Function.update_of_ne hu]
        exact ⟨rfl, rfl⟩
    apply wp_finish (hs2.grove.setRootfs hv2)
    . apply hs2.lists.congr
      . rfl
      . rfl
      . rfl
      . apply hsame
    . refine ⟨?_, hv2.own, ?_⟩
      . have := hv2.last
        dsimp only
        omega
      . intro n
        dsimp only
        rw [(hsame v).1]
        apply hv2.nodes

theorem Sown.wp_init_rootvn
    : wp init_rootvn (fun _ s' => Grown s') (fun _ _ => True) st := by
  unfold init_rootvn
  rw [wp_bind, wp_getSt]
  cases hrf : st.rootfs with
  | none => exact ⟨own, h⟩
  | some rf =>
    dsimp only
    have hinv := h.grove.forest.inv
    have hlive := (h.grove.rootfs rf hrf).2.2.2 (by simp)
    have hplaced : Placed own st (Loc.get st [] rf (st.vfss rf).root) := by
      apply Placed.get h.grove
      . simp
      . exact Or.inl hlive.1
      . intro _
        exact hlive.2.symm
      . apply hlive
    unfold ramfs_root
    apply wp_bind.mpr
    rw [wp_bind, wp_getVfs]
    apply wp_mono (wp_conj (wp_conj ((Walked.init st).wp_ramfs_vget hinv (by simp) rf (st.vfss rf).root)
      (Fixed.ramfs_vget st trivial)) (Apart.walk.ramfs_vget rf (st.vfss rf).root st h.lists))
    . intro v s1 hs1
      rcases hs1 with ⟨⟨⟨hw, _⟩, _, hsame⟩, hlists, _⟩
      have hheld : ∀ w L, (w, L) ∈ [(v, Loc.get st [] rf (st.vfss rf).root)] → Placed own st L := by
        intro w L hL
        rw [List.mem_singleton, Prod.mk.injEq] at hL
        rw [hL.2]
        apply hplaced
      rcases h.grove.walked hw hsame hheld with ⟨hgrove, hstays⟩
      rw [wp_update]
      have hrootfs : s1.rootfs = some rf := by
        rw [hstays.rootfs, hrf]
      refine ⟨own, hgrove.setRootvn hrootfs (hw.lt_nextVnode List.mem_cons_self) ?_, ?_⟩
      . rw [(hw.members List.mem_cons_self).1, Loc.node_get hinv, (hstays.vfss rf).2.1]
      . apply hlists.congr
        . rfl
        . rfl
        . rfl
        . exact fun _ => ⟨rfl, rfl⟩
    . simp

omit h in
theorem Unused.walked {d u : Nat} {D : Loc} (hw : Walked st s [(d, D)] [] []) (hunused : Unused st u)
    (hvfs : D.vfs st ≠ u) (hlisted : ¬ Listed st u (D.node st)) : Unused s u := by
  have hlist : ∀ n, Listed s u n ↔ Listed st u n := by
    intro n
    unfold Listed
    rw [hw.same.vfss]
    apply Follows.congr_iff
    intro m
    apply hw.same.next_eq
  constructor
  case vnode =>
    intro w hlt hfreed
    rw [hlist]
    by_cases hheld : (w, D) ∈ [(d, D)]
    . rcases hw.members hheld with ⟨hdata, _, hwvfs, _⟩
      rw [hdata, hwvfs]
      exact ⟨hvfs, hlisted⟩
    . by_cases hold : w < st.nextVnode
      . rw [hw.old w hold] at hfreed ⊢
        apply hunused.vnode w hold hfreed
      . have hzero : refs [(d, D)] w = 0 := by
          by_contra hpos
          rcases refs_pos_iff.mp (Nat.pos_of_ne_zero hpos) with ⟨L, hL⟩
          rw [List.mem_singleton, Prod.mk.injEq] at hL
          apply hheld
          rw [hL.1]
          apply List.mem_singleton_self
        rw [hw.dropped w (by omega) hlt hzero] at hfreed
        cases hfreed
  case dentry =>
    intro n de hde
    rw [hw.same.dentry_eq] at hde
    rw [hlist, hlist]
    apply hunused.dentry n de hde

omit h in
theorem wp_uncover {mp : Nat} {Q : Unit → St → Prop}
    (hQ : (s.vnodes mp).freed = false → Q ()
      { s with
        vnodes := Function.update s.vnodes mp { s.vnodes mp with lock := false, mountedhere := none } })
    : wp (do
          acquire mp
          setVnode mp fun vn => { vn with mountedhere := none }
          release mp) Q (fun _ _ => True) s := by
  unfold acquire release
  simp only [bind_assoc]
  rw [wp_bind, wp_getVnode]
  refine ⟨fun _ => trivial, ?_⟩
  intro halive
  split
  . trivial
  . rw [wp_bind, wp_setVnode, wp_bind, wp_setVnode, wp_bind, wp_getVnode]
    refine ⟨fun _ => trivial, ?_⟩
    intro _
    rw [wp_setVnode]
    dsimp only
    simp only [Function.update_self, Function.update_idem]
    apply hQ halive

omit h in
theorem Ended.found_or {e : Exit} {r : Code × Nameidata} {vn : Nat} {V : Loc} (hended : Ended st s e r)
    (herror : r.1 = none) (hsym : r.2.issymlink = false) (hvn : r.2.vn = some vn) (hV : e.vn = some V)
    : ∃ held, Walked st s held [] [] ∧ (vn, V) ∈ held ∧
        ((∃ D, e.vdir = D ∧ held = [(vn, V), (r.2.vdir, D)]) ∨ e.vdir = V) := by
  cases hended with
  | found d w D W name len hw =>
    simp only [Exit.vn, Option.some.injEq] at hvn hV
    subst hvn hV
    exact ⟨_, hw, List.mem_cons_self, Or.inl ⟨D, rfl, rfl⟩⟩
  | here d D name len hw =>
    simp only [Exit.vn, Option.some.injEq] at hvn hV
    subst hvn hV
    exact ⟨_, hw, List.mem_cons_self, Or.inr rfl⟩
  | tail d w D W name len hw =>
    simp only [Exit.vn, Option.some.injEq] at hvn hV
    subst hvn hV
    exact ⟨_, hw, List.mem_cons_self, Or.inr rfl⟩
  | link d w D W name len hw => simp at hsym
  | missing d D name len hw => simp at herror
  | notdir d D vn name len hw => simp at herror

omit h in
theorem Sown.wp_takeApart {u mp d : Nat} {s : St} (h : Sown own s) (hunused : Unused s u) (hlive : Live own s u)
    (hflag : (s.vfss u).rootfs = false) (hmp : (s.vfss u).mountpoint = .ref mp)
    : wp (do
          let _ ← ramfs_unmount u
          acquire mp
          setVnode mp fun vn => { vn with mountedhere := none }
          release mp
          vput d
          pure (none : Code)) (fun _ s' => Grown s') (fun _ _ => True) s := by
  have hin : ∀ n, Listed s u n → ∀ de ∈ (s.nodes n).dentry, Listed s u de.node := by
    intro n hn de hde
    exact (hunused.dentry n de hde).mp hn
  have hleaf : ∀ n, (s.nodes n).type ≠ .VDIR → (s.nodes n).dentry = [] := by
    intro n hn
    have hempty := h.grove.forest.wf.leaf n (by simpa [St.hier_node, RamNode.hnode] using hn)
    simpa [St.hier_node, RamNode.hnode] using hempty
  apply wp_bind_of (wp_conj (wp_ramfs_unmount hin hleaf) (Apart.ramfs_unmount u s h.lists))
  intro _ s1 hs1
  rcases hs1 with ⟨⟨htear, hgone, hend⟩, hlists1, _⟩
  have hvnodes : s1.vnodes = s.vnodes := by
    rw [htear.frame]
  have huncover : wp (do
      acquire mp
      setVnode mp fun vn => { vn with mountedhere := none }
      release mp) (fun _ s' => Sown own s') (fun _ _ => True) s1 := by
    apply wp_uncover
    intro halive
    rw [hvnodes] at halive
    have hgrove := h.grove.uncover hunused htear hgone h.lists hlive (h.lists.root_listed hlive hend) hflag
      hmp halive
    have hcount := h.grove.forest.inv.counted mp (h.grove.lt_of_alive halive) halive
    constructor
    case grove =>
      have hset := @Grove.setVnode _ _ _ mp hgrove (by simp [hvnodes, halive])
        { s.vnodes mp with lock := false, mountedhere := none } (by simp [hvnodes, Vnode.fixed]) halive hcount
      simpa only [Function.update_idem, hvnodes] using hset
    case lists =>
      apply hlists1.congr
      . rfl
      . rfl
      . rfl
      . exact fun _ => ⟨rfl, rfl⟩
  have hassoc : (do
      acquire mp
      setVnode mp fun vn => { vn with mountedhere := none }
      release mp
      vput d
      pure (none : Code)) = ((do
        acquire mp
        setVnode mp fun vn => { vn with mountedhere := none }
        release mp) >>= fun _ => do
          vput d
          pure (none : Code)) := by
    simp only [bind_assoc]
  rw [hassoc]
  apply wp_bind_of huncover
  intro _ s2 hs2
  have hclose : Settled own (do
      vput d
      pure (none : Code)) := by
    apply (Settled.vfs_close d).bind
    intro _
    apply Settled.pure
  apply hclose.grown hs2

theorem Sown.wp_vfs_unmount
    (hcond : ∀ e V, resolve st path fuel = some e → e.vn = some V → V.vroot st = true →
      (st.vfss (V.vfs st)).rootfs = false →
      Unused st (V.vfs st) ∧ e.vdir.vfs st ≠ V.vfs st ∧ ¬ Listed st (V.vfs st) (e.vdir.node st))
    : wp (vfs_unmount path fuel) (fun _ s' => Grown s') (fun _ _ => True) st := by
  have hrele : ∀ vn error, Settled own (do
      vrele vn
      pure (some error : Code)) := by
    intro vn error
    apply (Settled.vfs_close vn).bind
    intro _
    apply Settled.pure
  have hinv := h.grove.forest.inv
  unfold vfs_unmount
  apply wp_bind_of (h.wp_namei path fuel)
  intro r s1 hs1
  rcases hs1 with ⟨⟨hs1, hstays1⟩, hsym, e, hresolve, he, hended⟩
  rcases r with ⟨error, vdir, found, name, len, issymlink⟩
  cases error with
  | some e => apply (Settled.closeFailed vdir found e).grown hs1
  | none =>
  cases found with
  | none => trivial
  | some vn =>
    rcases hended.mem_held rfl hsym rfl with ⟨_, V, hV, _, _⟩
    rcases hended.found_or rfl hsym rfl hV with ⟨held, hw, hmem, hheld⟩
    rcases hw.members hmem with ⟨_, _, hvfs, hvroot, _⟩
    dsimp only
    rw [wp_bind, hw.wp_getVnode hmem, wp_bind, wp_getVfs]
    have hacquire := hw.wp_acquire (E := fun _ _ => True) hmem (by simp)
    apply wp_bind_of (wp_conj (Settled.acquire vn s1 hs1) hacquire)
    intro _ s2 hs2
    rcases hs2 with ⟨⟨hs2, hstays2⟩, hw2⟩
    split
    . apply (hrele _ _).grown hs2
    . next hroot =>
      split
      . apply (hrele _ _).grown hs2
      . next hflag =>
        rw [hvfs, hw.same.vfss] at hflag
        rw [hvroot] at hroot
        simp only [Bool.not_eq_true, Bool.not_eq_false'] at hroot hflag
        rcases hcond e V hresolve hV hroot hflag with ⟨hunused, hdvfs, hdlisted⟩
        rcases hheld with ⟨D, rfl, rfl⟩ | hsame
        . have hvput := wp_mono (hw2.wp_vput hinv) (fun _ _ hs => hs) (fun _ _ _ => trivial)
          apply wp_bind_of (wp_conj (Settled.vfs_close vn s2 hs2) hvput)
          intro _ s3 hs3
          rcases hs3 with ⟨⟨hs3, hstays3⟩, hw3⟩
          have hfilter : [vn].filter (· ≠ vn) = [] := by simp
          rw [hfilter] at hw3
          have hstays := hstays1.trans (hstays2.trans hstays3)
          have hlive := hstays.live hs3.grove.forest.wf (he.vn hV).live fun _ _ => rfl
          rw [hvfs, hw.same.vfss]
          cases hmp : (st.vfss (V.vfs st)).mountpoint with
          | ref mp =>
            apply hs3.wp_takeApart (hunused.walked hw3 hdvfs hdlisted) hlive
            . rw [hw3.same.vfss, hflag]
            . rw [hw3.same.vfss, hmp]
          | null =>
            apply wp_bind_of (Apart.ramfs_unmount _ s3 hs3.lists)
            intro _ s4 _
            trivial
          | wild =>
            apply wp_bind_of (Apart.ramfs_unmount _ s3 hs3.lists)
            intro _ s4 _
            trivial
        . rw [hsame] at hdvfs
          exact absurd rfl hdvfs

end Calls

theorem KCall.wp_grown {st : St} {fuel : Nat} {call : KCall} (h : Grown st) (hcond : Orderly st fuel call)
    : wp (call.run fuel) (fun _ s' => Grown s') (fun _ _ => True) st := by
  rcases h with ⟨own, h⟩
  have hcode : ∀ {x : Prog Code}, wp x (fun _ s' => Grown s') (fun _ _ => True) st →
      wp (do
        let error ← x
        pure (error, (none : Option Nat))) (fun _ s' => Grown s') (fun _ _ => True) st := by
    intro x hx
    rw [wp_bind]
    apply hx
  cases call with
  | vfs_mount_root fstype => apply hcode h.wp_vfs_mount_root
  | init_rootvn =>
    unfold run
    rw [wp_bind]
    apply h.wp_init_rootvn
  | call c =>
    unfold run Call.run
    cases c with
    | vfs_open name type create => apply h.wp_vfs_open
    | vfs_mkdir name => apply h.wp_vfs_mkdir
    | vfs_rmdir name => apply hcode h.wp_vfs_rmdir
    | vfs_unlink name => apply hcode h.wp_vfs_unlink
    | vfs_link name target => apply hcode h.wp_vfs_link
    | vfs_symlink name target => apply hcode h.wp_vfs_symlink
    | vfs_close v =>
      apply Settled.grown _ h
      apply (Settled.vfs_close v).bind
      intro _
      apply Settled.pure
    | vfs_mount mntpoint fstype => apply hcode h.wp_vfs_mount
    | vfs_unmount name => apply hcode (h.wp_vfs_unmount hcond)

theorem Sown.empty (own : Nat → Nat) (junk : Junk) : Sown own (.empty junk) where
  lists := Lists.empty junk
  grove := by
    have hforest : Forest (.empty junk) := by
      apply Forest.of_empty
      . rfl
      . rfl
      . simp [St.empty]
      . simp [St.empty]
      . simp [St.empty]
    have hroot : ∀ n, ¬ (St.empty junk).hier.Root n := by
      intro n hn
      exact absurd hn.1 (Nat.not_lt_zero n)
    constructor
    case forest => apply hforest
    case roots => exact fun r hr => absurd hr (hroot r)
    case entry =>
      intro d n hn
      rw [hforest.wf.beyond d (Nat.zero_le d)] at hn
      cases hn
    all_goals simp [St.empty]

theorem Grown.memory {s : St} (h : Grown s) (junk : Junk) : Grown { s with junk } := by
  rcases h with ⟨own, hgrove, hlists⟩
  refine ⟨own, ?_, ⟨hlists.head, hlists.next, hlists.prev, hlists.last, hlists.nonempty, hlists.lt⟩⟩
  constructor
  case forest =>
    exact ⟨hgrove.forest.inv.memory junk, hgrove.forest.wf, hgrove.forest.back, hgrove.forest.live⟩
  case beyond => exact hgrove.beyond
  case roots => exact hgrove.roots
  case rootfs => exact hgrove.rootfs
  case covered => exact hgrove.covered
  case mountpoint => exact hgrove.mountpoint
  case rootvn => exact hgrove.rootvn
  case entry => exact hgrove.entry
  case vnode => exact hgrove.vnode
  case live => exact hgrove.live
  case vroot => exact hgrove.vroot

/--
Vnodes in use and ramnodes that have a vnode refer to each other.
-/
structure Paired (s : St) : Prop where
  vnode : ∀ v, (s.vnodes v).freed = false → 0 < (s.vnodes v).refcount →
    (s.nodes (s.vnodes v).data).freed = false ∧ (s.nodes (s.vnodes v).data).vnode = some v
  node : ∀ n v, (s.nodes n).vnode = some v → (s.vnodes v).freed = false ∧ 0 < (s.vnodes v).refcount

theorem Grove.paired {pending : Option Nat} {own : Nat → Nat} {s : St} (h : Grove pending own s) : Paired s := by
  constructor
  case vnode =>
    intro v hfreed _
    have hback := h.forest.back v (h.lt_of_alive hfreed) hfreed
    exact ⟨(h.forest.live _ v hback).2, hback⟩
  case node =>
    intro n v hn
    rcases h.forest.inv.linked n v hn with ⟨hlt, _, hfreed, _⟩
    have := h.forest.inv.counted v hlt hfreed
    exact ⟨hfreed, by omega⟩

theorem KCall.Reached.grown {junk : Junk} {s : St} (h : Reached Orderly junk s) : Grown s := by
  induction h with
  | empty => exact ⟨fun _ => 0, Sown.empty _ junk⟩
  | memory _ junk' ih => exact ih.memory junk'
  | step _ hcond hrun ih =>
    have hrun' := KCall.wp_grown ih hcond
    rw [wp_of_ok hrun] at hrun'
    apply hrun'

theorem Grown.booted : Grown (booted zeroed) := by
  rw [← rootMounted_eq]
  exact rootMounted_orderly.grown

/--
Vnodes and ramnodes correspond one to one as long as no file system in use is unmounted.
-/
theorem KCall.vnodes_paired {junk : Junk} {s : St} (h : Reached Orderly junk s) : Paired s := by
  rcases h.grown with ⟨own, hown⟩
  apply hown.grove.paired

theorem KCall.vnodes_paired_coveredRoot : Paired coveredRoot := by
  apply @KCall.vnodes_paired zeroed
  apply coveredRoot_reached
  . exact rootMounted_orderly
  . trivial

@[irreducible]
def openedRoot : St :=
  after ((KCall.call (.vfs_open "/.".toList .VDIR false)).run 1) coveredRoot

@[irreducible]
def orphanedRoot : St :=
  after ((KCall.call (.vfs_unmount "/.".toList)).run 1) openedRoot

theorem KCall.not_paired_orphanedRoot
    : KCall.Reached (fun _ _ _ => True) zeroed orphanedRoot ∧ ¬ Paired orphanedRoot := by
  constructor
  . have hroot := rootMounted_reached (C := fun _ _ _ => True) trivial trivial
    have hcovered := coveredRoot_reached hroot trivial
    have hopened : KCall.Reached (fun _ _ _ => True) zeroed openedRoot := by
      unfold openedRoot
      apply hcovered.after trivial
      decide +kernel
    unfold orphanedRoot
    apply hopened.after trivial
    decide +kernel
  . intro h
    have hdata := (h.vnode 1 (by decide +kernel) (by decide +kernel)).1
    exact absurd hdata (by decide +kernel)

end Fs
end Franklin
