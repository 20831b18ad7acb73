import Franklin.Fs.Mount
import Franklin.Fs.Lemmas.Fixed
import Franklin.Fs.Lemmas.Names

/-!
This module contains that the two forms of the mount table agree as long as nothing is unmounted.
`vfs_unmount` takes the pointers to a file system away but leaves it in `mountedlist`.
-/

namespace Franklin
namespace Fs

namespace Fixed

theorem fail2 {error : Errno} {nd : Nameidata} : Fixed (vfs_mount.fail2 error nd) := by
  apply vputOpt.bind
  intro _
  apply vfs_close.bind
  intro _
  apply releaseList.bind
  intro _
  apply pure

end Fixed

structure Table (pending : Option Nat) (s : St) (vs : List Nat) : Prop where
  list : SList s.vfsNext (vfsAddr s.mountedlist) (vs.map (· + 1))
  nodup : vs.Nodup
  mem : ∀ v, v ∈ vs ↔
    pending ≠ some v ∧ (s.rootfs = some v ∨ ∃ mp, (s.vfss v).mountpoint = .ref mp)
  lt : ∀ v ∈ vs, v < s.nextVfs
  root : ∀ v mp, s.rootfs = some v → (s.vfss v).mountpoint ≠ .ref mp
  back : ∀ v mp, (s.vfss v).mountpoint = .ref mp →
    mp < s.nextVnode ∧ (s.vnodes mp).mountedhere = some v

namespace Table

variable {pending : Option Nat} {s s' : St} {vs : List Nat} {v : Nat}

theorem same (h : Table pending s vs) (hs : SameMounts s s') : Table pending s' vs where
  list := by
    rw [hs.mountedlist]
    apply h.list.congr
    intro p _
    unfold St.vfsNext
    rw [hs.next]
  nodup := h.nodup
  mem := by
    intro v
    rw [h.mem v, hs.rootfs, hs.mountpoint]
  lt := by
    rw [hs.nextVfs]
    apply h.lt
  root := by
    intro v mp
    rw [hs.rootfs, hs.mountpoint]
    apply h.root v mp
  back := by
    intro v mp
    rw [hs.mountpoint]
    intro hmp
    rcases h.back v mp hmp with ⟨hlt, hhere⟩
    refine ⟨Nat.lt_of_lt_of_le hlt hs.le, ?_⟩
    have hfixed := congrArg (fun x => x.2.1) (hs.fixed mp hlt)
    exact hfixed.trans hhere

theorem fixed {α : Type} {x : Prog α} {Q : α → St → Prop} {E : Stop → St → Prop} (h : Table pending s vs)
    (hx : Fixed x) (hQ : ∀ a s', Table pending s' vs → Q a s') (hE : ∀ e s', E e s') : wp x Q E s := by
  apply wp_mono (hx s trivial)
  . intro a s1 hs1
    apply hQ a s1 (h.same hs1.2)
  . intro e s1 _
    apply hE e s1

theorem list_congr (h : Table pending s vs) (hnext : ∀ v ∈ vs, (s'.vfss v).next = (s.vfss v).next)
    : SList s'.vfsNext (vfsAddr s.mountedlist) (vs.map (· + 1)) := by
  apply h.list.congr
  intro p hp
  rcases List.mem_map.mp hp with ⟨v, hv, rfl⟩
  unfold St.vfsNext
  rw [Nat.add_sub_cancel, hnext v hv]

theorem newVfs (h : Table none s vs)
    : wp newVfs (fun v s' => Table none s' vs ∧ v ∉ vs ∧ v < s'.nextVfs ∧ s'.rootfs = s.rootfs)
        (fun _ _ => False) s := by
  have hnot : s.nextVfs ∉ vs := by
    intro hmem
    have := h.lt _ hmem
    omega
  rw [wp_newVfs]
  refine ⟨⟨?_, h.nodup, ?_, ?_, ?_, ?_⟩, hnot, Nat.lt_succ_self _, rfl⟩
  . apply h.list_congr
    intro v hv
    dsimp only
    rw [Function.update_of_ne (Nat.ne_of_lt (h.lt v hv))]
  . intro v
    dsimp only
    by_cases hv : v = s.nextVfs
    . subst hv
      rw [Function.update_self]
      simp only [hnot, false_iff]
      rintro ⟨_, hroot | ⟨mp, hmp⟩⟩
      . apply hnot
        rw [h.mem]
        exact ⟨by simp, Or.inl hroot⟩
      . cases hmp
    . rw [Function.update_of_ne hv]
      apply h.mem v
  . intro v hv
    exact Nat.lt_succ_of_lt (h.lt v hv)
  . intro v mp hroot
    dsimp only
    by_cases hv : v = s.nextVfs
    . subst hv
      rw [Function.update_self]
      simp
    . rw [Function.update_of_ne hv]
      apply h.root v mp hroot
  . intro v mp
    dsimp only
    by_cases hv : v = s.nextVfs
    . subst hv
      rw [Function.update_self]
      simp
    . rw [Function.update_of_ne hv]
      apply h.back v mp

theorem not_mounted (h : Table none s vs) (hv : v ∉ vs)
    : s.rootfs ≠ some v ∧ ∀ mp, (s.vfss v).mountpoint ≠ .ref mp := by
  rw [h.mem] at hv
  simp only [ne_eq, reduceCtorEq, not_false_eq_true, true_and, not_or, not_exists] at hv
  exact hv

theorem setRootfs (h : Table none s vs) (hv : v ∉ vs) (hroot : s.rootfs = none)
    : Table (some v) { s with rootfs := some v } vs := by
  rcases h.not_mounted hv with ⟨_, hmp⟩
  refine ⟨h.list, h.nodup, ?_, h.lt, ?_, h.back⟩
  . intro w
    rw [h.mem w, hroot]
    simp only [ne_eq, Option.some.injEq]
    by_cases hw : v = w
    . subst hw
      simp [hmp]
    . simp [hw]
  . intro w mp hw
    rw [Option.some.injEq] at hw
    rw [← hw]
    apply hmp

theorem setMountpoint {mp : Nat} (h : Table none s vs) (hv : v ∉ vs) (hlt : mp < s.nextVnode)
    (hhere : (s.vnodes mp).mountedhere = none)
    : Table (some v)
        { s with
          vfss := Function.update s.vfss v { s.vfss v with mountpoint := .ref mp }
          vnodes := Function.update s.vnodes mp { s.vnodes mp with mountedhere := some v } } vs := by
  rcases h.not_mounted hv with ⟨hroot, hnot⟩
  have hne : ∀ w mp', (s.vfss w).mountpoint = .ref mp' → mp' ≠ mp := by
    intro w mp' hw heq
    have hback := (h.back w mp' hw).2
    rw [heq, hhere] at hback
    cases hback
  refine ⟨?_, h.nodup, ?_, h.lt, ?_, ?_⟩
  . apply h.list_congr
    intro w hw
    dsimp only
    rw [Function.update_of_ne]
    intro heq
    exact hv (heq ▸ hw)
  . intro w
    dsimp only
    by_cases hw : w = v
    . subst hw
      simp [hv]
    . rw [Function.update_of_ne hw, h.mem w]
      simp [Ne.symm hw]
  . intro w mp' hw
    dsimp only at hw ⊢
    rw [Function.update_of_ne]
    . apply h.root w mp' hw
    . intro heq
      rw [heq] at hw
      exact hroot hw
  . intro w mp'
    dsimp only
    by_cases hw : w = v
    . subst hw
      rw [Function.update_self, Ptr.ref.injEq]
      intro heq
      rw [← heq, Function.update_self]
      exact ⟨hlt, rfl⟩
    . rw [Function.update_of_ne hw]
      intro hmp
      rw [Function.update_of_ne (hne w mp' hmp)]
      apply h.back w mp' hmp

theorem link (h : Table (some v) s vs) (hv : v ∉ vs) (hlt : v < s.nextVfs)
    (hmounted : s.rootfs = some v ∨ ∃ mp, (s.vfss v).mountpoint = .ref mp)
    : Table none
        { s with
          vfss := Function.update s.vfss v { s.vfss v with next := s.mountedlist }
          mountedlist := some v } (v :: vs) := by
  have hmp : ∀ w, (Function.update s.vfss v { s.vfss v with next := s.mountedlist } w).mountpoint =
      (s.vfss w).mountpoint := by
    intro w
    by_cases hw : w = v
    . rw [hw, Function.update_self]
    . rw [Function.update_of_ne hw]
  refine ⟨?_, List.nodup_cons.mpr ⟨hv, h.nodup⟩, ?_, ?_, ?_, ?_⟩
  . apply SList.cons (Nat.succ_ne_zero v)
    have hnext : St.vfsNext
        { s with
          vfss := Function.update s.vfss v { s.vfss v with next := s.mountedlist }
          mountedlist := some v } (v + 1) = vfsAddr s.mountedlist := by
      unfold St.vfsNext
      rw [Nat.add_sub_cancel]
      dsimp only
      rw [Function.update_self]
    dsimp only [vfsAddr] at hnext ⊢
    rw [hnext]
    apply h.list_congr
    intro w hw
    dsimp only
    rw [Function.update_of_ne]
    intro heq
    exact hv (heq ▸ hw)
  . intro w
    dsimp only
    rw [hmp, List.mem_cons, h.mem w]
    by_cases hw : w = v
    . subst hw
      simpa using hmounted
    . simp [hw, Ne.symm hw]
  . intro w hw
    cases List.mem_cons.mp hw with
    | inl heq =>
      rw [heq]
      apply hlt
    | inr hmem => apply h.lt w hmem
  . intro w mp hw
    dsimp only
    rw [hmp]
    apply h.root w mp hw
  . intro w mp
    dsimp only
    rw [hmp]
    apply h.back w mp

theorem finish (h : Table (some v) s vs) (hv : v ∉ vs) (hlt : v < s.nextVfs)
    (hmounted : s.rootfs = some v ∨ ∃ mp, (s.vfss v).mountpoint = .ref mp)
    : wp (vfs_mount.finish v) (fun _ s' => ∃ vs', Table none s' vs') (fun _ _ => True) s := by
  unfold vfs_mount.finish
  rw [wp_bind, wp_getSt, wp_bind, wp_setVfs]
  apply wp_bind.mpr
  rw [wp_update]
  have hend : Fixed (do
      let error ← ramfs_mount v
      releaseList
      pure error) := by
    apply Fixed.ramfs_mount.bind
    intro error
    apply Fixed.releaseList.bind
    intro _
    apply Fixed.pure
  apply (h.link hv hlt hmounted).fixed hend
  . intro _ s1 hs1
    exact ⟨_, hs1⟩
  . intro e s1
    trivial

theorem agrees_iff (h : Table none s vs)
    : MountTable s ↔ ∀ v mp, (s.vfss v).mountpoint = .ref mp → (s.vnodes mp).freed = false := by
  constructor
  . rintro ⟨vs', hlist, _, hmem⟩ v mp hmp
    have hv : v ∈ vs := by
      rw [h.mem]
      exact ⟨by simp, Or.inr ⟨mp, hmp⟩⟩
    have hv' : v ∈ vs' := by
      have hvisit := h.list.visits_iff.mpr (List.mem_map_of_mem (f := (· + 1)) hv)
      rw [hlist.visits_iff] at hvisit
      simpa using hvisit
    cases (hmem v).mp hv' with
    | inl hroot => exact absurd hmp (h.root v mp hroot)
    | inr hpoint =>
      rcases hpoint with ⟨mp', hmp', hfreed, _⟩
      rw [hmp, Ptr.ref.injEq] at hmp'
      rw [hmp']
      apply hfreed
  . intro halive
    refine ⟨vs, h.list, h.nodup, ?_⟩
    intro v
    rw [h.mem v]
    unfold Mounted
    constructor
    . rintro ⟨_, hroot | ⟨mp, hmp⟩⟩
      . exact Or.inl hroot
      . exact Or.inr ⟨mp, hmp, halive v mp hmp, (h.back v mp hmp).2⟩
    . rintro (hroot | ⟨mp, hmp, _, _⟩)
      . exact ⟨by simp, Or.inl hroot⟩
      . exact ⟨by simp, Or.inr ⟨mp, hmp⟩⟩

end Table

section Calls

variable {st : St} {vs : List Nat} {fuel : Nat} (hinv : Inv st) (h : Table none st vs)

include hinv h

theorem wp_mount_table {path fstype : Name}
    : wp (vfs_mount (some path) fstype fuel) (fun _ s' => ∃ vs', Table none s' vs') (fun _ _ => True)
        st := by
  unfold vfs_mount
  apply wp_bind_of (wp_conj (Tame.acquireList st hinv) (h.fixed Fixed.acquireList (fun _ _ hs => hs) (by simp)))
  intro _ s1 hs1
  split
  . apply hs1.2.fixed (Fixed.releaseList.bind fun _ => Fixed.pure _)
    . intro _ s2 hs2
      exact ⟨vs, hs2⟩
    . simp
  . apply wp_bind_of (wp_conj (Tame.newVfs s1 hs1.1.1) (wp_mono hs1.2.newVfs (fun _ _ hs => hs) (by simp)))
    intro v s2 hs2
    rcases hs2 with ⟨⟨hinv2, _⟩, htable2, hv, hlt, _⟩
    have hfail : ∀ {error : Errno} {nd : Nameidata} {s : St}, Table none s vs →
        wp (vfs_mount.fail2 error nd) (fun _ s' => ∃ vs', Table none s' vs') (fun _ _ => True) s := by
      intro error nd s hs
      apply hs.fixed Fixed.fail2
      . intro _ s3 hs3
        exact ⟨vs, hs3⟩
      . simp
    dsimp only
    apply wp_bind_mono (wp_conj (wp_namei hinv2 path fuel) (Fixed.namei fuel s2 trivial))
    . simp
    . intro r s3 hs3
      rcases hs3 with ⟨⟨e, _, hended, hsym⟩, _, hsame⟩
      have htable3 := htable2.same hsame
      rw [← hsame.nextVfs] at hlt
      rcases r with ⟨error, nd⟩
      dsimp only
      split
      . apply hfail htable3
      . trivial
      . next mp hvn =>
        rcases hended.mem_held rfl hsym hvn with ⟨held, V, _, hw, hmem⟩
        apply wp_bind_mono (wp_conj (hw.wp_acquire (E := fun _ _ => True) hmem (by simp))
          (Fixed.acquire s3 trivial))
        . simp
        . intro _ s4 hs4
          rcases hs4 with ⟨hw4, _, hsame4⟩
          have htable4 := htable3.same hsame4
          rw [← hsame4.nextVfs] at hlt
          rw [wp_bind, hw4.wp_getVnode hmem]
          split
          . apply hfail htable4
          . split
            . apply hfail htable4
            . next hhere =>
              rw [not_not] at hhere
              rw [wp_bind, wp_setVfs, wp_bind, wp_setVnode]
              have htable5 := htable4.setMountpoint hv (hw4.lt_nextVnode hmem) hhere
              apply wp_bind_of (Fixed.vfs_close _ trivial)
              intro _ s6 hs6
              apply wp_bind_of (Fixed.vfs_close s6 trivial)
              intro _ s7 hs7
              have hsame7 := hs6.2.trans hs7.2
              apply (htable5.same hsame7).finish hv
              . rw [hsame7.nextVfs]
                apply hlt
              . refine Or.inr ⟨mp, ?_⟩
                rw [hsame7.mountpoint]
                dsimp only
                rw [Function.update_self]

theorem wp_mount_root_table {fstype : Name}
    (hroot : strcmp ['r', 'a', 'm', 'f', 's'] fstype = 0 → st.rootfs = none)
    : wp (vfs_mount none fstype fuel) (fun _ s' => Inv s' ∧ ∃ vs', Table none s' vs') (fun _ _ => True)
        st := by
  have htame : Tame (vfs_mount none fstype fuel) := by
    apply Tame.acquireList.bind
    intro _
    apply Tame.ite
    . apply Tame.releaseList.bind
      intro _
      apply Tame.pure
    . apply Tame.newVfs.bind
      intro v
      apply Tame.bind
      . apply Tame.setVfs
        simp
      . intro _
        have hset : Tame (fun st => .ok () { st with rootfs := some v }) := by
          intro s hs
          exact ⟨⟨hs.linked, hs.counted, hs.mountpoint, hs.rootvn⟩, Shrinks.of_eq (fun _ => rfl)⟩
        apply hset.bind
        intro _
        apply Tame.finish
  have htable : wp (vfs_mount none fstype fuel) (fun _ s' => ∃ vs', Table none s' vs') (fun _ _ => True)
      st := by
    unfold vfs_mount
    apply wp_bind_of (Fixed.acquireList st trivial)
    intro _ s1 hs1
    have htable1 := h.same hs1.2
    split
    . apply htable1.fixed (Fixed.releaseList.bind fun _ => Fixed.pure _)
      . intro _ s2 hs2
        exact ⟨vs, hs2⟩
      . simp
    . next hramfs =>
      rw [ne_eq, not_not] at hramfs
      apply wp_bind_mono htable1.newVfs (by simp)
      intro v s2 hs2
      rcases hs2 with ⟨htable2, hv, hlt, hroot2⟩
      rw [hs1.2.rootfs, hroot hramfs] at hroot2
      dsimp only
      have hflag : Fixed (setVfs v fun vfs => { vfs with rootfs := true }) := by
        apply Fixed.setVfs
        simp
      apply wp_bind_of (hflag s2 trivial)
      intro _ s3 hs3
      have htable3 := htable2.same hs3.2
      rw [← hs3.2.rootfs] at hroot2
      rw [← hs3.2.nextVfs] at hlt
      apply wp_bind.mpr
      rw [wp_update]
      apply (htable3.setRootfs hv hroot2).finish hv hlt (Or.inl rfl)
  apply wp_mono (wp_conj (htame st hinv) (wp_mono htable (fun _ _ hs => hs) (by simp)))
  . intro a s1 hs1
    exact ⟨hs1.1.1, hs1.2⟩
  . simp

theorem wp_init_rootvn_table
    : wp init_rootvn (fun _ s' => Inv s' ∧ Table none s' vs) (fun _ _ => True) st := by
  unfold init_rootvn
  rw [wp_bind, wp_getSt]
  split
  . exact ⟨hinv, h⟩
  . next vfs _ =>
    unfold ramfs_root
    apply wp_bind.mpr
    rw [wp_bind, wp_getVfs]
    apply wp_mono (wp_conj ((Walked.init st).wp_ramfs_vget hinv (by simp) vfs (st.vfss vfs).root)
      (wp_mono (Fixed.ramfs_vget st trivial) (fun _ _ hs => hs) (by simp)))
    . intro v s1 hs1
      rcases hs1 with ⟨⟨hw, _⟩, _, hsame⟩
      have hinv1 := hw.inv hinv
      have htable1 := h.same hsame
      rw [wp_update]
      refine ⟨⟨hinv1.linked, hinv1.counted, hinv1.mountpoint, ?_⟩, htable1.list, htable1.nodup,
        htable1.mem, htable1.lt, htable1.root, htable1.back⟩
      intro w hw'
      dsimp only at hw'
      rw [Option.some.injEq] at hw'
      rw [← hw']
      apply hw.lt_nextVnode List.mem_cons_self
    . simp

theorem wp_unmount_table {path : Name} (hnot : ¬ KCall.Unmounts st fuel path)
    : wp (vfs_unmount path fuel) (fun _ s' => Table none s' vs) (fun _ _ => True) st := by
  unfold vfs_unmount
  apply wp_bind_mono (wp_conj (wp_namei hinv path fuel) (Fixed.namei fuel st trivial))
  . simp
  . intro r s1 hs1
    rcases hs1 with ⟨⟨e, hresolve, hended, hsym⟩, _, hsame⟩
    have htable1 := h.same hsame
    have hfixed : ∀ {x : Prog Code} {s : St}, Table none s vs → Fixed x →
        wp x (fun _ s' => Table none s' vs) (fun _ _ => True) s := by
      intro x s hs hx
      apply hs.fixed hx
      . intro _ s2 hs2
        apply hs2
      . simp
    have hrele : ∀ vn error, Fixed (do
        vrele vn
        pure (some error : Code)) := by
      intro vn error
      apply Fixed.vfs_close.bind
      intro _
      apply Fixed.pure
    rcases r with ⟨error, nd⟩
    dsimp only
    split
    . apply hfixed htable1
      apply Fixed.vputOpt.bind
      intro _
      apply hrele
    . trivial
    . next v hvn =>
      rcases hended.mem_held rfl hsym hvn with ⟨held, V, hV, hw, hmem⟩
      rcases hw.members hmem with ⟨_, _, hvfs, hvroot, _⟩
      rw [wp_bind, hw.wp_getVnode hmem, wp_bind, wp_getVfs]
      apply wp_bind_of (Fixed.acquire s1 trivial)
      intro _ s2 hs2
      have htable2 := htable1.same hs2.2
      split
      . apply hfixed htable2 (hrele _ _)
      . next hroot =>
        split
        . apply hfixed htable2 (hrele _ _)
        . next hflag =>
          -- the checks are passed
          refine absurd ⟨e, V, hresolve, hV, ?_, ?_⟩ hnot
          . rw [← hvroot]
            simpa using hroot
          . rw [hw.same.vfss, hvfs] at hflag
            simpa using hflag

theorem KCall.wp_run {call : KCall} (hcond : Lasting st fuel call)
    : wp (call.run fuel) (fun _ s' => Inv s' ∧ ∃ vs', Table none s' vs') (fun _ _ => True) st := by
  cases call with
  | vfs_mount_root fstype =>
    unfold run
    rw [wp_bind]
    apply wp_mount_root_table hinv h hcond
  | init_rootvn =>
    unfold run
    rw [wp_bind]
    apply wp_mono (wp_init_rootvn_table hinv h)
    . intro _ s1 hs1
      exact ⟨hs1.1, vs, hs1.2⟩
    . simp
  | call c =>
    have hkeeps : wp (c.run fuel) (fun _ s' => Inv s' ∧ True) (fun _ _ => True) st := by
      apply Call.wp_run (J := fun _ => True) (fun _ _ _ _ => trivial) hinv trivial
      intro _ _ _ _ _ _ _
      trivial
    have htable : wp (c.run fuel) (fun _ s' => ∃ vs', Table none s' vs') (fun _ _ => True) st := by
      have hfixed : ∀ {α : Type} {x : Prog α}, Fixed x →
          wp x (fun _ s' => ∃ vs', Table none s' vs') (fun _ _ => True) st := by
        intro α x hx
        apply h.fixed hx
        . intro _ s1 hs1
          exact ⟨vs, hs1⟩
        . simp
      cases c with
      | vfs_open name type create => apply hfixed (Fixed.calls.vfs_open name type create fuel)
      | vfs_mkdir name => apply hfixed (Fixed.calls.vfs_mkdir name fuel)
      | vfs_rmdir name => apply hfixed ((Fixed.calls.vfs_rmdir name fuel).bind fun _ => Fixed.pure _)
      | vfs_unlink name => apply hfixed ((Fixed.calls.vfs_unlink name fuel).bind fun _ => Fixed.pure _)
      | vfs_link name target => apply hfixed ((Fixed.calls.vfs_link name target fuel).bind fun _ => Fixed.pure _)
      | vfs_symlink name target => apply hfixed ((Fixed.calls.vfs_symlink name target fuel).bind fun _ => Fixed.pure _)
      | vfs_close v => apply hfixed (Fixed.vfs_close.bind fun _ => Fixed.pure _)
      | vfs_mount path fstype =>
        unfold Call.run
        rw [wp_bind]
        apply wp_mount_table hinv h
      | vfs_unmount path =>
        unfold Call.run
        rw [wp_bind]
        apply wp_mono (wp_unmount_table hinv h hcond)
        . intro _ s1 hs1
          exact ⟨vs, hs1⟩
        . simp
    apply wp_mono (wp_conj hkeeps (wp_mono htable (fun _ _ hs => hs) (by simp)))
    . intro a s1 hs1
      exact ⟨hs1.1.1, hs1.2⟩
    . simp

end Calls

theorem Inv.empty (junk : Junk) : Inv (.empty junk) where
  linked := by simp [St.empty]
  counted := by simp [St.empty]
  mountpoint := by simp [St.empty]
  rootvn := by simp [St.empty]

theorem Table.empty (junk : Junk) : Table none (.empty junk) [] where
  list := SList.nil
  nodup := List.nodup_nil
  mem := by simp [St.empty]
  lt := by simp
  root := by simp [St.empty]
  back := by simp [St.empty]

/--
As long as nothing is unmounted, the list has every mounted file system exactly once, unless the vnode of
a mountpoint has been freed.
-/
theorem KCall.mountTable_iff {junk : Junk} {s : St} (h : Reached Lasting junk s)
    : MountTable s ↔ ∀ v mp, (s.vfss v).mountpoint = .ref mp → (s.vnodes mp).freed = false := by
  have hboth : Inv s ∧ ∃ vs, Table none s vs := by
    induction h with
    | empty => exact ⟨Inv.empty junk, [], Table.empty junk⟩
    | memory _ junk' ih =>
      rcases ih with ⟨hinv, vs, hvs⟩
      exact ⟨hinv.memory junk', vs, hvs.list, hvs.nodup, hvs.mem, hvs.lt, hvs.root, hvs.back⟩
    | step _ hcond hrun ih =>
      rcases ih with ⟨hinv, vs, hvs⟩
      apply (wp_of_ok hrun).mp (KCall.wp_run hinv hvs hcond)
  rcases hboth with ⟨_, vs, hvs⟩
  apply hvs.agrees_iff

@[irreducible]
def rootMounted : St :=
  after (KCall.init_rootvn.run 1)
    (after ((KCall.vfs_mount_root "ramfs".toList).run 1) (.empty zeroed))

theorem rootMounted_reached {C : St → Nat → KCall → Prop}
    (hroot : C (.empty zeroed) 1 (.vfs_mount_root "ramfs".toList))
    (hinit : C (after ((KCall.vfs_mount_root "ramfs".toList).run 1) (.empty zeroed)) 1 .init_rootvn)
    : KCall.Reached C zeroed rootMounted := by
  have hempty : KCall.Reached C zeroed (.empty zeroed) := .empty
  have hmount := hempty.after hroot (by decide +kernel)
  unfold rootMounted
  apply hmount.after hinit
  decide +kernel

theorem rootMounted_orderly : KCall.Reached KCall.Orderly zeroed rootMounted := by
  apply rootMounted_reached
  . trivial
  . trivial

theorem rootMounted_eq : rootMounted = booted zeroed := by
  have hboot : boot (.empty zeroed) = .ok () rootMounted := by
    unfold rootMounted
    rfl
  exact (wp_of_ok hboot).mp (wp_boot zeroed)

@[irreducible]
def coveredRoot : St :=
  after ((KCall.call (.vfs_mount "/".toList "ramfs".toList)).run 1) rootMounted

theorem coveredRoot_reached {C : St → Nat → KCall → Prop} (h : KCall.Reached C zeroed rootMounted)
    (hmount : C rootMounted 1 (.call (.vfs_mount "/".toList "ramfs".toList)))
    : KCall.Reached C zeroed coveredRoot := by
  unfold coveredRoot
  apply h.after hmount
  decide +kernel

theorem KCall.mountTable_iff_coveredRoot
    : MountTable coveredRoot ↔
        ∀ v mp, (coveredRoot.vfss v).mountpoint = .ref mp → (coveredRoot.vnodes mp).freed = false := by
  apply mountTable_iff
  apply coveredRoot_reached
  . apply rootMounted_reached
    . intro _
      rfl
    . trivial
  . trivial

@[irreducible]
def uncoveredRoot : St :=
  after ((KCall.call (.vfs_unmount "/.".toList)).run 1) coveredRoot

theorem KCall.not_mountTable_uncoveredRoot
    : KCall.Reached (fun _ _ _ => True) zeroed uncoveredRoot ∧ ¬ MountTable uncoveredRoot := by
  constructor
  . have hroot := rootMounted_reached (C := fun _ _ _ => True) trivial trivial
    have hcovered := coveredRoot_reached hroot trivial
    unfold uncoveredRoot
    apply hcovered.after trivial
    decide +kernel
  . rintro ⟨vs, hlist, _, hmem⟩
    have hhead : uncoveredRoot.mountedlist = some 1 := by decide +kernel
    have hvs : 1 ∈ vs := by
      rw [hhead] at hlist
      have hvisit := hlist.visits_iff.mp (SList.Visits.head (by decide))
      simpa [vfsAddr] using hvisit
    cases (hmem 1).mp hvs with
    | inl hroot => exact absurd hroot (by decide +kernel)
    | inr hpoint =>
      rcases hpoint with ⟨mp, hmp, _, hhere⟩
      have hmp0 : (uncoveredRoot.vfss 1).mountpoint = .ref 0 := by decide +kernel
      rw [hmp0, Ptr.ref.injEq] at hmp
      rw [← hmp] at hhere
      exact absurd hhere (by decide +kernel)

end Fs
end Franklin
