import Franklin.Fs.Lemmas.Passed

/-!
This module contains that a call gives back all locks, and when it waits for one that it has taken itself.
-/

namespace Franklin
namespace Fs

/--
The call does not wait for ever, and all locks are free when it returns.
-/
def Call.Releases (st : St) (fuel : Nat) (call : Call) : Prop :=
  wp (call.run fuel) (fun _ s => Locked false [] [] s) (fun e _ => e ≠ .hang) st

/--
The new name of a `vfs_link` does not exist yet, and the walk to it does not come by the target, which is
locked then.
-/
def Call.Avoids (st : St) (fuel : Nat) : Call → Prop
  | vfs_link path target => ∀ V s0, Linkable st target fuel V → vfs_link.find target fuel st = .ok () s0 →
    (∃ L name len, resolve s0 path fuel = some (.missing L name len)) ∧
      ∀ v, (s0.vnodes v).lock = true → .old v ∉ Resolve.trail s0 fuel path none
  | _ => True

def Call.Ends (st : St) (fuel : Nat) (call : Call) : Prop :=
  ∀ e s, call.run fuel st = .error e s → e = .hang

section Walk

variable {st s : St} {own : Nat → Nat} {list : Bool} {vt vl nl : List Nat} {held : List (Nat × Loc)} {path : Name}
  {fuel : Nat} {α : Type}

theorem Walked.locked (hl : Locked list vt [] st) (h : Walked st s held vl nl)
    (hbeyond : ∀ v, s.nextVnode ≤ v → (s.vnodes v).freed = true) : Locked list (vt ++ vl) nl s where
  list hlock := by
    rw [h.same.vfslistLock] at hlock
    apply hl.list hlock
  vnode v hfreed hlock := by
    by_cases hlt : v < st.nextVnode
    . have hfreed' := hfreed
      rw [h.old v hlt] at hfreed'
      rw [List.mem_append]
      apply h.lock_of_locked hl hlt hfreed' hlock
    . by_cases hrefs : refs held v = 0
      . by_cases hlt' : v < s.nextVnode
        . rw [h.dropped v (by omega) hlt' hrefs] at hfreed
          cases hfreed
        . rw [hbeyond v (by omega)] at hfreed
          cases hfreed
      . rcases refs_pos_iff.mp (Nat.pos_of_ne_zero hrefs) with ⟨L, hheld⟩
        rw [h.lock_eq hheld, decide_eq_true_eq] at hlock
        exact List.mem_append_right _ hlock
  ramnode n hlock := h.ramlock_of_locked hl hlock

variable (h : Sown own st)

include h

theorem wp_namei_locked (hl : Locked list vt [] st) (ht : ∀ v ∈ vt, (st.vnodes v).type ≠ .VDIR)
    : wp (namei path fuel) (fun _ s => Locked list vt [] s)
        (Stuck (∃ w ∈ vt, .old w ∈ Resolve.trail st fuel path none)) st := by
  apply wp_mono (wp_conj (wp_namei_trail hl ht h.grove path fuel)
    (wp_mono (h.wp_namei path fuel) (fun _ _ h => h) (by simp)))
  . intro r s hs
    rcases hs with ⟨_, ⟨hown, _⟩, hsym, e, _, _, hended⟩
    have hlocked : ∀ {held}, Walked st s held [] [] → Locked list vt [] s := by
      intro held hw
      have := hw.locked hl hown.grove.beyond
      rwa [List.append_nil] at this
    cases hended with
    | found d v D V name len hw => apply hlocked hw
    | here d D name len hw => apply hlocked hw
    | tail d v D V name len hw => apply hlocked hw
    | missing d D name len hw => apply hlocked hw
    | notdir d D vn name len hw => apply hlocked hw
    | link d v D V name len hw => cases hsym
  . intro e s he
    apply he

theorem wp_namei_free (hl : Locked list [] [] st)
    : wp (namei path fuel) (fun _ s => Locked list [] [] s) (Stuck False) st := by
  apply wp_mono (wp_namei_locked h hl (by simp))
  . intro r s hs
    apply hs
  . intro e s he
    refine Stuck.mono he ?_
    rintro ⟨w, hw, _⟩
    cases hw

theorem wp_walk_locked {f : Code × Nameidata → Prog α} (hl : Locked list [] [] st)
    (hf : ∀ r, Locks [] [] [] [] (f r))
    : wp (namei path fuel >>= f) (fun _ s => Locked list [] [] s) (Stuck False) st := by
  apply wp_bind_of (wp_namei_free h hl)
  intro r s hs
  apply hf r list s hs

end Walk

section Calls

variable {α : Type} {v w : Nat} {vn : Option Nat}

theorem Locks.vput_free : Locks [] [] [] [] (vput v) :=
  vfs_close (by simp)

theorem Locks.vputOpt_free : Locks [] [] [] [] (Fs.vputOpt vn) :=
  vputOpt vn (by simp)

theorem Locks.closeFailed (a : α) : Locks [] [] [] [] (do
    Fs.vputOpt vn
    vput v
    Pure.pure a) := by
  apply vputOpt_free.bind
  intro _
  apply vput_free.bind
  intro _
  apply pure

theorem Locks.closeOther (a : α) : Locks [] [] [] [] (do
    vput v
    Fs.vputOpt vn
    Pure.pure a) := by
  apply vput_free.bind
  intro _
  apply vputOpt_free.bind
  intro _
  apply pure

theorem Locks.within {β : Type} {x : Prog β} {f : β → α} (hx : Locks [v] [] [v] [] x) : Locks [] [] [] [] (do
    Fs.acquire v
    let r ← x
    vrele v
    Pure.pure (f r)) := by
  apply (acquire (by simp)).bind
  intro _
  apply hx.bind
  intro r
  have hput : Locks [v] [] [] [] (vrele v) := vfs_close (by simp)
  apply hput.bind
  intro _
  apply pure

theorem Locks.closeBoth (a : α) : Locks [v, w] [] [] [] (do
    vput v
    vrele w
    Pure.pure a) := by
  have hput : Locks [v, w] [] [w] [] (vput v) := vfs_close (by simp)
  have hrele : Locks [w] [] [] [] (vrele w) := vfs_close (by simp)
  apply hput.bind
  intro _
  apply hrele.bind
  intro _
  apply pure

theorem Locks.closeLocked (a : α) : Locks [v] [] [] [] (do
    vrele v
    Pure.pure a) := by
  have hrele : Locks [v] [] [] [] (vrele v) := vfs_close (by simp)
  apply hrele.bind
  intro _
  apply pure

variable {st : St} {own : Nat → Nat} {list : Bool} {path target : Name} {fuel : Nat} (h : Sown own st)
  (hl : Locked list [] [] st)

include h hl

theorem vfs_symlink_locked
    : wp (vfs_symlink path target fuel) (fun _ s => Locked list [] [] s) (Stuck False) st := by
  apply wp_walk_locked h hl
  intro r
  apply Locks.ite
  . apply Locks.closeOther
  . apply Locks.within
    apply (Locks.ramfs_alloc_file _ _ _ _ _).bind
    intro _
    apply Locks.pure

theorem vfs_open_locked (type : VType) (create : Bool)
    : wp (vfs_open path type create fuel) (fun _ s => Locked list [] [] s) (Stuck False) st := by
  apply wp_walk_locked h hl
  intro r
  apply Locks.ite
  . apply Locks.ite
    . apply Locks.closeOther
    . apply Locks.within
      apply Locks.ramfs_alloc_file
  . apply Locks.vput_free.bind
    intro _
    apply Locks.pure

theorem vfs_mkdir_locked
    : wp (vfs_mkdir path fuel) (fun _ s => Locked list [] [] s) (Stuck False) st := by
  unfold vfs_mkdir
  split
  . apply hl
  . apply wp_walk_locked h hl
    intro r
    apply Locks.ite
    . apply Locks.closeOther
    . have hput : Locks [r.2.vdir] [] [] [] (vrele r.2.vdir) := Locks.vfs_close (by simp)
      apply (Locks.acquire (by simp)).bind
      intro _
      apply Locks.getVnode.bind
      intro vd
      apply Locks.ite
      . apply hput.bind
        intro _
        apply Locks.pure
      . apply (Locks.ramfs_alloc_file _ _ _ _ _).bind
        intro r'
        apply hput.bind
        intro _
        apply Locks.pure

theorem vfs_unlink_locked
    : wp (vfs_unlink path fuel) (fun _ s => Locked list [] [] s) (Stuck False) st := by
  apply wp_walk_locked h hl
  rintro ⟨error, nd⟩
  cases error with
  | some e => apply Locks.closeFailed
  | none =>
    cases hvn : nd.vn with
    | none =>
      dsimp only
      rw [hvn]
      exact Locks.throw (by simp)
    | some vn =>
      dsimp only
      rw [hvn]
      apply (Locks.acquire (by simp)).bind
      intro _
      have hremove : Locks [nd.vdir, vn] [] [] [] (do
          let v ← getVnode vn
          let error ← if v.vroot then pure (some .EBUSY) else ramfs_remove nd.vdir vn nd.name
          vput nd.vdir
          vrele vn
          pure error) := by
        apply Locks.getVnode.bind
        intro v
        apply Locks.ite
        . apply Locks.closeBoth
        . apply (Locks.ramfs_remove _ _ _).bind
          intro error
          apply Locks.closeBoth
      split
      . next hne =>
        apply (Locks.acquire (by simpa using hne)).bind
        intro _
        apply hremove
      . exact hremove.mono (by simp)

theorem vfs_rmdir_locked
    : wp (vfs_rmdir path fuel) (fun _ s => Locked list [] [] s) (Stuck False) st := by
  apply wp_walk_locked h hl
  rintro ⟨error, nd⟩
  cases error with
  | some e => apply Locks.closeFailed
  | none =>
    cases hvn : nd.vn with
    | none =>
      dsimp only
      rw [hvn]
      exact Locks.throw (by simp)
    | some vdir =>
      dsimp only
      rw [hvn]
      apply (Locks.acquire (by simp)).bind
      intro _
      split
      . exact (Locks.closeBoth _).mono (by simp)
      . next hne =>
        have hclose : ∀ error : Code, Locks [nd.vdir, vdir] [] [] [] (do
            vput nd.vdir
            vrele vdir
            pure error) := by
          intro error
          apply Locks.closeBoth
        apply (Locks.acquire (by simpa using hne)).bind
        intro _
        apply Locks.getVnode.bind
        intro v
        apply Locks.ite (hclose _)
        apply Locks.ite (hclose _)
        apply (Locks.ramfs_rmdir _ _ _ _).bind
        intro error
        apply hclose

theorem vfs_unmount_locked
    : wp (vfs_unmount path fuel) (fun _ s => Locked list [] [] s) (Stuck False) st := by
  apply wp_walk_locked h hl
  rintro ⟨error, n⟩
  cases error with
  | some e => apply Locks.closeFailed
  | none =>
    cases hvn : n.vn with
    | none =>
      dsimp only
      rw [hvn]
      exact Locks.throw (by simp)
    | some vn =>
      dsimp only
      rw [hvn]
      apply Locks.getVnode.bind
      intro v
      apply Locks.getVfs.bind
      intro vfs
      apply (Locks.acquire (by simp)).bind
      intro _
      apply Locks.ite
      . apply Locks.closeLocked
      . apply Locks.ite
        . apply Locks.closeLocked
        . have hrele : Locks [vn] [] [] [] (vrele vn) := Locks.vfs_close (by simp)
          apply hrele.bind
          intro _
          apply (Locks.ramfs_unmount _).bind
          intro _
          cases vfs.mountpoint with
          | null => exact Locks.throw (by simp)
          | wild => exact Locks.throw (by simp)
          | ref mntvnode =>
            apply (Locks.acquire (by simp)).bind
            intro _
            have hset : Locks [mntvnode] [] [mntvnode] []
                (setVnode mntvnode fun vn => { vn with mountedhere := none }) :=
              Locks.setVnode (by simp) (by simp)
            apply hset.bind
            intro _
            have hrelease : Locks [mntvnode] [] [] [] (release mntvnode) := Locks.release (by simp)
            apply hrelease.bind
            intro _
            apply Locks.vput_free.bind
            intro _
            apply Locks.pure

end Calls

section Mount

variable {α : Type} {vl nl : List Nat} {s : St} {vfs v : Nat}

theorem wp_releaseList_locked (hl : Locked true vl nl s) (a : α)
    : wp (do
        releaseList
        pure a) (fun _ s' => Locked false vl nl s') (Stuck False) s := by
  rw [wp_bind, wp_releaseList, wp_pure]
  exact ⟨by simp, hl.vnode, hl.ramnode⟩

theorem wp_finish_locked (hl : Locked true [] [] s)
    : wp (vfs_mount.finish vfs) (fun _ s' => Locked false [] [] s') (Stuck False) s := by
  unfold vfs_mount.finish
  rw [wp_bind, wp_getSt, wp_bind, wp_setVfs]
  apply wp_bind.mpr
  rw [wp_update]
  have hl' : Locked true [] []
      { s with
        vfss := Function.update s.vfss vfs { s.vfss vfs with next := s.mountedlist }
        mountedlist := some vfs } :=
    ⟨hl.list, hl.vnode, hl.ramnode⟩
  apply wp_bind_of (Locks.ramfs_mount vfs true _ hl')
  intro error s1 hs1
  apply wp_releaseList_locked hs1

theorem wp_fail2_locked (error : Errno) (n : Nameidata) (hl : Locked true vl [] s) (hvl : ∀ w ∈ vl, n.vn = some w)
    : wp (vfs_mount.fail2 error n) (fun _ s' => Locked false [] [] s') (Stuck False) s := by
  have hput : Locks vl [] [] [] (vputOpt n.vn) := by
    apply Locks.vputOpt
    intro w hw
    exact Or.inl (hvl w hw)
  unfold vfs_mount.fail2
  apply wp_bind_of (hput true s hl)
  intro _ s1 hs1
  apply wp_bind_of (Locks.vput_free true s1 hs1)
  intro _ s2 hs2
  apply wp_releaseList_locked hs2

variable {st : St} {own : Nat → Nat} {path fstype : Name} {fuel : Nat}

theorem vfs_mount_locked (h : Sown own st) (hl : Locked false [] [] st)
    : wp (vfs_mount (some path) fstype fuel) (fun _ s => Locked false [] [] s) (Stuck False) st := by
  have hfree : st.vfslistLock = false := by
    by_contra hlock
    rw [Bool.not_eq_false] at hlock
    cases hl.list hlock
  unfold vfs_mount
  rw [wp_bind, wp_acquireList]
  refine ⟨by simp [hfree], ?_⟩
  intro _
  have hs : Sown own { st with vfslistLock := true } := (Settled.setList true h).1
  have hl' : Locked true [] [] { st with vfslistLock := true } := ⟨by simp, hl.vnode, hl.ramnode⟩
  generalize { st with vfslistLock := true } = s0 at hs hl'
  split
  . apply wp_releaseList_locked hl'
  . have hnew : wp newVfs (fun _ s1 => Locked true [] [] s1) (Stuck False) s0 := by
      rw [wp_newVfs]
      exact ⟨hl'.list, hl'.vnode, hl'.ramnode⟩
    apply wp_bind_of (wp_conj hnew hs.wp_newVfs)
    intro vfs s1 hs1
    rcases hs1 with ⟨hl1, hs1, _⟩
    . apply wp_bind_of (wp_namei_free hs1 hl1)
      rintro ⟨error, n⟩ s2 hl2
      cases error with
      | some e => apply wp_fail2_locked e n hl2 (by simp)
      | none =>
        cases hvn : n.vn with
        | none =>
          dsimp only
          rw [hvn]
          exact wp_throw_stuck (by simp)
        | some mntvnode =>
          dsimp only
          rw [hvn]
          have hacquire : Locks [] [] [mntvnode] [] (acquire mntvnode) := Locks.acquire (by simp)
          apply wp_bind_of (hacquire true s2 hl2)
          intro _ s3 hl3
          apply wp_bind_of (Locks.getVnode true s3 hl3)
          intro mnt s4 hl4
          have hfail : ∀ error,
              wp (vfs_mount.fail2 error n) (fun _ s' => Locked false [] [] s') (Stuck False) s4 := by
            intro error
            apply wp_fail2_locked error n hl4
            intro w hw
            rw [hvn, List.mem_singleton.mp hw]
          split
          . apply hfail
          . split
            . apply hfail
            . have hset : Locks [mntvnode] [] [mntvnode] []
                  (setVnode mntvnode fun vn => { vn with mountedhere := some vfs }) :=
                Locks.setVnode (by simp) (by simp)
              have hrele : Locks [mntvnode] [] [] [] (vrele mntvnode) := Locks.vfs_close (by simp)
              apply wp_bind_of (Locks.setVfs _ true s4 hl4)
              intro _ s5 hl5
              apply wp_bind_of (hset true s5 hl5)
              intro _ s6 hl6
              apply wp_bind_of (hrele true s6 hl6)
              intro _ s7 hl7
              apply wp_bind_of (Locks.vput_free true s7 hl7)
              intro _ s8 hl8
              apply wp_finish_locked hl8

end Mount

section Link

variable {st s s0 : St} {own : Nat → Nat} {list : Bool} {path target : Name} {fuel vn : Nat} {V : Loc}

theorem wp_acquire_type {v : Nat}
    : wp (acquire v) (fun _ s' => (s'.vnodes v).type = (s.vnodes v).type) (fun _ _ => True) s := by
  unfold acquire
  rw [wp_bind, wp_getVnode]
  refine ⟨fun _ => trivial, ?_⟩
  intro _
  split
  . trivial
  . rw [wp_setVnode]
    dsimp only
    rw [Function.update_self]

theorem vfs_link_cases (h : Sown own st) (hl : Locked list [] [] st) (target : Name) (fuel : Nat)
    : (∀ V s0, Linkable st target fuel V → vfs_link.find target fuel st ≠ .ok () s0) ∧
          (∀ path, wp (vfs_link path target fuel) (fun _ s => Locked list [] [] s) (Stuck False) st) ∨
        ∃ V vn s0, Linkable st target fuel V ∧ vfs_link.find target fuel st = .ok () s0 ∧ Sown own s0 ∧
          Walked st s0 [(vn, V)] [vn] [] ∧ ∀ path, vfs_link path target fuel st = vfs_link.rest path vn fuel s0 := by
  have hinv := h.grove.forest.inv
  have hnamei : wp (namei target fuel) (fun _ s => Locked list [] [] s) (Stuck False) st := wp_namei_free h hl
  cases hrun : namei target fuel st with
  | error e s =>
    left
    rw [wp_of_error hrun] at hnamei
    constructor
    . intro V s0 _ hfind
      unfold vfs_link.find at hfind
      rw [bind_of_error hrun] at hfind
      cases hfind
    . intro path
      unfold vfs_link
      rw [wp_bind, wp_of_error hrun]
      apply hnamei
  | ok r s1 =>
    rcases r with ⟨error, nd⟩
    have hs1 := h.wp_namei target fuel
    rw [wp_of_ok hrun] at hs1 hnamei
    rcases hs1 with ⟨⟨hown1, _⟩, hsym, e, hresolve, hplaced, hended⟩
    cases error with
    | some code =>
      left
      constructor
      . rintro V s0 ⟨e', he', hV, _⟩ _
        rw [hresolve, Option.some.injEq] at he'
        subst he'
        have := hended.error_iff.mpr (by simp [hV])
        cases this
      . intro path
        unfold vfs_link
        rw [wp_bind, wp_of_ok hrun]
        apply hnamei
    | none =>
      rcases hended.taken hinv with ⟨vn, V, hvn, hV, _, htype, _⟩
      change nd.vn = some vn at hvn
      by_cases hdir : V.type st = .VDIR
      . refine Or.inl ⟨?_, ?_⟩
        . rintro V' s0 ⟨e', he', hV', hleaf⟩ _
          rw [hresolve, Option.some.injEq] at he'
          subst he'
          rw [hV, Option.some.injEq] at hV'
          exact hleaf (hV' ▸ hdir)
        intro path
        unfold vfs_link
        rw [wp_bind, wp_of_ok hrun]
        dsimp only
        rw [hvn]
        have hacquire : Locks [] [] [vn] [] (acquire vn) := Locks.acquire (by simp)
        apply wp_bind_of (wp_conj (hacquire list s1 hnamei) wp_acquire_type)
        intro _ s2 hs2
        rw [wp_bind, wp_getVnode]
        refine ⟨fun _ => .of_ne (by simp), ?_⟩
        intro _
        rw [if_pos (by rw [hs2.2, htype, hdir])]
        have hput : Locks [vn] [] [vn] [] (vput nd.vdir) := Locks.vfs_close (by simp)
        apply wp_bind_of (hput list s2 hs2.1)
        intro _ s3 hs3
        apply Locks.closeLocked (some Errno.EISDIR) list s3 hs3
      . have hlink : Linkable st target fuel V := ⟨e, hresolve, hV, hdir⟩
        rcases hlink.found h.grove with ⟨D, hfound, hDdir⟩
        rw [hresolve, Option.some.injEq] at hfound
        subst hfound
        cases hended with
        | found d v D V name len hw =>
          rcases link_of_found h hown1 hw hDdir hdir hrun with ⟨s2, hs2, herror, hfind⟩
          cases hput : vput d s2 with
          | error e s3 =>
            refine Or.inl ⟨?_, ?_⟩
            . intro V' s0 _ hok
              rw [(herror e s3 hput).1] at hok
              cases hok
            intro path
            have hstuck : wp (vput d) (fun _ _ => True) (Stuck False) s2 := hs2.stuck_vput hl
            rw [wp_of_error hput] at hstuck
            rw [wp_of_error ((herror e s3 hput).2 path)]
            apply hstuck
          | ok _ s0 =>
            right
            exact ⟨V, v, s0, hlink, hfind s0 hput⟩

section Rest

variable (hl : Locked list [] [] st) (hown : Sown own s0) (hw : Walked st s0 [(vn, V)] [vn] [])
  (hleaf : V.type st ≠ .VDIR)

include hl hown hw hleaf

theorem wp_rest_namei
    : wp (namei path fuel) (fun _ s => Locked list [vn] [] s)
        (Stuck (.old vn ∈ Resolve.trail s0 fuel path none)) s0 := by
  have hl0 := hw.locked hl hown.grove.beyond
  have htype : (s0.vnodes vn).type = V.type st := (hw.members List.mem_cons_self).2.1
  apply wp_mono (wp_namei_locked hown hl0 (by simp [htype, hleaf]))
  . intro r s hs
    apply hs
  . intro e s he
    refine Stuck.mono he ?_
    rintro ⟨w, hwvn, hmem⟩
    rw [List.nil_append, List.mem_singleton] at hwvn
    rwa [hwvn] at hmem

theorem wp_rest_missing {nd : Nameidata} (hrun : namei path fuel s0 = .ok (some .ENOENT, nd) s)
    : wp (vfs_link.rest path vn fuel) (fun _ s' => Locked list [] [] s') (Stuck False) s0 := by
  have htype : (s0.vnodes vn).type = V.type st := (hw.members List.mem_cons_self).2.1
  have hls : wp (namei path fuel) (fun _ s => Locked list [vn] [] s) _ s0 := wp_rest_namei hl hown hw hleaf
  have hs := hown.wp_namei path fuel
  rw [wp_of_ok hrun] at hs hls
  rcases hs with ⟨_, _, e, _, hplaced, hended⟩
  -- the directory of the new name is another vnode
  have hne : nd.vdir ≠ vn := by
    cases hended with
    | missing d D name len hd =>
      cases hplaced with
      | missing hD hdir =>
        intro heq
        dsimp only at heq
        have hlt := hw.lt_nextVnode List.mem_cons_self
        have hmember := (hd.members List.mem_cons_self).2.1
        rw [heq, hd.old vn hlt] at hmember
        dsimp only at hmember
        rw [htype, hdir] at hmember
        exact hleaf hmember
  unfold vfs_link.rest
  rw [wp_bind, wp_of_ok hrun]
  dsimp only
  rw [if_neg (by simp)]
  have htail : Locks [vn] [] [] [] (do
      acquire nd.vdir
      let error ← ramfs_link nd.vdir vn nd.name
      release nd.vdir
      vput nd.vdir
      vrele vn
      pure error) := by
    have hrelease : Locks [nd.vdir, vn] [] [vn] [] (release nd.vdir) := Locks.release (by simp)
    have hput : Locks [vn] [] [vn] [] (vput nd.vdir) := Locks.vfs_close (by simp)
    apply (Locks.acquire (by simpa using hne)).bind
    intro _
    apply (Locks.ramfs_link _ _ _).bind
    intro error
    apply hrelease.bind
    intro _
    apply hput.bind
    intro _
    apply Locks.closeLocked
  apply htail list s hls

omit hl hleaf in
theorem rest_other {error : Code} {nd : Nameidata} (hrun : namei path fuel s0 = .ok (error, nd) s)
    (herror : error ≠ some .ENOENT) : vfs_link.rest path vn fuel s0 = .ok error s ∧ ¬ Locked list [] [] s := by
  have hs := hown.wp_namei path fuel
  rw [wp_of_ok hrun] at hs
  rcases hs with ⟨_, hsym, e, _, _, hended⟩
  have hwalked : ∃ held, Walked s0 s held [] [] := by
    cases hended with
    | found d v D V name len hd => exact ⟨_, hd⟩
    | here d D name len hd => exact ⟨_, hd⟩
    | tail d v D V name len hd => exact ⟨_, hd⟩
    | missing d D name len hd => exact ⟨_, hd⟩
    | notdir d D v name len hd => exact ⟨_, hd⟩
    | link d v D V name len hd => cases hsym
  constructor
  . unfold vfs_link.rest
    rw [bind_of_ok hrun]
    dsimp only
    rw [if_pos herror]
    rfl
  . intro hfree
    rcases hwalked with ⟨held, hd⟩
    have hlt := hw.lt_nextVnode List.mem_cons_self
    have hlock : (s0.vnodes vn).lock = true := by
      rw [hw.lock_eq List.mem_cons_self]
      simp
    apply List.not_mem_nil (a := vn)
    apply hfree.vnode
    . rw [hd.old vn hlt]
      apply hw.freed_eq_false List.mem_cons_self
    . rw [hd.old vn hlt, hlock]
      rfl

end Rest

end Link

section Releases

variable {st : St} {own : Nat → Nat} {path target : Name} {fuel : Nat} (h : Sown own st)
  (hfree : Locked false [] [] st)

include h hfree

theorem Call.releases_of_ne {call : Call} (hlink : ∀ path target, call ≠ .vfs_link path target)
    : call.Releases st fuel := by
  have hrun : wp (call.run fuel) (fun _ s => Locked false [] [] s) (Stuck False) st := by
    have hcode : ∀ {x : Prog Code}, wp x (fun _ s => Locked false [] [] s) (Stuck False) st →
        wp (do
          let error ← x
          pure (error, (none : Option Nat))) (fun _ s => Locked false [] [] s) (Stuck False) st := by
      intro x hx
      rw [wp_bind]
      apply hx
    cases call with
    | vfs_open path type create => apply vfs_open_locked h hfree
    | vfs_mkdir path => apply vfs_mkdir_locked h hfree
    | vfs_rmdir path => exact hcode (vfs_rmdir_locked h hfree)
    | vfs_unlink path => exact hcode (vfs_unlink_locked h hfree)
    | vfs_link path target => exact absurd rfl (hlink path target)
    | vfs_symlink path target => exact hcode (vfs_symlink_locked h hfree)
    | vfs_mount path fstype => exact hcode (vfs_mount_locked h hfree)
    | vfs_unmount path => exact hcode (vfs_unmount_locked h hfree)
    | vfs_close v =>
      apply Locks.vput_free.bind _ false st hfree
      intro _
      apply Locks.pure
  apply wp_mono hrun
  . intro r s hs
    apply hs
  . intro e s he heq
    exact he heq

omit hfree h in
theorem Call.releases_link
    : (Call.vfs_link path target).Releases st fuel ↔
        wp (Fs.vfs_link path target fuel) (fun _ s => Locked false [] [] s) (Stuck False) st := by
  unfold Call.Releases Call.run
  rw [wp_bind]
  rfl

theorem Call.link_releases_of_avoids (havoids : (Call.vfs_link path target).Avoids st fuel)
    : (Call.vfs_link path target).Releases st fuel := by
  rw [Call.releases_link]
  rcases vfs_link_cases h hfree target fuel with ⟨_, hfree'⟩ | ⟨V, vn, s0, hlink, hfind, hown, hw, hsplit⟩
  . apply hfree' path
  . have hleaf : V.type st ≠ .VDIR := by
      rcases hlink with ⟨_, _, _, hleaf⟩
      apply hleaf
    rcases havoids V s0 hlink hfind with ⟨⟨L, name, len, hresolve⟩, htrail⟩
    have hlock : (s0.vnodes vn).lock = true := by
      rw [hw.lock_eq List.mem_cons_self]
      simp
    have hrest : wp (vfs_link.rest path vn fuel) (fun _ s => Locked false [] [] s) (Stuck False) s0 := by
      have hnamei : wp (namei path fuel) (fun _ s => Locked false [vn] [] s) _ s0 :=
        wp_rest_namei hfree hown hw hleaf
      have hs := hown.wp_namei path fuel
      cases hrun : namei path fuel s0 with
      | error e s =>
        rw [wp_of_error hrun] at hnamei
        unfold vfs_link.rest
        rw [wp_bind, wp_of_error hrun]
        intro heq
        exact htrail vn hlock (hnamei heq)
      | ok r s =>
        rw [wp_of_ok hrun] at hs
        rcases hs with ⟨_, _, e, he, _, hended⟩
        rw [hresolve, Option.some.injEq] at he
        subst he
        cases hended with
        | missing d D name len hd => apply wp_rest_missing hfree hown hw hleaf hrun
    unfold wp at hrest ⊢
    rw [hsplit path]
    apply hrest

theorem Call.link_avoids_of_releases (hends : (Call.vfs_link path target).Ends st fuel)
    (hreleases : (Call.vfs_link path target).Releases st fuel) : (Call.vfs_link path target).Avoids st fuel := by
  rw [Call.releases_link] at hreleases
  intro V s0 hlink hfind
  rcases vfs_link_cases h hfree target fuel with ⟨hnot, _⟩ | ⟨V', vn, s0', hlink', hfind', hown, hw, hsplit⟩
  . exact absurd hfind (hnot V s0 hlink)
  . rw [hfind, EStateM.Result.ok.injEq] at hfind'
    rcases hfind' with ⟨_, rfl⟩
    have hleaf : V'.type st ≠ .VDIR := by
      rcases hlink' with ⟨_, _, _, hleaf⟩
      apply hleaf
    cases hrun : namei path fuel s0 with
    | error e s =>
      have hrun' : Fs.vfs_link path target fuel st = .error e s := by
        rw [hsplit path]
        unfold vfs_link.rest
        rw [bind_of_error hrun]
      have hhang : e = .hang := by
        apply hends e s
        unfold Call.run
        dsimp only
        rw [bind_of_error hrun']
      rw [wp_of_error hrun'] at hreleases
      exact (hreleases hhang).elim
    | ok r s =>
      rcases r with ⟨error, nd⟩
      by_cases herror : error = some .ENOENT
      . subst herror
        have hs := hown.wp_namei path fuel
        have htrail := wp_namei_trail (hw.locked hfree hown.grove.beyond) (by
          intro w hwvn
          rw [List.nil_append, List.mem_singleton] at hwvn
          rw [hwvn, (hw.members List.mem_cons_self).2.1]
          apply hleaf) hown.grove path fuel
        rw [wp_of_ok hrun] at hs htrail
        rcases hs with ⟨_, _, e, hresolve, _, hended⟩
        refine ⟨?_, htrail⟩
        cases hended with
        | missing d D name len hd => exact ⟨D, name, len, hresolve⟩
      . rcases rest_other hown hw hrun herror with ⟨hrest, hnot⟩
        rw [← hsplit path] at hrest
        rw [wp_of_ok hrest] at hreleases
        exact absurd hreleases hnot

end Releases

/--
A call from a state in which no lock is held gives all locks back and never waits for one of its own if and only if it
is no `vfs_link` to a name that exists or to one behind its target.
-/
theorem Call.releases_iff {st : St} (h : Grown st) (hfree : Locked false [] [] st) (fuel : Nat) (call : Call)
    : (call.Avoids st fuel → call.Releases st fuel) ∧
        (call.Ends st fuel → call.Releases st fuel → call.Avoids st fuel) := by
  rcases h with ⟨own, h⟩
  by_cases hlink : ∃ path target, call = .vfs_link path target
  . rcases hlink with ⟨path, target, rfl⟩
    exact ⟨Call.link_releases_of_avoids h hfree, Call.link_avoids_of_releases h hfree⟩
  . have hne : ∀ path target, call ≠ .vfs_link path target := by
      intro path target heq
      exact hlink ⟨path, target, heq⟩
    constructor
    . intro _
      apply Call.releases_of_ne h hfree hne
    . intro _ _
      cases call with
      | vfs_link path target => exact absurd rfl (hne path target)
      | _ => trivial

theorem Locked.booted : Locked false [] [] (booted zeroed) where
  list hlock := by
    change (false : Bool) = true at hlock
    cases hlock
  vnode v hfreed hlock := by
    rcases Grown.booted with ⟨own, h⟩
    rw [Quiet.booted.lock v (h.grove.lt_of_alive hfreed) hfreed] at hlock
    cases hlock
  ramnode n hlock := by
    rw [Quiet.booted.ramlock n] at hlock
    cases hlock

@[irreducible]
def targetFile : St :=
  after ((KCall.call (.vfs_open "/f".toList .VREG true)).run 1) rootMounted

theorem targetFile_returns : returns ((KCall.call (.vfs_open "/f".toList .VREG true)).run 1) rootMounted = true := by
  rw [rootMounted_eq]
  rfl

theorem targetFile_run : ∃ r, (Call.vfs_open "/f".toList .VREG true).run 1 (booted zeroed) = .ok r targetFile := by
  unfold targetFile
  rw [← rootMounted_eq]
  exact ok_of_returns targetFile_returns

theorem targetFile_reached : KCall.Reached KCall.Orderly zeroed targetFile := by
  unfold targetFile
  apply rootMounted_orderly.after
  . trivial
  . exact targetFile_returns

theorem Locked.targetFile : Locked false [] [] targetFile := by
  rcases Grown.booted with ⟨own, h⟩
  have hopen : (Call.vfs_open "/f".toList .VREG true).Releases (Fs.booted zeroed) 1 :=
    Call.releases_of_ne h Locked.booted (by simp)
  rcases targetFile_run with ⟨r, hrun⟩
  unfold Call.Releases at hopen
  rwa [wp_of_ok hrun] at hopen

theorem Call.releases_iff_targetFile : (Call.vfs_link "/g".toList "/f".toList).Releases targetFile 1 := by
  apply (Call.releases_iff targetFile_reached.grown Locked.targetFile 1 _).1
  intro V s0 _ hfind
  have hafter : s0 = after (vfs_link.find "/f".toList 1) targetFile := by
    unfold after
    rw [hfind]
  subst hafter
  have hresolve : resolve (after (vfs_link.find "/f".toList 1) targetFile) "/g".toList 1 =
      some (.missing (.old 0) "g".toList 1) := by
    decide +kernel
  have htrail : Resolve.trail (after (vfs_link.find "/f".toList 1) targetFile) 1 "/g".toList none = [] := by
    decide +kernel
  refine ⟨⟨_, _, _, hresolve⟩, ?_⟩
  intro v _
  rw [htrail]
  simp

theorem not_releases_targetFile
    : KCall.Reached KCall.Orderly zeroed targetFile ∧ Locked false [] [] targetFile ∧
        (∃ s, vfs_link "/f".toList "/f".toList 1 targetFile = .error .hang s) ∧
        ¬ (Call.vfs_link "/f".toList "/f".toList).Releases targetFile 1 ∧
        (∃ s, vfs_link "/".toList "/f".toList 1 targetFile = .ok none s ∧
          (s.vnodes 1).freed = false ∧ (s.vnodes 1).lock = true) ∧
        ¬ (Call.vfs_link "/".toList "/f".toList).Releases targetFile 1 := by
  have hhang : stops (vfs_link "/f".toList "/f".toList 1) targetFile .hang = true := by decide +kernel
  have hroot : result (vfs_link "/".toList "/f".toList 1) targetFile = some none := by decide +kernel
  have halive : ((after (vfs_link "/".toList "/f".toList 1) targetFile).vnodes 1).freed = false := by
    decide +kernel
  have hlock : ((after (vfs_link "/".toList "/f".toList 1) targetFile).vnodes 1).lock = true := by
    decide +kernel
  refine ⟨targetFile_reached, Locked.targetFile, ⟨_, error_of_stops hhang⟩, ?_,
    ⟨_, ok_of_result hroot, halive, hlock⟩, ?_⟩
  . rw [Call.releases_link, wp_of_error (error_of_stops hhang)]
    intro h
    exact h rfl
  . rw [Call.releases_link, wp_of_ok (ok_of_result hroot)]
    intro h
    exact absurd (h.vnode 1 halive hlock) List.not_mem_nil

end Fs
end Franklin
