import Franklin.Fs.Lemmas.Tame
import Franklin.Fs.Lemmas.Tree
import Franklin.Fs.Lemmas.Paths

/-!
This module contains the names that calls of `vfs.c` give to new dentries.
-/

namespace Franklin
namespace Fs

/--
The part of `vfs_link` in front of the walk to the new name.
-/
def vfs_link.find (target : Name) (fuel : Nat) : Prog Unit := do
  let (_, nd) ← namei target fuel
  match nd.vn with
  | none => pure ()
  | some vn =>
    acquire vn
    vput nd.vdir

/--
The call adds the name `new` to the directory `d`, in a state `s` with the same directories: the one in
which the call starts, or for `vfs_link` the one in which it has found the file to link.
-/
inductive Call.Creates (st : St) (fuel : Nat) : Call → St → Nat → Name → Prop where
  | vfs_open {path name : Name} {type : VType} {L : Loc} {len : Nat}
    (h : resolve st path fuel = some (.missing L name len))
    : Creates st fuel (.vfs_open path type true) st (L.node st) (strldup name len)
  | vfs_mkdir {path name : Name} {L : Loc} {len : Nat}
    (h : resolve st path fuel = some (.missing L name len))
    : Creates st fuel (.vfs_mkdir path) st (L.node st) (strldup name len)
  | vfs_symlink {path target name : Name} {L : Loc} {len : Nat}
    (h : resolve st path fuel = some (.missing L name len))
    : Creates st fuel (.vfs_symlink path target) st (L.node st) (strldup name len)
  | vfs_link {path target name : Name} {L V : Loc} {len vn : Nat} {vl : List Nat} {s : St}
    (hfind : vfs_link.find target fuel st = .ok () s) (hw : Walked st s [(vn, V)] vl [])
    (h : resolve s path fuel = some (.missing L name len))
    : Creates st fuel (.vfs_link path target) s (L.node s) name

section Calls

variable {st s : St} {fuel : Nat} {J : St → Prop} (hJ : ∀ s s', Shrinks s s' → J s → J s')
  (hinv : Inv st) (hst : J st)

theorem Walked.shrinks {held : List (Nat × Loc)} {vl nl : List Nat} (h : Walked st s held vl nl)
    : Shrinks st s :=
  Shrinks.of_eq h.same.dentry_eq

theorem Ended.walked {e : Exit} {r : Code × Nameidata} (h : Ended st s e r)
    : ∃ held vl, Walked st s held vl [] := by
  cases h with
  | found d v D V name len h => exact ⟨_, _, h⟩
  | here d D name len h => exact ⟨_, _, h⟩
  | tail d v D V name len h => exact ⟨_, _, h⟩
  | link d v D V name len h => exact ⟨_, _, h⟩
  | missing d D name len h => exact ⟨_, _, h⟩
  | notdir d D vn name len h => exact ⟨_, _, h⟩

include hJ hinv hst

theorem wp_tame {α : Type} {x : Prog α} {e : Exit} {r : Code × Nameidata} (h : Ended st s e r)
    (hx : Tame x) : wp x (fun _ s' => Inv s' ∧ J s') (fun _ _ => True) s := by
  rcases h.walked with ⟨held, vl, hw⟩
  apply wp_mono (hx s (hw.inv hinv))
  . intro a s1 hs1
    exact ⟨hs1.1, hJ st s1 (hw.shrinks.trans hs1.2) hst⟩
  . intro e s1 he
    apply he

omit hJ hst in
theorem wp_alloc_in {α : Type} {f : Code × Option Nat → Prog α} {d len : Nat} {L : Loc}
    {name : Name} {type : VType} {target : Option Name} (h : Walked st s [(d, L)] [d] [])
    (hadd : ∀ s', Edits (L.node st) (strldup name len) st s' → J s') (hf : ∀ r, Tame (f r))
    : wp (ramfs_alloc_file d name len type target >>= f) (fun _ s' => Inv s' ∧ J s')
        (fun _ _ => True) s := by
  rcases h.members List.mem_cons_self with ⟨hdata, _⟩
  apply wp_bind_of (wp_alloc_file_edits (h.inv hinv))
  intro r s1 hs1
  rw [hdata] at hs1
  apply wp_mono (hf r s1 hs1.1)
  . intro a s2 hs2
    exact ⟨hs2.1, hadd s2 ((hs1.2.after h.shrinks).before hs2.2)⟩
  . intro e s2 he
    apply he

theorem wp_after_namei {α : Type} {path : Name} {f : Code × Nameidata → Prog α}
    (hmissing : ∀ d L name len s, resolve st path fuel = some (.missing L name len) →
      Walked st s [(d, L)] [] [] →
      wp (f (some .ENOENT, ⟨d, none, name, len, false⟩)) (fun _ s' => Inv s' ∧ J s')
        (fun _ _ => True) s)
    (hf : ∀ r, r.1 ≠ some .ENOENT → Tame (f r))
    : wp (namei path fuel >>= f) (fun _ s' => Inv s' ∧ J s') (fun _ _ => True) st := by
  apply wp_bind_mono (wp_namei hinv path fuel)
  . intro e s1 _
    trivial
  . intro r s1 hs1
    rcases hs1 with ⟨e, hresolve, hended, _⟩
    cases hended with
    | missing d D name len h => apply hmissing d D name len s1 hresolve h
    | found d v D V name len h => apply wp_tame hJ hinv hst (.found d v D V name len h) (hf _ (by simp))
    | here d D name len h => apply wp_tame hJ hinv hst (.here d D name len h) (hf _ (by simp))
    | tail d v D V name len h => apply wp_tame hJ hinv hst (.tail d v D V name len h) (hf _ (by simp))
    | link d v D V name len h => apply wp_tame hJ hinv hst (.link d v D V name len h) (hf _ (by simp))
    | notdir d D vn name len h => apply wp_tame hJ hinv hst (.notdir d D vn name len h) (hf _ (by simp))

theorem wp_tame_namei {α : Type} {path : Name} {f : Code × Nameidata → Prog α} (hf : ∀ r, Tame (f r))
    : wp (namei path fuel >>= f) (fun _ s' => Inv s' ∧ J s') (fun _ _ => True) st := by
  apply wp_after_namei hJ hinv hst
  . intro d L name len s _ h
    apply wp_tame hJ hinv hst (.missing d L name len h) (hf _)
  . intro r _
    apply hf r

theorem wp_vfs_open {path : Name} {type : VType} {create : Bool}
    (hadd : ∀ s1 d new, Call.Creates st fuel (.vfs_open path type create) s1 d new → J s1 →
      ∀ s', Edits d new s1 s' → J s')
    : wp (vfs_open path type create fuel) (fun _ s' => Inv s' ∧ J s') (fun _ _ => True) st := by
  unfold vfs_open
  cases create with
  | false =>
    apply wp_tame_namei hJ hinv hst
    intro r
    apply Tame.vfs_close.bind
    intro _
    apply Tame.pure
  | true =>
    apply wp_after_namei hJ hinv hst
    . intro d L name len s hresolve h
      simp only [ne_eq, not_true_eq_false, if_true, if_false]
      apply wp_bind_mono (h.wp_acquire List.mem_cons_self (by simp))
      . intro e s1 he
        exact he
      . intro _ s1 hs1
        apply wp_alloc_in hinv hs1 (hadd st _ _ (.vfs_open hresolve) hst)
        intro r
        apply Tame.vfs_close.bind
        intro _
        apply Tame.pure
    . intro r hr
      simp only [if_true, hr, ne_eq, not_false_eq_true]
      apply Tame.vfs_close.bind
      intro _
      apply Tame.vputOpt.bind
      intro _
      apply Tame.pure

theorem wp_vfs_mkdir {path : Name}
    (hadd : ∀ s1 d new, Call.Creates st fuel (.vfs_mkdir path) s1 d new → J s1 →
      ∀ s', Edits d new s1 s' → J s')
    : wp (vfs_mkdir path fuel) (fun _ s' => Inv s' ∧ J s') (fun _ _ => True) st := by
  unfold vfs_mkdir
  split
  . exact ⟨hinv, hst⟩
  . apply wp_after_namei hJ hinv hst
    . intro d L name len s hresolve h
      simp only [ne_eq, not_true_eq_false, if_false]
      apply wp_bind_of (h.wp_acquire List.mem_cons_self (by simp))
      intro _ s1 hs1
      rw [wp_bind, hs1.wp_getVnode List.mem_cons_self]
      split
      . have hrest : Tame (do
            vrele d
            pure ((some Errno.ENOTDIR : Code), (none : Option Nat))) := by
          apply Tame.vfs_close.bind
          intro _
          apply Tame.pure
        apply wp_mono (hrest s1 (hs1.inv hinv))
        . intro a s2 hs2
          exact ⟨hs2.1, hJ st s2 (hs1.shrinks.trans hs2.2) hst⟩
        . intro e s2 he
          apply he
      . apply wp_alloc_in hinv hs1 (hadd st _ _ (.vfs_mkdir hresolve) hst)
        intro r
        apply Tame.vfs_close.bind
        intro _
        apply Tame.pure
    . intro r hr
      simp only [hr, ne_eq, not_false_eq_true, if_true]
      apply Tame.vfs_close.bind
      intro _
      apply Tame.vputOpt.bind
      intro _
      apply Tame.pure

theorem wp_vfs_symlink {path target : Name}
    (hadd : ∀ s1 d new, Call.Creates st fuel (.vfs_symlink path target) s1 d new → J s1 →
      ∀ s', Edits d new s1 s' → J s')
    : wp (vfs_symlink path target fuel) (fun _ s' => Inv s' ∧ J s') (fun _ _ => True) st := by
  unfold vfs_symlink ramfs_symlink
  apply wp_after_namei hJ hinv hst
  . intro d L name len s hresolve h
    simp only [ne_eq, not_true_eq_false, if_false, bind_assoc, pure_bind]
    apply wp_bind_of (h.wp_acquire List.mem_cons_self (by simp))
    intro _ s1 hs1
    apply wp_alloc_in hinv hs1 (hadd st _ _ (.vfs_symlink hresolve) hst)
    intro r
    apply Tame.vfs_close.bind
    intro _
    apply Tame.pure
  . intro r hr
    simp only [hr, ne_eq, not_false_eq_true, if_true]
    apply Tame.vfs_close.bind
    intro _
    apply Tame.vputOpt.bind
    intro _
    apply Tame.pure

theorem wp_vfs_unlink {path : Name}
    : wp (vfs_unlink path fuel) (fun _ s' => Inv s' ∧ J s') (fun _ _ => True) st := by
  unfold vfs_unlink
  apply wp_tame_namei hJ hinv hst
  intro r
  rcases r with ⟨error, nd⟩
  dsimp only
  split
  . apply Tame.vputOpt.bind
    intro _
    apply Tame.vfs_close.bind
    intro _
    apply Tame.pure
  . apply Tame.throw
  . next vn _ =>
    have hend : ∀ error : Code, Tame (do
        vput nd.vdir
        vrele vn
        pure error) := by
      intro error
      apply Tame.vfs_close.bind
      intro _
      apply Tame.vfs_close.bind
      intro _
      apply Tame.pure
    have hremove : Tame (do
        let v ← getVnode vn
        if v.vroot then do
          let error ← pure (some Errno.EBUSY)
          vput nd.vdir
          vrele vn
          pure error
        else do
          let error ← ramfs_remove nd.vdir vn nd.name
          vput nd.vdir
          vrele vn
          pure error) := by
      apply Tame.getVnode.bind
      intro v
      apply Tame.ite
      . apply (Tame.pure _).bind hend
      . apply Tame.ramfs_remove.bind hend
    apply Tame.acquire.bind
    intro _
    apply Tame.ite
    . apply Tame.acquire.bind
      intro _
      apply hremove
    . apply hremove

theorem wp_vfs_rmdir {path : Name}
    : wp (vfs_rmdir path fuel) (fun _ s' => Inv s' ∧ J s') (fun _ _ => True) st := by
  unfold vfs_rmdir
  apply wp_tame_namei hJ hinv hst
  intro r
  rcases r with ⟨error, nd⟩
  dsimp only
  split
  . apply Tame.vputOpt.bind
    intro _
    apply Tame.vfs_close.bind
    intro _
    apply Tame.pure
  . apply Tame.throw
  . next vdir _ =>
    have hend : ∀ error : Code, Tame (do
        vput nd.vdir
        vrele vdir
        pure error) := by
      intro error
      apply Tame.vfs_close.bind
      intro _
      apply Tame.vfs_close.bind
      intro _
      apply Tame.pure
    apply Tame.acquire.bind
    intro _
    apply Tame.ite
    . apply (Tame.pure _).bind hend
    . apply Tame.acquire.bind
      intro _
      apply Tame.getVnode.bind
      intro v
      apply Tame.ite
      . apply (Tame.pure _).bind hend
      . apply Tame.ite
        . apply (Tame.pure _).bind hend
        . apply Tame.ramfs_rmdir.bind hend

theorem wp_vfs_unmount {path : Name}
    : wp (vfs_unmount path fuel) (fun _ s' => Inv s' ∧ J s') (fun _ _ => True) st := by
  unfold vfs_unmount
  apply wp_tame_namei hJ hinv hst
  intro r
  rcases r with ⟨error, nd⟩
  dsimp only
  split
  . apply Tame.vputOpt.bind
    intro _
    apply Tame.vfs_close.bind
    intro _
    apply Tame.pure
  . apply Tame.throw
  . apply Tame.getVnode.bind
    intro v
    apply Tame.getVfs.bind
    intro vfs
    have hrele : ∀ vn error, Tame (do
        vrele vn
        pure (some error : Code)) := by
      intro vn error
      apply Tame.vfs_close.bind
      intro _
      apply Tame.pure
    apply Tame.acquire.bind
    intro _
    apply Tame.ite
    . apply hrele
    . apply Tame.ite
      . apply hrele
      . apply Tame.vfs_close.bind
        intro _
        apply Tame.ramfs_unmount.bind
        intro _
        split
        . apply Tame.acquire.bind
          intro _
          apply Tame.bind
          . apply Tame.setVnode
            simp
          . intro _
            apply Tame.release.bind
            intro _
            apply Tame.vfs_close.bind
            intro _
            apply Tame.pure
        . apply Tame.throw

omit hJ hst in
theorem wp_setMountpoint {vfs v : Nat} (hv : v < st.nextVnode)
    : wp (setVfs vfs fun vfs => { vfs with mountpoint := .ref v })
        (fun _ s' => Inv s' ∧ Shrinks st s') (fun _ _ => True) st := by
  rw [wp_setVfs]
  refine ⟨⟨hinv.linked, hinv.counted, ?_, hinv.rootvn⟩, Shrinks.of_eq (fun _ => rfl)⟩
  intro vfs' w hw
  dsimp only at hw
  by_cases heq : vfs' = vfs
  . rw [heq, Function.update_self, Ptr.ref.injEq] at hw
    rw [← hw]
    apply hv
  . rw [Function.update_of_ne heq] at hw
    apply hinv.mountpoint vfs' w hw

omit hJ hinv hst in
theorem Ended.mem_held {e : Exit} {r : Code × Nameidata} {v : Nat} (h : Ended st s e r)
    (herror : r.1 = none) (hsym : r.2.issymlink = false) (hvn : r.2.vn = some v)
    : ∃ held V, e.vn = some V ∧ Walked st s held [] [] ∧ (v, V) ∈ held := by
  cases h with
  | found d w D V name len h =>
    rw [Option.some.injEq] at hvn
    rw [← hvn]
    exact ⟨_, V, rfl, h, List.mem_cons_self⟩
  | here d D name len h =>
    rw [Option.some.injEq] at hvn
    rw [← hvn]
    exact ⟨_, D, rfl, h, List.mem_cons_self⟩
  | tail d w D V name len h =>
    rw [Option.some.injEq] at hvn
    rw [← hvn]
    exact ⟨_, D, rfl, h, List.mem_cons_self⟩
  | link d w D V name len h => simp at hsym
  | missing d D name len h => simp at herror
  | notdir d D vn name len h => simp at herror

theorem wp_vfs_mount {path fstype : Name}
    : wp (vfs_mount (some path) fstype fuel) (fun _ s' => Inv s' ∧ J s') (fun _ _ => True) st := by
  -- the invariant at the end follows from the one at any point that the call has come to
  have hsuffix : ∀ {α : Type} {x : Prog α} {s : St}, Tame x → Inv s → Shrinks st s →
      wp x (fun _ s' => Inv s' ∧ J s') (fun _ _ => True) s := by
    intro α x s hx hs hsub
    apply wp_mono (hx s hs)
    . intro a s1 hs1
      exact ⟨hs1.1, hJ st s1 (hsub.trans hs1.2) hst⟩
    . intro e s1 he
      apply he
  unfold vfs_mount
  apply wp_bind_of (Tame.acquireList st hinv)
  intro _ s1 hs1
  split
  . apply hsuffix (Tame.releaseList.bind fun _ => Tame.pure _) hs1.1 hs1.2
  . apply wp_bind_of (Tame.newVfs s1 hs1.1)
    intro vfs s2 hs2
    have hsub2 := hs1.2.trans hs2.2
    dsimp only
    apply wp_bind_mono (wp_namei hs2.1 path fuel)
    . intro e s3 _
      trivial
    . intro r s3 hs3
      rcases hs3 with ⟨e, _, hended, hsym⟩
      rcases hended.walked with ⟨held, vl, hw⟩
      have hinv3 := hw.inv hs2.1
      have hsub3 := hsub2.trans hw.shrinks
      rcases r with ⟨error, nd⟩
      dsimp only
      split
      . apply hsuffix Tame.fail2 hinv3 hsub3
      . trivial
      . next v hvn =>
        rcases hended.mem_held rfl hsym hvn with ⟨held, V, _, hw, hmem⟩
        apply wp_bind_of (hw.wp_acquire hmem (by simp))
        intro _ s4 hs4
        have hinv4 := hs4.inv hs2.1
        have hsub4 := hsub2.trans hs4.shrinks
        rw [wp_bind, hs4.wp_getVnode hmem]
        split
        . apply hsuffix Tame.fail2 hinv4 hsub4
        . split
          . apply hsuffix Tame.fail2 hinv4 hsub4
          . apply wp_bind_of (wp_setMountpoint hinv4 (hs4.lt_nextVnode hmem))
            intro _ s5 hs5
            apply hsuffix _ hs5.1 (hsub4.trans hs5.2)
            apply Tame.bind
            . apply Tame.setVnode
              simp
            . intro _
              apply Tame.vfs_close.bind
              intro _
              apply Tame.vfs_close.bind
              intro _
              apply Tame.finish

theorem wp_link_name {path target : Name} {vn x : Nat} {X : Loc} {vl : List Nat}
    (hadd : ∀ s1 d new, Call.Creates st fuel (.vfs_link path target) s1 d new → J s1 →
      ∀ s', Edits d new s1 s' → J s')
    (hfind : vfs_link.find target fuel st = .ok () s) (h : Walked st s [(x, X)] vl [])
    : wp (do
          let (error, nd) ← namei path fuel
          if error ≠ some .ENOENT then
            pure error
          else
            acquire nd.vdir
            let error ← ramfs_link nd.vdir vn nd.name
            release nd.vdir
            vput nd.vdir
            vrele vn
            pure error) (fun _ s' => Inv s' ∧ J s') (fun _ _ => True) s := by
  have hinv1 := h.inv hinv
  have hJ1 := hJ st s h.shrinks hst
  apply wp_after_namei hJ hinv1 hJ1
  . intro d L name len s1 hresolve hs1
    simp only [ne_eq, not_true_eq_false, if_false]
    apply wp_bind_of (hs1.wp_acquire List.mem_cons_self (by simp))
    intro _ s2 hs2
    rcases hs2.members List.mem_cons_self with ⟨hdata, _⟩
    apply wp_bind_of (wp_ramfs_link_edits (hs2.inv hinv1))
    intro error s3 hs3
    rw [hdata] at hs3
    have hrest : Tame (do
        release d
        vput d
        vrele vn
        pure error) := by
      apply Tame.release.bind
      intro _
      apply Tame.vfs_close.bind
      intro _
      apply Tame.vfs_close.bind
      intro _
      apply Tame.pure
    apply wp_mono (hrest s3 hs3.1)
    . intro a s4 hs4
      exact ⟨hs4.1, hadd s _ _ (.vfs_link hfind h hresolve) hJ1 s4 ((hs3.2.after hs2.shrinks).before hs4.2)⟩
    . intro e s4 he
      apply he
  . intro r hr
    simp only [hr, ne_eq, not_false_eq_true, if_true]
    apply Tame.pure

theorem wp_vfs_link {path target : Name}
    (hadd : ∀ s1 d new, Call.Creates st fuel (.vfs_link path target) s1 d new → J s1 →
      ∀ s', Edits d new s1 s' → J s')
    : wp (vfs_link path target fuel) (fun _ s' => Inv s' ∧ J s') (fun _ _ => True) st := by
  unfold vfs_link
  apply wp_bind_run (wp_namei hinv target fuel)
  . intro e s1 _
    trivial
  . intro r s1 hnamei hs1
    rcases hs1 with ⟨e, _, hended, hsym⟩
    have hisdir : ∀ vdir vn : Nat, Tame (do
        vput vdir
        vrele vn
        pure (some Errno.EISDIR : Code)) := by
      intro vdir vn
      apply Tame.vfs_close.bind
      intro _
      apply Tame.vfs_close.bind
      intro _
      apply Tame.pure
    have hsuffix : ∀ {α : Type} {x : Prog α} {s : St} {held : List (Nat × Loc)} {vl : List Nat},
        Tame x → Walked st s held vl [] → wp x (fun _ s' => Inv s' ∧ J s') (fun _ _ => True) s := by
      intro α x s held vl hx hw
      apply wp_mono (hx s (hw.inv hinv))
      . intro a s2 hs2
        exact ⟨hs2.1, hJ st s2 (hw.shrinks.trans hs2.2) hst⟩
      . intro e s2 he
        apply he
    -- `vdir` is given back, whichever of the two references is its own
    have hvput : ∀ {vn x : Nat} {D X : Loc} {s : St}, r.2.vn = some vn → acquire vn s1 = .ok () s →
        Walked st s [(r.2.vdir, D), (x, X)] [vn] [] →
        wp (do
          vput r.2.vdir
          let (error, nd) ← namei path fuel
          if error ≠ some .ENOENT then
            pure error
          else
            acquire nd.vdir
            let error ← ramfs_link nd.vdir vn nd.name
            release nd.vdir
            vput nd.vdir
            vrele vn
            pure error) (fun _ s' => Inv s' ∧ J s') (fun _ _ => True) s := by
      intro vn x D X s hvn hacquire hw
      apply wp_bind_run (hw.wp_vput hinv)
      . intro e s2 _
        trivial
      . intro _ s2 hvput hs2
        apply wp_link_name hJ hinv hst hadd _ hs2
        unfold vfs_link.find
        rw [bind_of_ok hnamei]
        dsimp only
        rw [hvn]
        dsimp only
        rw [bind_of_ok hacquire, hvput]
    cases hended with
    | missing d D name len h => exact ⟨h.inv hinv, hJ st _ h.shrinks hst⟩
    | notdir d D vn name len h => exact ⟨h.inv hinv, hJ st _ h.shrinks hst⟩
    | link d v D V name len h => simp at hsym
    | found d v D V name len h =>
      dsimp only
      apply wp_bind_run (h.wp_acquire List.mem_cons_self (by simp)) (fun _ _ he => he)
      intro _ s2 hacquire hs2
      rw [wp_bind, hs2.wp_getVnode List.mem_cons_self]
      split
      . apply hsuffix (hisdir _ _) hs2
      . apply hvput rfl hacquire (hs2.perm (List.Perm.swap _ _ _))
    | here d D name len h =>
      dsimp only
      apply wp_bind_run (h.wp_acquire List.mem_cons_self (by simp)) (fun _ _ he => he)
      intro _ s2 hacquire hs2
      rw [wp_bind, hs2.wp_getVnode List.mem_cons_self]
      split
      . apply hsuffix (hisdir _ _) hs2
      . apply hvput rfl hacquire hs2
    | tail d v D V name len h =>
      dsimp only
      apply wp_bind_run (h.wp_acquire List.mem_cons_self (by simp)) (fun _ _ he => he)
      intro _ s2 hacquire hs2
      rw [wp_bind, hs2.wp_getVnode List.mem_cons_self]
      split
      . apply hsuffix (hisdir _ _) hs2
      . apply hvput rfl hacquire hs2

theorem Call.wp_run {call : Call}
    (hadd : ∀ s1 d new, call.Creates st fuel s1 d new → J s1 → ∀ s', Edits d new s1 s' → J s')
    : wp (call.run fuel) (fun _ s' => Inv s' ∧ J s') (fun _ _ => True) st := by
  cases call with
  | vfs_open path type create => apply wp_vfs_open hJ hinv hst hadd
  | vfs_mkdir path => apply wp_vfs_mkdir hJ hinv hst hadd
  | vfs_rmdir path =>
    unfold run
    rw [wp_bind]
    apply wp_vfs_rmdir hJ hinv hst
  | vfs_unlink path =>
    unfold run
    rw [wp_bind]
    apply wp_vfs_unlink hJ hinv hst
  | vfs_link path target =>
    unfold run
    rw [wp_bind]
    apply wp_vfs_link hJ hinv hst hadd
  | vfs_symlink path target =>
    unfold run
    rw [wp_bind]
    apply wp_vfs_symlink hJ hinv hst hadd
  | vfs_mount path fstype =>
    unfold run
    rw [wp_bind]
    apply wp_vfs_mount hJ hinv hst
  | vfs_unmount path =>
    unfold run
    rw [wp_bind]
    apply wp_vfs_unmount hJ hinv hst
  | vfs_close v =>
    unfold run
    rw [wp_bind]
    apply wp_mono (Tame.vfs_close st hinv)
    . intro _ s1 hs1
      exact ⟨hs1.1, hJ st s1 hs1.2 hst⟩
    . intro e s1 he
      apply he

end Calls

namespace Resolve

variable {st : St} {L D : Loc} {name nm : Name} {len : Nat}

structure Missing (st : St) (D : Loc) (nm : Name) (len : Nat) : Prop where
  look : look st D nm len = some (.error .ENOENT)
  len : len = compLen nm
  ne_nil : nm ≠ []
  head : nm.head? ≠ some '/'

theorem look_error {e : Errno} (h : look st L name len = some (.error e))
    : e = .ENOTDIR ∨
        e = .ENOENT ∧ ramfs_lookup.find name len (st.nodes (L.node st)).dentry = none := by
  unfold look at h
  dsimp only at h
  split at h
  . cases h
  split at h
  . simp only [Option.some.injEq, Except.error.injEq] at h
    exact Or.inl h.symm
  . split at h
    . simp at h
    . split at h
      . split at h
        . simp at h
        . simp at h
      . split at h
        . split at h
          . simp at h
          . simp at h
        . next hfind =>
          split at h
          . simp at h
          . simp only [Option.some.injEq, Except.error.injEq] at h
            exact Or.inr ⟨h.symm, hfind⟩

theorem nextname_ne (e : Exit) {vdir vn : Loc} {next : Name} (h : nextname vdir vn next = .done e)
    : e = .found vdir vn := by
  unfold nextname at h
  split at h
  . cases h
    rfl
  . cases h

theorem component_missing (h : component st L name = some (.done (.missing D nm len)))
    (hne : name ≠ []) (hhead : name.head? ≠ some '/') : Missing st D nm len := by
  unfold component at h
  dsimp only at h
  split at h
  . cases h
  . simp at h
  . next e _ hlook =>
    simp only [Option.some.injEq, Round.done.injEq, Exit.missing.injEq] at h
    rcases h with ⟨rfl, rfl, rfl⟩
    refine ⟨?_, rfl, hne, hhead⟩
    rw [hlook]
    cases look_error hlook with
    | inl hnotdir => exact absurd hnotdir (by assumption)
    | inr hmissing => rw [hmissing.1]
  . split at h
    . cases h
    . split at h
      . simp at h
      . simp only [Option.some.injEq] at h
        have := nextname_ne _ h
        cases this

theorem component_next {vdir vn : Loc} (h : component st L name = some (.next vdir vn nm))
    : nm.head? ≠ some '/' := by
  unfold component nextname at h
  dsimp only at h
  split at h
  . cases h
  . simp at h
  . simp at h
  . split at h
    . cases h
    . split at h
      . simp at h
      . split at h
        . simp at h
        . simp only [Option.some.injEq, Round.next.injEq] at h
          rw [← h.2.2]
          apply head_skipSlashes

theorem round_missing {prev : Option Loc} (h : round st prev L name = some (.done (.missing D nm len)))
    (hhead : name.head? ≠ some '/') : Missing st D nm len := by
  unfold round at h
  split at h
  . split at h
    . simp at h
    . simp at h
    . split at h
      . simp at h
      . cases h
  . next hne =>
    split at h
    . split at h
      . cases h
      . simp only [Option.some.injEq] at h
        have := nextname_ne _ h
        cases this
      . apply component_missing h hne hhead
    . apply component_missing h hne hhead

theorem round_next {prev : Option Loc} {vdir vn : Loc} (h : round st prev L name = some (.next vdir vn nm))
    : nm.head? ≠ some '/' := by
  unfold round at h
  split at h
  . split at h
    . simp at h
    . simp at h
    . split at h
      . simp at h
      . cases h
  . split at h
    . split at h
      . cases h
      . unfold nextname at h
        split at h
        . simp at h
        . simp only [Option.some.injEq, Round.next.injEq] at h
          rw [← h.2.2]
          apply head_skipSlashes
      . apply component_next h
    . apply component_next h

theorem lookup_missing {fuel : Nat} {prev : Option Loc}
    (h : lookup st fuel prev L name = some (.missing D nm len)) (hhead : name.head? ≠ some '/')
    : Missing st D nm len := by
  induction fuel generalizing prev L name with
  | zero => cases h
  | succ fuel ih =>
    unfold lookup at h
    split at h
    . cases h
    . next exit hround =>
      rw [Option.some.injEq] at h
      rw [h] at hround
      apply round_missing hround hhead
    . next hround =>
      apply ih h
      apply round_next hround

theorem namei_missing {fuel : Nat} {start : Option Loc}
    (h : namei st fuel name start = some (.missing D nm len)) : Missing st D nm len := by
  induction fuel generalizing start name with
  | zero => cases h
  | succ fuel ih =>
    unfold namei at h
    split at h
    . cases h
    . split at h
      . cases h
      . dsimp only at h
        split at h
        . cases h
        . apply ih h
      . next hlookup =>
        rw [Option.some.injEq] at h
        rw [h] at hlookup
        apply lookup_missing hlookup
        apply head_skipSlashes

end Resolve

theorem resolve_missing {st : St} {path name : Name} {fuel len : Nat} {L : Loc}
    (h : resolve st path fuel = some (.missing L name len)) : Resolve.Missing st L name len :=
  Resolve.namei_missing h

theorem Resolve.Missing.no_entry_begins {st : St} {D : Loc} {nm : Name} {len : Nat}
    (h : Resolve.Missing st D nm len) {de : RamDentry} (hde : de ∈ (st.nodes (D.node st)).dentry)
    : ¬ nm.take len <+: de.name := by
  have hfind : ramfs_lookup.find nm len (st.nodes (D.node st)).dentry = none := by
    cases Resolve.look_error h.look with
    | inl hnotdir => cases hnotdir
    | inr hmissing => exact hmissing.2
  have hlen : (nm.take len).length = len := by
    rw [List.length_take, h.len]
    have hle : compLen nm ≤ nm.length := (List.takeWhile_prefix _).length_le
    omega
  have heq := find_eq (st.nodes (D.node st)).dentry (nm.take len) (nm.drop len)
  rw [List.take_append_drop, hlen, hfind, eq_comm, List.find?_eq_none] at heq
  simpa using heq de hde

def UniqueNames (s : St) : Prop :=
  ∀ n, ((s.nodes n).dentry.map (·.name)).Nodup

theorem UniqueNames.of_shrinks (s s' : St) (h : Shrinks s s') (hs : UniqueNames s) : UniqueNames s' :=
  fun n => (hs n).sublist ((h n).map _)

theorem UniqueNames.of_edits {s s' : St} {d : Nat} {new : Name} (hs : UniqueNames s)
    (hnew : ∀ de ∈ (s.nodes d).dentry, de.name ≠ new) (h : Edits d new s s') : UniqueNames s' := by
  intro n
  cases h n with
  | inl hsub => exact (hs n).sublist (hsub.map _)
  | inr hadd =>
    rcases hadd with ⟨rfl, de, l, hname, heq, hsub⟩
    rw [heq, List.map_cons, List.nodup_cons, hname]
    refine ⟨?_, (hs n).sublist (hsub.map _)⟩
    intro hmem
    rcases List.mem_map.mp hmem with ⟨de', hde', hname'⟩
    exact hnew de' (hsub.subset hde') hname'

theorem Call.Creates.fresh {st s1 : St} {fuel d : Nat} {new : Name} {call : Call}
    (h : call.Creates st fuel s1 d new) : ∀ de ∈ (s1.nodes d).dentry, de.name ≠ new := by
  cases h with
  | vfs_open h =>
    intro de hde heq
    apply (resolve_missing h).no_entry_begins hde
    rw [heq]
    apply List.prefix_rfl
  | vfs_mkdir h =>
    intro de hde heq
    apply (resolve_missing h).no_entry_begins hde
    rw [heq]
    apply List.prefix_rfl
  | vfs_symlink h =>
    intro de hde heq
    apply (resolve_missing h).no_entry_begins hde
    rw [heq]
    apply List.prefix_rfl
  | vfs_link hfind hw h =>
    intro de hde heq
    apply (resolve_missing h).no_entry_begins hde
    rw [heq]
    apply List.take_prefix

theorem Call.Reached.inv_unique {junk : Junk} {own : List Nat} {s : St} (h : Reached Any junk own s)
    : Inv s ∧ UniqueNames s := by
  induction h with
  | boot h =>
    rw [(wp_of_ok h).mp (wp_boot junk)]
    refine ⟨(Tree.of_booted junk).forest.inv, ?_⟩
    intro n
    rw [booted_dentry]
    apply List.nodup_nil
  | memory _ junk' ih => exact ⟨ih.1.memory junk', ih.2⟩
  | step h _ _ hrun ih =>
    apply (wp_of_ok hrun).mp
    apply Call.wp_run UniqueNames.of_shrinks ih.1 ih.2
    intro s1 d new hcreates hs1 s' hedits
    apply hs1.of_edits hcreates.fresh hedits

@[irreducible]
def nestedDirs : St :=
  after ((Call.vfs_mkdir "/a/b".toList).run 1)
    (after ((Call.vfs_mkdir "/a".toList).run 1) (after boot (.empty zeroed)))

theorem nestedDirs_reached {C : St → Nat → Call → Prop}
    (ha : C (after boot (.empty zeroed)) 1 (.vfs_mkdir "/a".toList))
    (hb : C (after ((Call.vfs_mkdir "/a".toList).run 1) (after boot (.empty zeroed))) 1
      (.vfs_mkdir "/a/b".toList))
    : ∃ own, Call.Reached C zeroed own nestedDirs := by
  have hboot : Call.Reached C zeroed [] (after boot (.empty zeroed)) := by
    apply Call.Reached.boots
    decide +kernel
  rcases hboot.after (by trivial) ha (by decide +kernel) with ⟨r, hmkdir⟩
  rcases hmkdir.after (by trivial) hb (by decide +kernel) with ⟨r', hmkdir'⟩
  unfold nestedDirs
  exact ⟨_, hmkdir'⟩

def ProperName (name : Name) : Prop :=
  name ≠ [] ∧ '/' ∉ name ∧ name ≠ ['.'] ∧ name ≠ ['.', '.']

def ProperNames (s : St) : Prop :=
  ∀ n, ∀ de ∈ (s.nodes n).dentry, ProperName de.name

theorem ProperNames.of_shrinks (s s' : St) (h : Shrinks s s') (hs : ProperNames s) : ProperNames s' :=
  fun n de hde => hs n de ((h n).subset hde)

theorem ProperNames.of_edits {s s' : St} {d : Nat} {new : Name} (hs : ProperNames s)
    (hnew : ProperName new) (h : Edits d new s s') : ProperNames s' := by
  intro n de hde
  cases h n with
  | inl hsub => apply hs n de (hsub.subset hde)
  | inr hadd =>
    rcases hadd with ⟨_, de', l, hname, heq, hsub⟩
    rw [heq, List.mem_cons] at hde
    cases hde with
    | inl heq =>
      rw [heq, hname]
      apply hnew
    | inr hmem => apply hs n de (hsub.subset hmem)

/--
The component that is missing is neither `.` nor `..`. `vfs_link` takes all that is left of the path for
the name, so nothing may follow the component there.
-/
def Call.Proper (st : St) (fuel : Nat) : Call → Prop
  | vfs_open path _ true | vfs_mkdir path | vfs_symlink path _ =>
    ∀ L name len, resolve st path fuel = some (.missing L name len) →
      name.take len ≠ ['.'] ∧ name.take len ≠ ['.', '.']
  | vfs_link path target =>
    ∀ s, vfs_link.find target fuel st = .ok () s →
      ∀ L name len, resolve s path fuel = some (.missing L name len) →
        len = name.length ∧ name ≠ ['.'] ∧ name ≠ ['.', '.']
  | _ => True

theorem Resolve.Missing.component {st : St} {D : Loc} {nm : Name} {len : Nat}
    (h : Resolve.Missing st D nm len) : nm.take len ≠ [] ∧ '/' ∉ nm.take len := by
  rw [h.len, takeWhile_append_drop]
  constructor
  . intro hnil
    cases nm with
    | nil => exact h.ne_nil rfl
    | cons a nm =>
      have hhead := h.head
      rw [List.takeWhile_cons] at hnil
      split at hnil
      . cases hnil
      . next ha => simp_all
  . intro hmem
    have hall := List.all_eq_true.mp List.all_takeWhile _ hmem
    simp at hall

theorem Call.Creates.proper {st s1 : St} {fuel d : Nat} {new : Name} {call : Call}
    (h : call.Creates st fuel s1 d new) (hcall : call.Proper st fuel) : ProperName new := by
  cases h with
  | vfs_open h =>
    have hc := (resolve_missing h).component
    exact ⟨hc.1, hc.2, hcall _ _ _ h⟩
  | vfs_mkdir h =>
    have hc := (resolve_missing h).component
    exact ⟨hc.1, hc.2, hcall _ _ _ h⟩
  | vfs_symlink h =>
    have hc := (resolve_missing h).component
    exact ⟨hc.1, hc.2, hcall _ _ _ h⟩
  | vfs_link hfind hw h =>
    have hc := (resolve_missing h).component
    rcases hcall _ hfind _ _ _ h with ⟨hlen, hdots⟩
    rw [hlen, List.take_length] at hc
    exact ⟨hc.1, hc.2, hdots⟩

theorem names_proper {junk : Junk} {own : List Nat} {s : St} (h : Call.Reached Call.Proper junk own s)
    : ProperNames s := by
  have hboth : Inv s ∧ ProperNames s := by
    induction h with
    | boot h =>
      rw [(wp_of_ok h).mp (wp_boot junk)]
      refine ⟨(Tree.of_booted junk).forest.inv, ?_⟩
      intro n
      rw [booted_dentry]
      simp
    | memory _ junk' ih => exact ⟨ih.1.memory junk', ih.2⟩
    | step h _ hcond hrun ih =>
      apply (wp_of_ok hrun).mp
      apply Call.wp_run ProperNames.of_shrinks ih.1 ih.2
      intro s1 d new hcreates hs1 s' hedits
      apply hs1.of_edits (hcreates.proper hcond) hedits
  exact hboth.2

theorem names_proper_nestedDirs : ProperNames nestedDirs := by
  have ha : resolve (after boot (.empty zeroed)) "/a".toList 1
      = some (.missing (.old 0) "a".toList 1) := by
    decide +kernel
  have hb : resolve (after ((Call.vfs_mkdir "/a".toList).run 1) (after boot (.empty zeroed)))
      "/a/b".toList 1 = some (.missing (.old 1) "b".toList 1) := by
    decide +kernel
  have hreached : ∃ own, Call.Reached Call.Proper zeroed own nestedDirs := by
    apply nestedDirs_reached
    . intro L name len h
      rw [ha, Option.some.injEq, Exit.missing.injEq] at h
      rw [← h.2.1, ← h.2.2]
      decide
    . intro L name len h
      rw [hb, Option.some.injEq, Exit.missing.injEq] at h
      rw [← h.2.1, ← h.2.2]
      decide
  rcases hreached with ⟨own, h⟩
  apply names_proper h

@[irreducible]
def dotdotDir : St :=
  after ((Call.vfs_mkdir "/a/../b".toList).run 1)
    (after ((Call.vfs_mkdir "/a".toList).run 1) (after boot (.empty zeroed)))

theorem names_not_proper_dotdotDir
    : (∃ own, Call.Reached Call.Any zeroed own dotdotDir) ∧ ⟨"a".toList, 1, 3⟩ ∈ (dotdotDir.nodes 0).dentry ∧
        ⟨"..".toList, 2, 3⟩ ∈ (dotdotDir.nodes 1).dentry ∧ ¬ ProperNames dotdotDir := by
  have hdotdot : ⟨"..".toList, 2, 3⟩ ∈ (dotdotDir.nodes 1).dentry := by decide +kernel
  refine ⟨?_, by decide +kernel, hdotdot, ?_⟩
  . have hboot : Call.Reached Call.Any zeroed [] (after boot (.empty zeroed)) := by
      apply Call.Reached.boots
      decide +kernel
    have hret : returns ((Call.vfs_mkdir "/a".toList).run 1) (after boot (.empty zeroed)) = true := by
      decide +kernel
    have hret' : returns ((Call.vfs_mkdir "/a/../b".toList).run 1)
        (after ((Call.vfs_mkdir "/a".toList).run 1) (after boot (.empty zeroed))) = true := by
      decide +kernel
    rcases hboot.after (by trivial) (by trivial) hret with ⟨r, hmkdir⟩
    rcases hmkdir.after (by trivial) (by trivial) hret' with ⟨r', hmkdir'⟩
    unfold dotdotDir
    exact ⟨_, hmkdir'⟩
  . intro h
    exact (h 1 _ hdotdot).2.2.2 rfl

end Fs
end Franklin
