import Franklin.Fs.Lemmas.Extended
import Franklin.Fs.Lemmas.View

/-!
This module contains that every call returns and changes what `Call.outcome` says.
-/

namespace Franklin
namespace Fs

structure Outcome.Of (st s : St) (o : Outcome) (r : Code × Option Nat) : Prop where
  error : r.1 = o.error
  file : r.2.map (fun v => (s.vnodes v).data) = o.file
  view : s.view = st.view.edited o.edit

def Agrees (st : St) (o : Option Outcome) (r : Code × Option Nat) (s : St) : Prop :=
  ∃ x, o = some x ∧ x.Of st s r

theorem Outcome.Of.refused {st s : St} {error : Code} (h : SameView st s)
    : (Outcome.refused error).Of st s (error, none) :=
  ⟨rfl, rfl, h.view⟩

theorem Delivers.agrees {α : Type} {g : α → Code × Option Nat} {x : Prog α} {a : α} {st s : St} {o : Outcome} (h : Delivers a x)
    (hof : o.Of st s (g a)) (hlt : ∀ v, (g a).2 = some v → v < s.nextVnode)
    : wp x (fun r s' => Agrees st (some o) (g r) s') (fun _ _ => True) s := by
  apply wp_mono (h s)
  . intro r s' hs'
    rcases hs' with ⟨rfl, hsame⟩
    refine ⟨o, rfl, hof.error, ?_, hsame.view.trans hof.view⟩
    rw [← hof.file]
    apply Option.map_congr
    intro v hv
    exact hsame.data v (hlt v hv)
  . simp

theorem Agrees.wp_bind {st s : St} {o : Option Outcome} {x : Prog Code} {f : Code → Prog Code}
    (hx : wp x (fun r s' => Agrees st o (r, none) s') (fun _ _ => True) s) (hf : ∀ r, Delivers r (f r))
    : wp (x >>= f) (fun r s' => Agrees st o (r, none) s') (fun _ _ => True) s := by
  apply wp_bind_of hx
  intro r s1 hs1
  rcases hs1 with ⟨o', rfl, hof⟩
  exact Delivers.agrees (g := fun r => (r, none)) (hf r) hof (by simp)

theorem Delivers.closeBoth {α : Type} (v w : Nat) (a : α) : Delivers a (do
    Fs.vput v
    vrele w
    Pure.pure a) :=
  ((Delivers.pure a).vput w).vput v

theorem St.vnew_nextVnode (s : St) (vfs n : Nat) : (s.vnew vfs n).nextVnode = s.nextVnode + 1 := by
  rfl

theorem St.vnew_data (s : St) (vfs n : Nat) : ((s.vnew vfs n).vnodes s.nextVnode).data = n := by
  unfold vnew
  dsimp only
  rw [Function.update_self]

theorem Ended.sameView {st s : St} {e : Exit} {r : Code × Nameidata} (h : Ended st s e r) : SameView st s := by
  rcases h.walked with ⟨held, vl, hw⟩
  exact hw.sameView

theorem Ended.missing_or {st s : St} {e : Exit} {r : Code × Nameidata} (h : Ended st s e r)
    : (∃ d D name len, e = .missing D name len ∧ r = (some .ENOENT, ⟨d, none, name, len, false⟩) ∧
          Walked st s [(d, D)] [] []) ∨
        (∀ D name len, e ≠ .missing D name len) ∧ r.1 ≠ some .ENOENT := by
  cases h with
  | missing d D name len hw => exact Or.inl ⟨d, D, name, len, rfl, rfl, hw⟩
  | found d v D V name len hw => exact Or.inr ⟨by simp, by simp⟩
  | here d D name len hw => exact Or.inr ⟨by simp, by simp⟩
  | tail d v D V name len hw => exact Or.inr ⟨by simp, by simp⟩
  | link d v D V name len hw => exact Or.inr ⟨by simp, by simp⟩
  | notdir d D vn name len hw => exact Or.inr ⟨by simp, by simp⟩

theorem Ended.file {st s : St} {e : Exit} {r : Code × Nameidata} (h : Ended st s e r)
    : (∀ v, (if r.1 = none then r.2.vn else none) = some v → v < s.nextVnode) ∧
        (if r.1 = none then r.2.vn else none).map (fun v => (s.vnodes v).data) = e.vn.map (Loc.node st) := by
  have hheld : ∀ {held : List (Nat × Loc)} {vl : List Nat} {v : Nat} {V : Loc}, Walked st s held vl [] → (v, V) ∈ held →
      (∀ w, some v = some w → w < s.nextVnode) ∧
        (some v).map (fun v => (s.vnodes v).data) = (some V).map (Loc.node st) := by
    intro held vl v V hw hv
    refine ⟨?_, ?_⟩
    . intro w hvw
      rw [← Option.some.inj hvw]
      exact hw.lt_nextVnode hv
    . rw [Option.map_some, Option.map_some, (hw.members hv).1]
  cases h with
  | found d v D V name len hw => exact hheld hw List.mem_cons_self
  | here d D name len hw => exact hheld hw List.mem_cons_self
  | tail d v D V name len hw => exact hheld hw List.mem_cons_self
  | link d v D V name len hw => exact hheld hw List.mem_cons_self
  | missing d D name len hw => exact ⟨by simp, rfl⟩
  | notdir d D vn name len hw => exact ⟨by simp, rfl⟩

section Calls

variable {own : Nat → Nat} {st s : St} {fuel len : Nat} {path name : Name} {type : VType} {target : Option Name}
  (hgrove : Grove none own st)

include hgrove in
theorem Walked.wp_created {d : Nat} {L : Loc} (h : Walked st s [(d, L)] [d] []) (hL : Placed own st L)
    (hdir : L.type st = .VDIR) (htarget : target.isSome → type = .VLNK)
    : wp (ramfs_alloc_file d name len type target)
        (fun r s' => r.1 = none ∧ (∀ v, r.2 = some v → v < s'.nextVnode) ∧ ¬ (type = .VLNK ∧ target = none) ∧
          (Outcome.created st L name len type (target.getD [])).Of st s' r) (fun _ _ => True) s := by
  have hlt := hL.attached.lt_next hgrove.forest.wf
  rcases h.members List.mem_cons_self with ⟨hdata, htype, _⟩
  have hnode : (s.nodes (L.node st)).type = .VDIR := by rw [h.same.type_eq, ← hL.type, hdir]
  have halloc : wp (ramfs_alloc_file d name len type target)
      (fun r s' => r = (some .EINVAL, none) ∨ r = (none, some s.nextVnode) ∧
        s' = (s.newFile (s.vnodes d).vfs (s.vnodes d).data (strldup name len) type
          (target.getD [])).vnew (s.vnodes d).vfs s.nextNode) (Halts s (fun _ => True)) s := by
    apply wp_ramfs_alloc_file name len type target (h.freed_eq_false List.mem_cons_self)
    . rw [hdata, h.same.nextNode]
      change L.node st < st.nextNode at hlt
      omega
    . intro _
      rw [hdata, hnode]
    . exact Or.inl rfl
    . intro _
      exact Or.inr ⟨rfl, rfl⟩
  have hcode : wp (ramfs_alloc_file d name len type target) _ _ s := wp_alloc_file_code (htype.trans hdir) htarget
  apply wp_mono (wp_conj halloc hcode)
  . intro r s' hs'
    rcases hs' with ⟨hr, hnone, hlink⟩
    rcases hr with rfl | ⟨rfl, rfl⟩
    . cases hnone
    . have hnext := s.newFile_nextVnode (s.vnodes d).vfs (s.vnodes d).data (strldup name len) type (target.getD [])
      have hvnode := (s.newFile (s.vnodes d).vfs (s.vnodes d).data (strldup name len) type (target.getD [])).vnew_data
        (s.vnodes d).vfs s.nextNode
      rw [hnext] at hvnode
      refine ⟨rfl, ?_, hlink, rfl, ?_, ?_⟩
      . intro v hv
        rw [← Option.some.inj hv, St.vnew_nextVnode, hnext]
        exact Nat.lt_succ_self _
      . rw [Option.map_some, hvnode, h.same.nextNode]
        rfl
      . rw [St.view_vnew, St.view_newFile, h.sameView.view, hdata, h.same.nextNode]
        rfl
  . simp

include hgrove

theorem wp_open_outcome (create : Bool)
    : wp (vfs_open path type create fuel)
        (fun r s' => Agrees st (Call.outcome st fuel (.vfs_open path type create)) r s') (fun _ _ => True) st := by
  unfold vfs_open Call.outcome
  dsimp only
  apply wp_bind_mono (wp_namei hgrove.forest.inv path fuel)
  . simp
  . intro r s1 hs1
    rcases hs1 with ⟨e, he, hended, _⟩
    have hsame := hended.sameView
    have hplaced := Placed.resolve hgrove he
    have herror := hended.error_eq.symm
    rw [he]
    simp only [Option.bind_some]
    cases create with
    | false =>
      have hfile := hended.file
      simp only [Bool.false_eq_true, if_false]
      apply Delivers.agrees (g := id) ((Delivers.pure _).vput _)
      . exact ⟨herror, hfile.2, hsame.view⟩
      . exact hfile.1
    | true =>
      simp only [if_true]
      rcases hended.missing_or with ⟨d, D, name, len, rfl, rfl, hw⟩ | ⟨hne, hcode⟩
      . simp only [ne_eq, not_true_eq_false, if_false]
        apply wp_bind_of (hw.wp_acquire List.mem_cons_self (by simp))
        intro _ s2 hs2
        cases hplaced with
        | missing hD hdir =>
          unfold ramfs_create
          apply wp_bind_of (hs2.wp_created hgrove hD hdir (by simp))
          intro r s3 hs3
          rcases hs3 with ⟨_, hlt, hlink, hof⟩
          have houtcome : Outcome.vfs_open st type true (.missing D name len) =
              some (.created st D name len type []) := by
            unfold Outcome.vfs_open
            rw [if_pos rfl]
            exact if_neg fun htype => hlink ⟨htype, rfl⟩
          rw [houtcome]
          exact Delivers.agrees (g := id) ((Delivers.pure _).vput _) hof hlt
      . have houtcome : Outcome.vfs_open st type true e = some (.refused e.error) := by
          unfold Outcome.vfs_open
          rw [if_pos rfl]
          cases e with
          | missing L name len => exact absurd rfl (hne L name len)
          | _ => rfl
        rw [if_pos hcode, houtcome, herror]
        exact Delivers.agrees (g := id) (((Delivers.pure _).vputOpt _).vput _) (.refused hsame) (by simp)

theorem wp_mkdir_outcome
    : wp (vfs_mkdir path fuel)
        (fun r s' => Agrees st (Call.outcome st fuel (.vfs_mkdir path)) r s') (fun _ _ => True) st := by
  unfold vfs_mkdir Call.outcome
  dsimp only
  by_cases hnil : path = []
  . rw [if_pos hnil, if_pos hnil]
    exact ⟨_, rfl, .refused (SameView.refl st)⟩
  rw [if_neg hnil, if_neg hnil]
  apply wp_bind_mono (wp_namei hgrove.forest.inv path fuel)
  . simp
  . intro r s1 hs1
    rcases hs1 with ⟨e, he, hended, _⟩
    have hsame := hended.sameView
    have hplaced := Placed.resolve hgrove he
    have herror := hended.error_eq.symm
    rw [he]
    simp only [Option.bind_some]
    rcases hended.missing_or with ⟨d, D, name, len, rfl, rfl, hw⟩ | ⟨hne, hcode⟩
    . simp only [ne_eq, not_true_eq_false, if_false]
      apply wp_bind_of (hw.wp_acquire List.mem_cons_self (by simp))
      intro _ s2 hs2
      cases hplaced with
      | missing hD hdir =>
        rcases hs2.members List.mem_cons_self with ⟨_, htype, _⟩
        rw [wp_bind, hs2.wp_getVnode List.mem_cons_self, if_neg (by simp [htype, hdir])]
        unfold ramfs_mkdir
        apply wp_bind_of (hs2.wp_created hgrove hD hdir (by simp))
        intro r s3 hs3
        exact Delivers.agrees (g := id) ((Delivers.pure _).vput _) hs3.2.2.2 hs3.2.1
    . have houtcome : Outcome.vfs_mkdir st e = some (.refused (some (e.error.getD .EEXIST))) := by
        cases e with
        | missing L name len => exact absurd rfl (hne L name len)
        | _ => rfl
      rw [if_pos hcode, houtcome, herror]
      have hcode' : (if e.error = none then some Errno.EEXIST else e.error) = some (e.error.getD .EEXIST) := by
        cases e.error <;> rfl
      rw [hcode']
      exact Delivers.agrees (g := id) (((Delivers.pure _).vputOpt _).vput _) (.refused hsame) (by simp)

theorem wp_symlink_outcome {target : Name}
    : wp (vfs_symlink path target fuel)
        (fun r s' => Agrees st (Call.outcome st fuel (.vfs_symlink path target)) (r, none) s') (fun _ _ => True) st := by
  unfold vfs_symlink Call.outcome
  dsimp only
  apply wp_bind_mono (wp_namei hgrove.forest.inv path fuel)
  . simp
  . intro r s1 hs1
    rcases hs1 with ⟨e, he, hended, _⟩
    have hsame := hended.sameView
    have hplaced := Placed.resolve hgrove he
    have herror := hended.error_eq.symm
    rw [he]
    simp only [Option.bind_some]
    rcases hended.missing_or with ⟨d, D, name, len, rfl, rfl, hw⟩ | ⟨hne, hcode⟩
    . simp only [ne_eq, not_true_eq_false, if_false]
      apply wp_bind_of (hw.wp_acquire List.mem_cons_self (by simp))
      intro _ s2 hs2
      cases hplaced with
      | missing hD hdir =>
        unfold ramfs_symlink
        simp only [bind_assoc, pure_bind]
        have htarget : (some target).isSome → VType.VLNK = .VLNK := fun _ => rfl
        apply wp_bind_of (hs2.wp_created hgrove hD hdir htarget)
        intro r s3 hs3
        refine Delivers.agrees (g := fun r => (r, none)) ((Delivers.pure _).vput _) ⟨rfl, rfl, ?_⟩ (by simp)
        exact hs3.2.2.2.view
    . have houtcome : Outcome.vfs_symlink st target e = some (.refused e.error) := by
        cases e with
        | missing L name len => exact absurd rfl (hne L name len)
        | _ => rfl
      rw [if_pos hcode, houtcome, herror]
      exact Delivers.agrees (g := fun r => (r, none)) (((Delivers.pure _).vputOpt _).vput _) (.refused hsame) (by simp)

omit hgrove in
theorem Removed.outcome {s s' : St} {held : List (Nat × Loc)} {vl : List Nat} {d v : Nat} {D V : Loc}
    (h : Removed s s' (s.vnodes d).data (s.vnodes v).data name) (hw : Walked st s held vl [])
    (hd : (d, D) ∈ held) (hv : (v, V) ∈ held) : Agrees st (Outcome.removed st D V name) (none, none) s' := by
  have hfound := h.found
  have hview := h.view
  rw [(hw.members hd).1, (hw.members hv).1, hw.same.dentry_eq] at hfound
  rw [(hw.members hd).1, hw.sameView.view] at hview
  refine ⟨.done (.remove (D.node st) name), if_pos hfound, rfl, rfl, hview⟩

omit hgrove in
theorem Exit.eq_refused {e : Exit} (code : Errno) (herror : some code = e.error) : e.vn = none := by
  cases e with
  | missing L name len => rfl
  | notdir L => rfl
  | _ => cases herror

theorem wp_unlink_outcome
    : wp (vfs_unlink path fuel)
        (fun r s' => Agrees st (Call.outcome st fuel (.vfs_unlink path)) (r, none) s') (fun _ _ => True) st := by
  unfold vfs_unlink Call.outcome
  dsimp only
  apply wp_bind_mono (wp_namei_last hgrove.forest.inv path fuel)
  . simp
  . intro r s1 hs1
    rcases hs1 with ⟨e, he, hended, hsym, hname, _⟩
    have hsame := hended.sameView
    have herror := hended.error_eq.symm
    rw [he, ← hname]
    simp only [Option.bind_some]
    rcases r with ⟨error, vdir, found, name, len, issymlink⟩
    dsimp only at hsym herror ⊢
    unfold Outcome.vfs_unlink
    cases error with
    | some code =>
      rw [Exit.eq_refused code herror, ← herror]
      exact Delivers.agrees (g := fun r => (r, none)) (((Delivers.pure _).vput _).vputOpt _) (.refused hsame) (by simp)
    | none =>
    cases found with
    | none => trivial
    | some vn =>
      rcases hended.pair hsym rfl with ⟨V, D, x, X, hV, rfl, hw, hmem⟩
      dsimp only at hw hmem ⊢
      rw [hV]
      dsimp only
      apply wp_bind_of (hw.wp_acquire hmem (by simp))
      intro _ s2 hs2
      have hremove : ∀ {s : St} {vl : List Nat}, Walked st s [(vdir, e.vdir), (x, X)] vl [] → wp (do
            let v ← getVnode vn
            let error ← if v.vroot then pure (some Errno.EBUSY) else ramfs_remove vdir vn name
            vput vdir
            vrele vn
            pure error)
          (fun r s' => Agrees st (if V.vroot st then some (Outcome.refused (some .EBUSY))
            else if V.type st = .VDIR then some (Outcome.refused (some .EISDIR))
            else if e.vdir.type st ≠ .VDIR then some (Outcome.refused (some .ENOTDIR))
            else Outcome.removed st e.vdir V name) (r, none) s') (fun _ _ => True) s := by
        intro s vl hs
        rcases hs.members hmem with ⟨_, htype, _, hvroot, _⟩
        rcases hs.members List.mem_cons_self with ⟨_, hdtype, _⟩
        rw [wp_bind, hs.wp_getVnode hmem, hvroot]
        split
        . rw [pure_bind]
          exact Delivers.agrees (g := fun r => (r, none)) (Delivers.closeBoth _ _ _) (.refused hs.sameView) (by simp)
        . apply Agrees.wp_bind _ (Delivers.closeBoth _ _)
          apply wp_mono wp_remove_view
          . intro r s' hs'
            rw [htype, hdtype] at hs'
            rcases hs' with ⟨rfl, hisdir, rfl⟩ | ⟨rfl, hnotdir, hparent, rfl⟩ | ⟨rfl, hnotdir, hparent, hremoved⟩
            . rw [if_pos hisdir]
              exact ⟨_, rfl, .refused hs.sameView⟩
            . rw [if_neg hnotdir, if_pos hparent]
              exact ⟨_, rfl, .refused hs.sameView⟩
            . rw [if_neg hnotdir, if_neg (by simpa using hparent)]
              exact hremoved.outcome hs List.mem_cons_self hmem
          . simp
      split
      . next hne =>
        apply wp_bind_of (hs2.wp_acquire List.mem_cons_self (by simpa using hne))
        intro _ s3 hs3
        exact hremove hs3
      . exact hremove hs2

theorem wp_rmdir_outcome
    : wp (vfs_rmdir path fuel)
        (fun r s' => Agrees st (Call.outcome st fuel (.vfs_rmdir path)) (r, none) s') (fun _ _ => True) st := by
  unfold vfs_rmdir Call.outcome
  dsimp only
  apply wp_bind_mono (wp_namei_last hgrove.forest.inv path fuel)
  . simp
  . intro r s1 hs1
    rcases hs1 with ⟨e, he, hended, hsym, hname, hlen⟩
    have hsame := hended.sameView
    have herror := hended.error_eq.symm
    rw [← hname] at hlen
    rw [he, ← hname]
    simp only [Option.bind_some]
    rcases r with ⟨error, vdir, found, name, len, issymlink⟩
    dsimp only at hsym herror hlen ⊢
    unfold Outcome.vfs_rmdir
    cases error with
    | some code =>
      rw [Exit.eq_refused code herror, ← herror]
      exact Delivers.agrees (g := fun r => (r, none)) (((Delivers.pure _).vput _).vputOpt _) (.refused hsame) (by simp)
    | none =>
    cases found with
    | none => trivial
    | some vn =>
      rcases hended.pair hsym rfl with ⟨V, D, x, X, hV, rfl, hw, hmem⟩
      dsimp only at hw hmem ⊢
      rw [hV]
      dsimp only
      apply wp_bind_of (hw.wp_acquire hmem (by simp))
      intro _ s2 hs2
      have hrefused : ∀ {s : St} {vl : List Nat} (code : Errno), Walked st s [(vdir, e.vdir), (x, X)] vl [] → wp (do
            let error ← (pure (some code) : Prog Code)
            vput vdir
            vrele vn
            pure error)
          (fun r s' => Agrees st (some (.refused (some code))) (r, none) s') (fun _ _ => True) s := by
        intro s vl code hs
        rw [pure_bind]
        exact Delivers.agrees (g := fun r => (r, none)) (Delivers.closeBoth _ _ _) (.refused hs.sameView) (by simp)
      have hsamevn : vdir = vn ↔ e.vdir = V := by
        constructor
        . intro heq
          rw [heq] at hw
          exact hw.loc_eq List.mem_cons_self (heq ▸ hmem)
        . intro heq
          rw [← heq] at hmem
          exact hw.eq_of_loc_eq List.mem_cons_self hmem
      by_cases hdot : vdir = vn
      . rw [if_pos hdot, if_pos (hsamevn.mp hdot)]
        exact hrefused _ hs2
      . rw [if_neg hdot, if_neg fun heq => hdot (hsamevn.mpr heq)]
        apply wp_bind_of (hs2.wp_acquire List.mem_cons_self (by simpa using hdot))
        intro _ s3 hs3
        rcases hs3.members hmem with ⟨hdata, htype, _, hvroot, _⟩
        rcases hs3.members List.mem_cons_self with ⟨hddata, _⟩
        rw [wp_bind, hs3.wp_getVnode hmem, htype, hvroot]
        split
        . exact hrefused _ hs3
        . split
          . exact hrefused _ hs3
          . apply Agrees.wp_bind _ (Delivers.closeBoth _ _)
            apply wp_mono wp_rmdir_view
            . intro r s' hs'
              rw [hdata, hddata, hs3.same.parent_eq, hs3.same.dentry_eq, hs3.same.wild_eq, hlen] at hs'
              rcases hs' with ⟨rfl, hdots, htake, rfl⟩ | ⟨hdots, hparent, hrest⟩
              . rw [if_pos ⟨hdots, htake⟩]
                exact ⟨_, rfl, .refused hs3.sameView⟩
              . rw [if_neg hdots, if_neg (by simpa using hparent)]
                rcases hrest with ⟨rfl, hused, rfl⟩ | ⟨rfl, hempty, hremoved⟩
                . rw [if_pos hused]
                  exact ⟨_, rfl, .refused hs3.sameView⟩
                . rw [if_neg hempty]
                  rw [← hdata, ← hddata] at hremoved
                  exact hremoved.outcome hs3 List.mem_cons_self hmem
            . simp

omit hgrove in
theorem Sown.wp_link_outcome {vn : Nat} {V : Loc} (h : Sown own s) (hsame : SameView st s) (hvn : vn < s.nextVnode)
    (hdata : (s.vnodes vn).data = V.node st)
    : wp (do
          let (error, nd) ← namei path fuel
          if error ≠ some .ENOENT then
            pure error
          else
            acquire nd.vdir
            let error ← ramfs_link nd.vdir vn nd.name
            release nd.vdir
            vput nd.vdir
            vrele vn
            pure error)
        (fun r s' => Agrees st ((resolve s path fuel).bind (Outcome.vfs_link st s V)) (r, none) s')
        (fun _ _ => True) s := by
  apply wp_bind_of (h.wp_namei path fuel)
  . intro r s1 hs1
    rcases hs1 with ⟨_, _, e, he, hplaced, hended⟩
    have hsame1 := hsame.trans hended.sameView
    have herror := hended.error_eq.symm
    rw [he]
    simp only [Option.bind_some]
    rcases hended.missing_or with ⟨d, D, name, len, rfl, rfl, hw⟩ | ⟨hne, hcode⟩
    . simp only [ne_eq, not_true_eq_false, if_false]
      apply wp_bind_of (hw.wp_acquire List.mem_cons_self (by simp))
      intro _ s2 hs2
      cases hplaced with
      | missing hD hdir =>
        rcases hs2.members List.mem_cons_self with ⟨hddata, _⟩
        have hvdata := (hs2.sameView.data vn hvn).trans hdata
        have hnode : (s2.nodes (s2.vnodes d).data).type = .VDIR := by
          rw [hddata, hs2.same.type_eq, ← hD.type, hdir]
        apply wp_bind_of (wp_link_view hnode)
        intro error s3 hs3
        rcases hs3 with ⟨rfl, hview⟩
        rw [hddata, hvdata, hs2.sameView.view, hsame.view] at hview
        exact Delivers.agrees (g := fun r => (r, none)) ((Delivers.closeBoth _ _ _).release _) ⟨rfl, rfl, hview⟩ (by simp)
    . have houtcome : Outcome.vfs_link st s V e = some (.refused e.error) := by
        cases e with
        | missing L name len => exact absurd rfl (hne L name len)
        | _ => rfl
      rw [if_pos hcode, houtcome, herror]
      exact ⟨_, rfl, .refused hsame1⟩

omit hgrove in
theorem Sown.wp_vfs_link_outcome {target : Name} (h : Sown own st)
    : wp (vfs_link path target fuel)
        (fun r s' => Agrees st (Call.outcome st fuel (.vfs_link path target)) (r, none) s') (fun _ _ => True) st := by
  unfold vfs_link Call.outcome
  dsimp only
  apply wp_bind_run (h.wp_namei target fuel)
  . simp
  . intro r s1 hnamei hs1
    rcases hs1 with ⟨⟨hs1, _⟩, hsym, e, he, _, hended⟩
    have hsame := hended.sameView
    have herror := hended.error_eq.symm
    rw [he]
    simp only [Option.bind_some]
    rcases r with ⟨error, vdir, found, name, len, issymlink⟩
    dsimp only at hsym herror ⊢
    cases error with
    | some code =>
      rw [Exit.eq_refused code herror, ← herror]
      exact ⟨_, rfl, .refused hsame⟩
    | none =>
    cases found with
    | none => trivial
    | some vn =>
      rcases hended.pair hsym rfl with ⟨V, D, x, X, hV, rfl, hw, hmem⟩
      dsimp only at hw hmem ⊢
      rw [hV]
      dsimp only
      apply wp_bind_run (wp_conj (hw.wp_acquire (E := fun _ _ => True) hmem (by simp)) (Settled.acquire vn s1 hs1))
      . simp
      intro _ s2 hacquire hs2
      rcases hs2 with ⟨hw2, hs2, _⟩
      rcases hw2.members hmem with ⟨hdata, htype, _⟩
      rw [wp_bind, hw2.wp_getVnode hmem, htype]
      split
      . exact Delivers.agrees (g := fun r => (r, none)) (Delivers.closeBoth _ _ _) (.refused hw2.sameView) (by simp)
      . have hput : wp (vput vdir) (fun _ s' => SameView s2 s' ∧ Sown own s') (fun _ _ => True) s2 := by
          apply wp_mono (wp_conj (wp_vput_view vdir) (Settled.vfs_close vdir s2 hs2))
          . intro _ s' hs'
            exact ⟨hs'.1, hs'.2.1⟩
          . simp
        apply wp_bind_run hput
        . simp
        intro _ s3 hvput hs3
        have hfind : after (vfs_link.find target fuel) st = s3 := by
          unfold vfs_link.find after
          rw [bind_of_ok hnamei]
          dsimp only
          rw [bind_of_ok hacquire, hvput]
        rw [hfind]
        apply hs3.2.wp_link_outcome (hw2.sameView.trans hs3.1)
        . exact Nat.lt_of_lt_of_le (hw2.lt_nextVnode hmem) hs3.1.next_le
        . rw [hs3.1.data vn (hw2.lt_nextVnode hmem), hdata]

omit hgrove in
theorem wp_mount_outcome {fstype : Name} (hinv : Inv st)
    : wp (vfs_mount (some path) fstype fuel)
        (fun r s' => Agrees st (Call.outcome st fuel (.vfs_mount path fstype)) (r, none) s') (fun _ _ => True) st := by
  unfold vfs_mount Call.outcome
  dsimp only
  rw [wp_bind, wp_acquireList]
  refine ⟨fun _ => trivial, ?_⟩
  intro _
  by_cases htype : strcmp ['r', 'a', 'm', 'f', 's'] fstype ≠ 0
  . rw [if_pos htype, if_pos htype]
    have hsame : SameView st { st with vfslistLock := true } := SameView.of_vnodes rfl rfl (fun _ => rfl)
    exact Delivers.agrees (g := fun r => (r, none)) (Delivers.pure _).releaseList (.refused hsame) (by simp)
  rw [if_neg htype, if_neg htype, wp_bind, wp_newVfs]
  change wp _ _ _ st.mounting
  have hsame : SameView st st.mounting := SameView.of_vnodes rfl rfl (fun _ => rfl)
  have hfail : ∀ {s : St} (code : Errno) (nd : Nameidata), SameView st s →
      wp (vfs_mount.fail2 code nd) (fun r s' => Agrees st (some (.refused (some code))) (r, none) s')
        (fun _ _ => True) s := by
    intro s code nd hs
    unfold vfs_mount.fail2
    exact Delivers.agrees (g := fun r => (r, none)) (((Delivers.pure _).releaseList.vput _).vputOpt _) (.refused hs) (by simp)
  apply wp_bind_mono (wp_namei hinv.mounting path fuel)
  . simp
  . intro r s1 hs1
    rcases hs1 with ⟨e, he, hended, hsym⟩
    have hsame1 := hsame.trans hended.sameView
    have herror := hended.error_eq.symm
    rw [he]
    simp only [Option.bind_some]
    rcases r with ⟨error, vdir, found, name, len, issymlink⟩
    dsimp only at hsym herror ⊢
    unfold Outcome.vfs_mount
    cases error with
    | some code =>
      rw [Exit.eq_refused code herror, ← herror]
      exact hfail code _ hsame1
    | none =>
    cases found with
    | none => trivial
    | some vn =>
      rcases hended.pair hsym rfl with ⟨V, D, x, X, hV, rfl, hw, hmem⟩
      dsimp only at hw hmem ⊢
      rw [hV]
      dsimp only
      apply wp_bind_of (hw.wp_acquire hmem (by simp))
      intro _ s2 hs2
      have hsame2 := hsame.trans hs2.sameView
      rcases hs2.members hmem with ⟨_, htype, _, _, hcovered⟩
      rw [Loc.type_mounting] at htype
      rw [Loc.mountedhere_mounting] at hcovered
      rw [wp_bind, hs2.wp_getVnode hmem, htype, hcovered]
      split
      . exact hfail _ _ hsame2
      . split
        . exact hfail _ _ hsame2
        . rw [wp_bind, wp_setVfs, wp_bind, wp_setVnode]
          apply wp_bind_of (wp_vput_view vn)
          intro _ s3 hs3
          apply wp_bind_of (wp_vput_view vdir)
          intro _ s4 hs4
          have hview : s4.view = st.view := hs4.view.trans (hs3.view.trans hsame2.view)
          apply wp_mono (wp_finish_view _)
          . intro r s5 hs5
            rcases hs5 with ⟨rfl, hview5⟩
            rw [hview] at hview5
            have hnext : s4.nextNode = st.nextNode := congrArg View.next hview
            rw [hnext] at hview5
            exact ⟨_, rfl, rfl, rfl, hview5⟩
          . simp

omit hgrove in
theorem wp_unmount_outcome (hinv : Inv st)
    : wp (vfs_unmount path fuel)
        (fun r s' => Agrees st (Call.outcome st fuel (.vfs_unmount path)) (r, none) s') (fun _ _ => True) st := by
  unfold vfs_unmount Call.outcome
  dsimp only
  apply wp_bind_mono (wp_namei hinv path fuel)
  . simp
  . intro r s1 hs1
    rcases hs1 with ⟨e, he, hended, hsym⟩
    have hsame := hended.sameView
    have herror := hended.error_eq.symm
    rw [he]
    simp only [Option.bind_some]
    rcases r with ⟨error, vdir, found, name, len, issymlink⟩
    dsimp only at hsym herror ⊢
    unfold Outcome.vfs_unmount
    cases error with
    | some code =>
      rw [Exit.eq_refused code herror, ← herror]
      exact Delivers.agrees (g := fun r => (r, none)) (((Delivers.pure _).vput _).vputOpt _) (.refused hsame) (by simp)
    | none =>
    cases found with
    | none => trivial
    | some vn =>
      rcases hended.pair hsym rfl with ⟨V, D, x, X, hV, rfl, hw, hmem⟩
      dsimp only at hw hmem ⊢
      rw [hV]
      dsimp only
      rcases hw.members hmem with ⟨_, _, hvfs, hvroot, _⟩
      rw [wp_bind, hw.wp_getVnode hmem, wp_bind, wp_getVfs]
      apply wp_bind_of (hw.wp_acquire hmem (by simp))
      intro _ s2 hs2
      rw [hvroot, hvfs, hw.same.vfss]
      split
      . next hroot =>
        rw [if_pos (Or.inl hroot)]
        exact Delivers.agrees (g := fun r => (r, none)) ((Delivers.pure _).vput _) (.refused hs2.sameView) (by simp)
      . next hroot =>
        split
        . next hflag =>
          rw [if_pos (Or.inr hflag)]
          exact Delivers.agrees (g := fun r => (r, none)) ((Delivers.pure _).vput _) (.refused hs2.sameView) (by simp)
        . next hflag =>
          rw [if_neg (by simp [hroot, hflag])]
          have hput : wp (vrele vn) (fun _ s' => ∃ held, Walked st s' held [] []) (fun _ _ => True) s2 := by
            have hone : ∀ {y : Nat} {Y : Loc}, Walked st s2 [(vn, V), (y, Y)] [vn] [] →
                wp (vrele vn) (fun _ s' => ∃ held, Walked st s' held [] []) (fun _ _ => True) s2 := by
              intro y Y hs
              apply wp_mono (hs.wp_vput hinv)
              . intro _ s' hs'
                exact ⟨_, by simpa using hs'⟩
              . simp
            rcases List.mem_cons.mp hmem with heq | htail
            . rw [← heq] at hs2
              exact hone hs2
            . rw [← List.mem_singleton.mp htail] at hs2
              exact hone (hs2.perm (List.Perm.swap _ _ _))
          apply wp_bind_of hput
          intro _ s3 hs3
          rcases hs3 with ⟨held, hs3⟩
          apply wp_bind_of (wp_ramfs_unmount_view _)
          intro _ s4 hs4
          have hview := hs4.1
          rw [hs3.sameView.view, St.chain_congr hs3.same.next_eq, hs3.same.nextNode, hs3.same.vfss] at hview
          cases hmp : (st.vfss (V.vfs st)).mountpoint with
          | ref mp =>
            apply Delivers.agrees (g := fun r => (r, none)) _ ⟨rfl, rfl, hview⟩ (by simp)
            exact (((Delivers.pure _).vput _).release mp).setVnode mp (by simp) |>.acquire mp
          | null => trivial
          | wild => trivial

end Calls

theorem Grown.agrees {st s : St} {fuel : Nat} {call : Call} {r : Code × Option Nat} (h : Grown st)
    (hrun : call.run fuel st = .ok r s) : Agrees st (call.outcome st fuel) r s := by
  rcases h with ⟨own, h⟩
  have hgrove := h.grove
  have hcode : ∀ {x : Prog Code}, wp x (fun r s' => Agrees st (call.outcome st fuel) (r, none) s') (fun _ _ => True) st →
      wp (do
        let error ← x
        pure (error, (none : Option Nat))) (fun r s' => Agrees st (call.outcome st fuel) r s') (fun _ _ => True) st := by
    intro x hx
    rw [wp_bind]
    exact hx
  have hwp : wp (call.run fuel) (fun r s' => Agrees st (call.outcome st fuel) r s') (fun _ _ => True) st := by
    cases call with
    | vfs_open path type create => exact wp_open_outcome hgrove create
    | vfs_mkdir path => exact wp_mkdir_outcome hgrove
    | vfs_rmdir path => exact hcode (wp_rmdir_outcome hgrove)
    | vfs_unlink path => exact hcode (wp_unlink_outcome hgrove)
    | vfs_link path target => exact hcode h.wp_vfs_link_outcome
    | vfs_symlink path target => exact hcode (wp_symlink_outcome hgrove)
    | vfs_mount path fstype => exact hcode (wp_mount_outcome hgrove.forest.inv)
    | vfs_unmount path => exact hcode (wp_unmount_outcome hgrove.forest.inv)
    | vfs_close v =>
      apply wp_bind_of (wp_vput_view v)
      intro _ s1 hs1
      exact ⟨_, rfl, .refused hs1⟩
  exact (wp_of_ok hrun).mp hwp

end Fs
end Franklin
