import Franklin.Fs.Lemmas.Mounting

/-!
This module contains the calls of `vfs.c` that make a new name, for a path with a missing component in
front of the last one. `namei` reports it in the same way as a missing last component.
-/

namespace Franklin
namespace Fs

/--
The walk of the path ends at a missing component with another component behind it.
-/
def InnerMissing (st : St) (path : Name) (fuel : Nat) : Prop :=
  ∃ L name len, resolve st path fuel = some (.missing L name len) ∧ skipSlashes (name.drop len) ≠ []

/--
`vfs_link` walks the path in the state that it has found the target in.
-/
def Call.InnerMissing (st : St) (fuel : Nat) : Call → Prop
  | vfs_open path _ true | vfs_mkdir path | vfs_symlink path _ => Fs.InnerMissing st path fuel
  | vfs_link path target => ∀ s, vfs_link.find target fuel st = .ok () s → Fs.InnerMissing s path fuel
  | _ => False

def NoneAdded (s s' : St) : Prop :=
  Shrinks s s' ∧ s'.nextNode = s.nextNode

def Call.Refused (st : St) (fuel : Nat) (call : Call) : Prop :=
  ∃ e vn s, call.run fuel st = .ok (some e, vn) s ∧ NoneAdded st s

/--
The call is a `vfs_link` whose target is not found or is a directory.
-/
def Call.NoTarget (st : St) (fuel : Nat) : Call → Prop
  | vfs_link _ target =>
    ∃ e, resolve st target fuel = some e ∧ ∀ V, e.vn = some V → V.type st = .VDIR
  | _ => False

namespace NoneAdded

variable {s s1 s2 : St}

theorem trans (h : NoneAdded s s1) (h1 : NoneAdded s1 s2) : NoneAdded s s2 :=
  ⟨h.1.trans h1.1, h1.2.trans h.2⟩

theorem close (s : St) (v : Nat) : NoneAdded s (s.close v) := by
  refine ⟨?_, by rw [Forest.close_same]⟩
  apply Shrinks.of_eq
  intro m
  have hnode := congrArg RamNode.dentry (Forest.close_nodes (s := s) (v := v) m)
  change ((s.close v).nodes m).dentry = _ at hnode
  rw [hnode]
  split <;> rfl

end NoneAdded

section Fails

variable {st s : St} {fuel : Nat} (hinv : Inv st) (hquiet : Quiet st)

theorem Walked.noneAdded {held : List (Nat × Loc)} {vl nl : List Nat} (h : Walked st s held vl nl)
    : NoneAdded st s :=
  ⟨h.shrinks, h.same.nextNode⟩

theorem Walked.secure {held : List (Nat × Loc)} {vl nl : List Nat} {n : Nat} (h : Walked st s held vl nl)
    (hn : Secure st n) : Secure s n := by
  have hlink := h.same.linkcount_eq n
  refine ⟨?_, by rw [hlink]; exact hn.2⟩
  cases h.freed n with
  | inl heq => rw [heq, hn.1]
  | inr hnew =>
    have := hn.2
    omega

theorem wp_close_eq {v : Nat} (hfreed : (s.vnodes v).freed = false)
    (hram : (s.nodes (s.vnodes v).data).ramlock = false) (hsecure : Secure s (s.vnodes v).data)
    : wp (vfs_close v) (fun _ s' => s' = s.close v) (fun _ _ => False) s := by
  have hreturns : wp (vfs_close v) (fun _ _ => True) (fun _ _ => False) s := by
    unfold vfs_close
    rw [wp_bind, wp_getVnode]
    refine ⟨by simp [hfreed], ?_⟩
    intro _
    rw [wp_bind, wp_setVnode]
    split
    . unfold ramfs_inactive
      rw [wp_bind, wp_bind, wp_deref]
      refine ⟨by simp [hsecure.1], ?_⟩
      intro _
      rw [wp_bind, wp_acquireNode_iff]
      refine ⟨by simp [hram], ?_⟩
      intro _
      rw [wp_bind, wp_setNode_iff, wp_bind, wp_getNode, if_neg]
      . trivial
      . rw [St.updNode_updNode, St.updNode_nodes_self]
        have := hsecure.2
        dsimp only [Function.comp]
        omega
    . rw [wp_release_alive (by simp [hfreed])]
      trivial
  have heq : wp (vfs_close v) (fun _ s' => s' = s.close v) (fun _ _ => True) s := by
    apply wp_mono (wp_vfs_close_iff (P := fun _ => True) (Q := fun _ s' => s' = s.close v) hfreed rfl)
    . intro _ s1 hs1
      apply hs1
    . simp
  apply wp_mono (wp_conj hreturns heq)
  . intro _ s1 hs1
    exact hs1.2
  . intro e s1 he
    exact he

theorem Resolve.round_tail {prev : Option Loc} {L D V : Loc} {name : Name}
    (h : round st prev L name = some (.done (.tail D V))) : (∃ w, D = .old w) ∨ D = V := by
  have hcomponent : ∀ L, component st L name ≠ some (.done (.tail D V)) := by
    intro L h
    unfold component at h
    dsimp only at h
    split at h
    . cases h
    . simp at h
    . simp at h
    . split at h
      . cases h
      . split at h
        . simp at h
        . rw [Option.some.injEq] at h
          have := nextname_ne _ h
          cases this
  unfold round at h
  split at h
  . split at h
    . simp at h
    . simp only [Option.some.injEq, Round.done.injEq, Exit.tail.injEq] at h
      exact Or.inl ⟨_, h.1.symm⟩
    . split at h
      . simp only [Option.some.injEq, Round.done.injEq, Exit.tail.injEq] at h
        rw [← h.1, ← h.2]
        exact Or.inr rfl
      . cases h
  . split at h
    . split at h
      . cases h
      . rw [Option.some.injEq] at h
        have := nextname_ne _ h
        cases this
      . exact absurd h (hcomponent _)
    . exact absurd h (hcomponent _)

theorem Resolve.lookup_tail {prev : Option Loc} {L D V : Loc} {name : Name}
    (h : lookup st fuel prev L name = some (.tail D V)) : (∃ w, D = .old w) ∨ D = V := by
  induction fuel generalizing prev L name with
  | zero => cases h
  | succ fuel ih =>
    unfold lookup at h
    split at h
    . cases h
    . next exit hround =>
      rw [Option.some.injEq] at h
      rw [h] at hround
      apply round_tail hround
    . apply ih h

theorem Resolve.namei_tail {start : Option Loc} {D V : Loc} {name : Name}
    (h : namei st fuel name start = some (.tail D V)) : (∃ w, D = .old w) ∨ D = V := by
  induction fuel generalizing start name with
  | zero => cases h
  | succ fuel ih =>
    unfold namei at h
    split at h
    . cases h
    . split at h
      . cases h
      . dsimp only at h
        split at h
        . cases h
        . apply ih h
      . next hlookup =>
        rw [Option.some.injEq] at h
        rw [h] at hlookup
        apply lookup_tail hlookup

include hquiet

theorem Walked.wp_close_secure {held : List (Nat × Loc)} {vl : List Nat} {v : Nat}
    (h : Walked st s held vl []) (hfreed : (s.vnodes v).freed = false)
    (hsecure : Secure st (s.vnodes v).data)
    : wp (vfs_close v) (fun _ s' => s' = s.close v ∧ NoneAdded st s') (fun _ _ => False) s := by
  apply wp_mono (wp_close_eq hfreed _ (h.secure hsecure))
  . intro _ s1 hs1
    rw [hs1]
    exact ⟨rfl, h.noneAdded.trans (NoneAdded.close s v)⟩
  . intro e s1 he
    exact he
  . rw [h.ramlock, hquiet.ramlock]
    rfl

theorem wp_link_noTarget {own : Nat → Nat} (h : Grove none own st) (path : Name) {target : Name} {e : Exit}
    (hresolve : resolve st target fuel = some e) (hdir : ∀ V, e.vn = some V → V.type st = .VDIR)
    : wp (vfs_link path target fuel) (fun r s' => r ≠ none ∧ NoneAdded st s') (fun _ _ => False) st := by
  have hinv := h.forest.inv
  have hbad : ∀ {P : Prop} (e' : Stop) (s' : St), ¬ P → Bad st P e' s' → False := by
    intro P e' s' hP hs'
    exact hP (hs'.2 hquiet)
  have hplaced := Placed.resolve h hresolve
  -- the vnode behind the walk is given back last
  have hlast : ∀ {held : List (Nat × Loc)} {vl : List Nat} {v : Nat} {V : Loc} {s3 : St},
      Walked st s3 ((v, V) :: held) vl [] → Placed own st V →
      wp (vfs_close v >>= fun _ => pure (some Errno.EISDIR))
        (fun r s' => r ≠ none ∧ NoneAdded st s') (fun _ _ => False) s3 := by
    intro held vl v V s3 hs3 hV
    have hsecure : Secure st (s3.vnodes v).data := by
      rw [(hs3.members List.mem_cons_self).1]
      exact hV.secure h
    apply wp_bind_of (hs3.wp_close_secure hquiet (hs3.freed_eq_false List.mem_cons_self) hsecure)
    intro _ s4 hs4
    exact ⟨by simp, hs4.2⟩
  unfold vfs_link
  apply wp_bind_mono (wp_namei hinv target fuel)
  . intro e' s' hs'
    apply hbad e' s' _ hs'
    rw [hresolve]
    simp
  . intro r s1 hs1
    rcases hs1 with ⟨e', he', hended, hsym⟩
    rw [hresolve, Option.some.injEq] at he'
    subst he'
    cases hended with
    | missing d D name len h => exact ⟨by simp, h.noneAdded⟩
    | notdir d D vn name len h => exact ⟨by simp, h.noneAdded⟩
    | link d v D V name len h => simp at hsym
    | found d v D V name len hw =>
      cases hplaced with
      | found hD hV =>
      dsimp only
      apply wp_bind_of (hw.wp_acquire List.mem_cons_self (by simp))
      intro _ s2 hs2
      rcases hs2.members List.mem_cons_self with ⟨_, htype, _⟩
      rw [wp_bind, hs2.wp_getVnode List.mem_cons_self, htype, if_pos (hdir V rfl)]
      apply wp_bind_mono ((hs2.perm (List.Perm.swap _ _ _)).wp_vput hinv) (fun e' s' => hbad e' s' id)
      intro _ s3 hs3
      apply hlast hs3 hV
    | here d D name len hw =>
      cases hplaced with
      | here hD =>
      dsimp only
      apply wp_bind_of (hw.wp_acquire List.mem_cons_self (by simp))
      intro _ s2 hs2
      rcases hs2.members List.mem_cons_self with ⟨_, htype, _⟩
      rw [wp_bind, hs2.wp_getVnode List.mem_cons_self, htype, if_pos (hdir D rfl)]
      apply wp_bind_mono (hs2.wp_vput hinv) (fun e' s' => hbad e' s' id)
      intro _ s3 hs3
      apply hlast hs3 hD
    | tail d v D V name len hw =>
      cases hplaced with
      | tail hD hV =>
      dsimp only
      apply wp_bind_of (hw.wp_acquire List.mem_cons_self (by simp))
      intro _ s2 hs2
      rcases hs2.members List.mem_cons_self with ⟨_, htype, _⟩
      rw [wp_bind, hs2.wp_getVnode List.mem_cons_self, htype, if_pos (hdir D rfl)]
      apply wp_bind_mono (hs2.wp_vput hinv) (fun e' s' => hbad e' s' id)
      intro _ s3 hs3
      -- the directory is the one that the walk has come to, or one that somebody else holds as well
      by_cases hDV : D = V
      . subst hDV
        have hdv := hw.eq_of_loc_eq List.mem_cons_self (List.mem_cons_of_mem _ List.mem_cons_self)
        rw [← hdv] at hs3
        apply hlast hs3 hD
      . rcases (Resolve.namei_tail hresolve).resolve_right hDV with ⟨w, rfl⟩
        have hd := hw.old_held List.mem_cons_self
        subst hd
        have hlt : d < st.nextVnode := by
          by_contra hge
          rcases hw.heldNew d _ List.mem_cons_self (by omega) with ⟨_, vfs, n, hnew, _⟩
          cases hnew
        have hold := hs3.old d hlt
        have hfreed : (s3.vnodes d).freed = false := by
          rw [hold]
          exact (hw.heldOld d _ List.mem_cons_self hlt).2.1
        have hsecure : Secure st (s3.vnodes d).data := by
          rw [hold]
          exact hD.secure h
        apply wp_bind_of (hs3.wp_close_secure hquiet hfreed hsecure)
        intro _ s4 hs4
        exact ⟨by simp, hs4.2⟩

end Fails

section Adds

variable {st s : St} {fuel d len : Nat} {L : Loc} {path name target : Name}

theorem Resolve.Missing.type_eq (h : Missing st L name len) : L.type st = .VDIR := by
  have hlook := h.look
  unfold Resolve.look at hlook
  dsimp only at hlook
  split at hlook
  . cases hlook
  split at hlook
  . simp at hlook
  . next htype => simpa using htype

theorem wp_alloc_node_adds {vfs : Nat} {dir : Option Nat} {type : VType} {link : Option Name}
    : wp (ramfs_alloc_node vfs dir type link) (fun _ s' => s.nextNode < s'.nextNode) (fun _ _ => True)
        s := by
  unfold ramfs_alloc_node
  rw [wp_bind, wp_getSt]
  apply wp_bind_of (Fixed.files.setPrev _ _ s trivial)
  intro _ s1 hs1
  split
  . trivial
  . exact Nat.lt_succ_of_le hs1.2.node_le

theorem Walked.wp_alloc_file_adds {type : VType} {link : Option Name} (h : Walked st s [(d, L)] [d] [])
    (hdir : L.type st = .VDIR) (hlink : link.isSome → type = .VLNK)
    : wp (ramfs_alloc_file d name len type link) (fun r s' => r.1 = none ∧ st.nextNode < s'.nextNode)
        (fun _ _ => True) s := by
  rcases h.members List.mem_cons_self with ⟨_, htype, _⟩
  unfold ramfs_alloc_file
  rw [wp_bind, h.wp_getVnode List.mem_cons_self, if_neg]
  . apply wp_bind_of wp_alloc_node_adds
    intro n s1 hs1
    rw [h.same.nextNode] at hs1
    apply wp_bind_of (Fixed.files.ramfs_alloc_dentry _ _ s1 trivial)
    intro de s2 hs2
    apply wp_bind_of (Fixed.ramfs_dir_attach s2 trivial)
    intro _ s3 hs3
    apply wp_bind_of (Fixed.ramfs_vget s3 trivial)
    intro v s4 hs4
    refine ⟨rfl, ?_⟩
    have := hs2.2.node_le
    have := hs3.2.node_le
    have := hs4.2.node_le
    omega
  . rw [htype, hdir, not_or, not_and, not_not, not_not]
    exact ⟨rfl, hlink⟩

theorem wp_ramfs_link_none {vn : Nat}
    : wp (ramfs_link d vn name) (fun r _ => r = none) (fun _ _ => True) s := by
  unfold ramfs_link
  apply wp_bind_of wp_trivial
  intro _ s1 _
  apply wp_bind_of wp_trivial
  intro _ s2 _
  apply wp_bind_of wp_trivial
  intro _ s3 _
  apply wp_bind_of wp_trivial
  intro _ s4 _
  rfl

variable (hinv : Inv st) (hresolve : resolve st path fuel = some (.missing L name len))

include hinv hresolve

theorem wp_missing {α : Type} {f : Code × Nameidata → Prog α} {Q : α → St → Prop}
    (hf : ∀ d s, Walked st s [(d, L)] [] [] → L.type st = .VDIR →
      wp (f (some .ENOENT, ⟨d, none, name, len, false⟩)) Q (fun _ _ => True) s)
    : wp (namei path fuel >>= f) Q (fun _ _ => True) st := by
  apply wp_bind_mono (wp_namei hinv path fuel)
  . simp
  . intro r s hs
    rcases hs with ⟨e, he, hended, _⟩
    rw [hresolve, Option.some.injEq] at he
    subst he
    cases hended with
    | missing d D name len h => apply hf d s h (resolve_missing hresolve).type_eq

theorem wp_open_missing {type : VType}
    : wp (vfs_open path type true fuel) (fun r _ => r.1 = none) (fun _ _ => True) st := by
  unfold vfs_open
  apply wp_missing hinv hresolve
  intro d s h hdir
  simp only [ne_eq, not_true_eq_false, if_true, if_false]
  apply wp_bind_of (h.wp_acquire List.mem_cons_self (by simp))
  intro _ s1 hs1
  apply wp_bind_of (hs1.wp_alloc_file_adds hdir (by simp))
  intro r s2 hs2
  apply wp_bind_of wp_trivial
  intro _ s3 _
  exact hs2.1

theorem wp_mkdir_missing
    : wp (vfs_mkdir path fuel) (fun r _ => r.1 = none) (fun _ _ => True) st := by
  unfold vfs_mkdir
  split
  . next hnil =>
    subst hnil
    cases fuel <;> cases hresolve
  . apply wp_missing hinv hresolve
    intro d s h hdir
    simp only [ne_eq, not_true_eq_false, if_false]
    apply wp_bind_of (h.wp_acquire List.mem_cons_self (by simp))
    intro _ s1 hs1
    rcases hs1.members List.mem_cons_self with ⟨_, htype, _⟩
    rw [wp_bind, hs1.wp_getVnode List.mem_cons_self, if_neg (by rw [htype, hdir]; simp)]
    apply wp_bind_of (hs1.wp_alloc_file_adds hdir (by simp))
    intro r s2 hs2
    apply wp_bind_of wp_trivial
    intro _ s3 _
    exact hs2.1

theorem wp_symlink_missing
    : wp (vfs_symlink path target fuel) (fun _ s' => st.nextNode < s'.nextNode) (fun _ _ => True)
        st := by
  unfold vfs_symlink ramfs_symlink
  apply wp_missing hinv hresolve
  intro d s h hdir
  simp only [ne_eq, not_true_eq_false, if_false, bind_assoc, pure_bind]
  apply wp_bind_of (h.wp_acquire List.mem_cons_self (by simp))
  intro _ s1 hs1
  apply wp_bind_of (hs1.wp_alloc_file_adds hdir (by simp))
  intro r s2 hs2
  apply wp_bind_of (Fixed.vfs_close s2 trivial)
  intro _ s3 hs3
  exact Nat.lt_of_lt_of_le hs2.2 hs3.2.node_le

theorem wp_link_missing {vn : Nat}
    : wp (do
          let (error, nd) ← namei path fuel
          if error ≠ some .ENOENT then
            pure error
          else
            acquire nd.vdir
            let error ← ramfs_link nd.vdir vn nd.name
            release nd.vdir
            vput nd.vdir
            vrele vn
            pure error) (fun r _ => r = none) (fun _ _ => True) st := by
  apply wp_missing hinv hresolve
  intro d s h hdir
  simp only [ne_eq, not_true_eq_false, if_false]
  apply wp_bind_of wp_trivial
  intro _ s1 _
  apply wp_bind_of wp_ramfs_link_none
  intro error s2 herror
  apply wp_bind_of wp_trivial
  intro _ s3 _
  apply wp_bind_of wp_trivial
  intro _ s4 _
  apply wp_bind_of wp_trivial
  intro _ s5 _
  exact herror

end Adds

theorem wp_vfs_link_missing {st : St} {fuel : Nat} {path target : Name} (hinv : Inv st)
    (hmissing : ∀ s, vfs_link.find target fuel st = .ok () s → InnerMissing s path fuel)
    : wp (vfs_link path target fuel)
        (fun r _ => r = none ∨ Call.NoTarget st fuel (.vfs_link path target)) (fun _ _ => True) st := by
  unfold vfs_link
  apply wp_bind_run (wp_namei hinv target fuel)
  . simp
  . intro r s1 hnamei hs1
    rcases hs1 with ⟨e, hresolve, hended, hsym⟩
    have hrest : ∀ {vn x : Nat} {V D X : Loc} {held : List (Nat × Loc)}, r.2.vn = some vn →
        e.vn = some V → Walked st s1 held [] [] → (vn, V) ∈ held →
        held.Perm [(r.2.vdir, D), (x, X)] →
        wp (do
          acquire vn
          let v ← getVnode vn
          if v.type = .VDIR then
            vput r.2.vdir
            vrele vn
            pure (some .EISDIR)
          else
            vput r.2.vdir
            let (error, nd) ← namei path fuel
            if error ≠ some .ENOENT then
              pure error
            else
              acquire nd.vdir
              let error ← ramfs_link nd.vdir vn nd.name
              release nd.vdir
              vput nd.vdir
              vrele vn
              pure error)
          (fun r _ => r = none ∨ Call.NoTarget st fuel (.vfs_link path target)) (fun _ _ => True) s1 := by
      intro vn x V D X held hvn hV hw hmem hperm
      apply wp_bind_run (hw.wp_acquire (E := fun _ _ => True) hmem (by simp))
      . simp
      . intro _ s2 hacquire hs2
        rcases hs2.members hmem with ⟨_, htype, _⟩
        rw [wp_bind, hs2.wp_getVnode hmem, htype]
        split
        . next hdir =>
          apply wp_mono wp_trivial
          . intro _ s3 _
            refine Or.inr ⟨e, hresolve, ?_⟩
            intro V' hV'
            rw [hV, Option.some.injEq] at hV'
            rw [← hV']
            apply hdir
          . simp
        . apply wp_bind_run ((hs2.perm hperm).wp_vput hinv)
          . simp
          . intro _ s3 hvput hs3
            have hfind : vfs_link.find target fuel st = .ok () s3 := by
              unfold vfs_link.find
              rw [bind_of_ok hnamei]
              dsimp only
              rw [hvn]
              dsimp only
              rw [bind_of_ok hacquire, hvput]
            rcases hmissing s3 hfind with ⟨L, name, len, hpath, _⟩
            apply wp_mono (wp_link_missing (hs3.inv hinv) hpath)
            . intro r s4 hr
              exact Or.inl hr
            . simp
    cases hended with
    | missing d D name len h => exact Or.inr ⟨_, hresolve, by simp [Exit.vn]⟩
    | notdir d D vn name len h => exact Or.inr ⟨_, hresolve, by simp [Exit.vn]⟩
    | link d v D V name len h => simp at hsym
    | found d v D V name len h => apply hrest rfl rfl h List.mem_cons_self (List.Perm.swap _ _ _)
    | here d D name len h => apply hrest rfl rfl h List.mem_cons_self (List.Perm.refl _)
    | tail d v D V name len h => apply hrest rfl rfl h List.mem_cons_self (List.Perm.refl _)

/--
A path with a missing component in front of the last one is refused by `vfs_link` alone, and there only
because of the target.
-/
theorem Call.refused_iff {st : St} {fuel : Nat} {call : Call} (h : Grown st) (hquiet : Quiet st)
    (hmissing : call.InnerMissing st fuel) : call.Refused st fuel ↔ call.NoTarget st fuel := by
  rcases h with ⟨own, hown⟩
  have hinv := hown.grove.forest.inv
  constructor
  . rintro ⟨e, vn, s, hrun, hadded⟩
    cases call with
    | vfs_open path type create =>
      cases create with
      | false => exact hmissing.elim
      | true =>
        rcases hmissing with ⟨L, name, len, hresolve, _⟩
        have hnone := (wp_of_ok hrun).mp (wp_open_missing hinv hresolve)
        cases hnone
    | vfs_mkdir path =>
      rcases hmissing with ⟨L, name, len, hresolve, _⟩
      have hnone := (wp_of_ok hrun).mp (wp_mkdir_missing hinv hresolve)
      cases hnone
    | vfs_symlink path target =>
      rcases hmissing with ⟨L, name, len, hresolve, _⟩
      have hlt : wp ((Call.vfs_symlink path target).run fuel) (fun _ s' => st.nextNode < s'.nextNode)
          (fun _ _ => True) st := by
        unfold run
        rw [wp_bind]
        apply wp_symlink_missing hinv hresolve
      have := (wp_of_ok hrun).mp hlt
      have := hadded.2
      omega
    | vfs_link path target =>
      have hnone : wp ((Call.vfs_link path target).run fuel)
          (fun r _ => r.1 = none ∨ NoTarget st fuel (.vfs_link path target)) (fun _ _ => True) st := by
        unfold run
        rw [wp_bind]
        apply wp_vfs_link_missing hinv hmissing
      simpa using (wp_of_ok hrun).mp hnone
    | _ => exact hmissing.elim
  . intro htarget
    cases call with
    | vfs_link path target =>
      rcases htarget with ⟨e, hresolve, hdir⟩
      rcases ok_of_wp (wp_link_noTarget hquiet hown.grove path hresolve hdir) with
        ⟨r, s, hrun, hr, hadded⟩
      rcases Option.ne_none_iff_exists.mp hr with ⟨error, rfl⟩
      refine ⟨error, none, s, ?_, hadded⟩
      change (Fs.vfs_link path target fuel >>= fun error => pure (error, none)) st = _
      rw [bind_of_ok hrun]
      rfl
    | _ => exact htarget.elim

theorem Quiet.booted : Quiet (booted zeroed) where
  lock := by
    intro v hv
    have hzero : v = 0 := by
      change v < 1 at hv
      omega
    rw [hzero]
    intro _
    rfl
  refcount := by
    intro v hv
    have hzero : v = 0 := by
      change v < 1 at hv
      omega
    rw [hzero]
    decide
  ramlock := by
    intro n
    by_cases hn : n = 0
    . rw [hn]
      rfl
    . simp [Fs.booted, St.vnew, St.updNode, St.addRoot, St.empty, hn]
  idle := by
    intro n
    by_cases hn : n = 0
    . rw [hn]
      intro hnone
      cases hnone
    . simp [Fs.booted, St.vnew, St.updNode, St.addRoot, St.empty, hn]

theorem Call.refused_iff_booted : Call.Refused (booted zeroed) 1 (.vfs_link "/a/b".toList "/c".toList) := by
  refine (Call.refused_iff Grown.booted Quiet.booted ?_).mpr ?_
  . intro s hs
    have hafter : s = after (vfs_link.find "/c".toList 1) (booted zeroed) := by
      unfold after
      rw [hs]
    rw [hafter]
    refine ⟨.old 0, "a/b".toList, 1, ?_, by decide⟩
    rfl
  . refine ⟨.missing (.old 0) "c".toList 1, ?_, by simp [Exit.vn]⟩
    rfl

theorem Call.not_refused_booted
    : Grown (booted zeroed) ∧ Quiet (booted zeroed) ∧
        Call.InnerMissing (booted zeroed) 1 (.vfs_open "/a/b".toList .VREG true) ∧
        ¬ Call.Refused (booted zeroed) 1 (.vfs_open "/a/b".toList .VREG true) := by
  refine ⟨Grown.booted, Quiet.booted, ?_, ?_⟩
  . refine ⟨.old 0, "a/b".toList, 1, ?_, by decide⟩
    rfl
  . rintro ⟨e, vn, s, hrun, _⟩
    have hok : (result ((Call.vfs_open "/a/b".toList .VREG true).run 1) (booted zeroed)).map Prod.fst =
        some none := by
      rfl
    unfold result at hok
    rw [hrun] at hok
    cases hok

@[irreducible]
def madeDir : St :=
  after ((KCall.call (.vfs_mkdir "/a".toList)).run 1) rootMounted

theorem madeDir_reached : KCall.Reached KCall.Orderly zeroed madeDir := by
  unfold madeDir
  apply rootMounted_orderly.after
  . trivial
  . rw [rootMounted_eq]
    rfl

theorem Quiet.madeDir : Quiet madeDir where
  lock := by
    unfold Fs.madeDir
    rw [rootMounted_eq]
    decide
  refcount := by
    unfold Fs.madeDir
    rw [rootMounted_eq]
    decide
  ramlock := by
    intro n
    unfold Fs.madeDir
    rw [rootMounted_eq]
    match n with
    | 0 => rfl
    | 1 => rfl
    | n + 2 => rfl
  idle := by
    intro n
    unfold Fs.madeDir
    rw [rootMounted_eq]
    match n with
    | 0 => decide
    | 1 => decide
    | n + 2 => exact fun _ _ => rfl

end Fs
end Franklin
