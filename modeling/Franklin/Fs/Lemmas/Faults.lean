import Franklin.Fs.Lemmas.Dotdots

/-!
This module contains that a path walk in a quiet state does not wait: what it does not return from, other than
symbolic links without end, is a pointer that leads nowhere.
-/

namespace Franklin
namespace Fs

variable {own : Nat → Nat} {st s : St} {v : Nat} {L : Loc} {name : Name} {fuel : Nat}

theorem wp_of_quiet {α : Type} {x : Prog α} {Q : α → St → Prop} {E : Stop → St → Prop} {P : Prop}
    (hquiet : Quiet st) (hP : ¬ P) (hx : wp x Q (Bad st P) s) : wp x Q E s := by
  apply wp_mono hx
  . intro a s1 h
    exact h
  . intro e s1 he
    exact absurd (he.2 hquiet) hP

section Fault

variable (hgrove : Grove none own st) (hquiet : Quiet st)

include hgrove hquiet

theorem Walked.climb_fault (hw : Walked st s [(v, L)] [] []) (hL : Placed own st L) (hfuel : L.vfs st < fuel)
    (hup : Resolve.up st fuel L = none)
    : wp (lookup.climb fuel v) (fun _ _ => False) (fun e _ => e = .fault) s := by
  have hinv := hgrove.forest.inv
  induction fuel generalizing s v L with
  | zero => omega
  | succ fuel ih =>
    unfold Resolve.up at hup
    unfold lookup.climb
    rw [wp_bind, wp_getSt]
    simp only [hw.rootvn_iff hinv List.mem_cons_self]
    split at hup
    . cases hup
    . next hroot =>
      rw [if_neg hroot]
      apply wp_bind_of (hw.wp_acquire List.mem_cons_self (by simp))
      intro _ s1 hs1
      rcases hs1.members List.mem_cons_self with ⟨_, _, hvfs, hvroot, _⟩
      rw [wp_bind, hs1.wp_getVnode List.mem_cons_self, hvroot, hvfs]
      split at hup
      . cases hup
      . next hflag =>
        rw [if_neg hflag, wp_bind, wp_getVfs, hs1.same.vfss]
        apply wp_bind_of (wp_of_quiet hquiet id (hs1.wp_vput hinv))
        intro _ s2 hs2
        rw [show [v].filter (· ≠ v) = [] by simp] at hs2
        cases hmp : (st.vfss (L.vfs st)).mountpoint with
        | ref w =>
          rw [hmp] at hup
          have hlt := hinv.mountpoint _ w hmp
          dsimp only at hup ⊢
          cases hfreed : (st.vnodes w).freed with
          | true =>
            unfold vref acquire
            rw [wp_bind, wp_bind, wp_bind, Fs.wp_getVnode, hs2.old w hlt]
            refine ⟨fun _ => rfl, ?_⟩
            intro hnot
            simp [hfreed] at hnot
          | false =>
            rw [hfreed, if_neg (by simp)] at hup
            rcases hgrove.mountpoint _ w hmp hfreed (Or.inr hL.live) with ⟨hhere, hattached⟩
            have hless := (hgrove.covered w _ hfreed hhere).2.2.1
            apply wp_bind_of (wp_of_quiet hquiet id
              (hs2.wp_vref (L := .old w) (Or.inr ⟨hlt, rfl, hfreed⟩) (by simp) (by simp)))
            intro _ s3 hs3
            apply ih hs3 (Placed.old hgrove hfreed hattached) _ hup
            change (st.vnodes w).vfs < fuel
            omega
        | null => exact rfl
        | wild => exact rfl

theorem Walked.ramfs_lookup_fault {vpp : Option Nat} {len : Nat} (hw : Walked st s [(v, L)] [v] [])
    (hL : Placed own st L) (hparent : strcmp name ['.', '.'] = 0 → L.type st = .VDIR →
      (st.nodes (L.node st)).parent ≠ L.node st)
    (hlook : Resolve.look st L name len = none)
    : wp (ramfs_lookup v vpp name len) (fun _ _ => False) (fun e _ => e = .fault) s := by
  rcases hw.members List.mem_cons_self with ⟨hdata, htype, _⟩
  unfold ramfs_lookup
  rw [wp_bind, hw.wp_getVnode List.mem_cons_self, hdata, htype, wp_bind, Fs.wp_deref]
  refine ⟨fun _ => rfl, ?_⟩
  intro _
  apply wp_bind_of (wp_of_quiet hquiet (by simp) (hw.wp_acquireNode (L.node st)))
  intro _ s1 hs1
  rw [wp_bind, wp_getNode, hs1.1.same.dentry_eq, hs1.1.same.wild_eq]
  unfold Resolve.look at hlook
  dsimp only at hlook
  rw [if_neg (by simp [(hL.secure hgrove).1])] at hlook
  split at hlook
  . cases hlook
  . next hdir =>
    rw [if_neg hdir]
    rw [not_not] at hdir
    split at hlook
    . cases hlook
    . next hdot =>
      rw [if_neg hdot]
      split at hlook
      . next hdotdot =>
        split at hlook
        . next hself =>
          rcases hself with hself | hfreed
          . exact absurd hself (hparent hdotdot hdir)
          . have hup := hgrove.forest.attached_parent hL.attached (hL.type ▸ hdir)
            rw [(hgrove.forest.secure hup).1] at hfreed
            cases hfreed
        . cases hlook
      . next hdotdot =>
        rw [if_neg hdotdot]
        cases hfind : ramfs_lookup.find name len (st.nodes (L.node st)).dentry with
        | some de =>
          rw [hfind] at hlook
          dsimp only at hlook
          split at hlook
          . next hself =>
            have hmem := Forest.mem_entries (List.mem_of_find?_eq_some hfind)
            rcases hself with hself | hfreed
            . exact absurd hself (Placed.entry_ne hgrove hmem)
            . rw [(hgrove.forest.secure (Or.inr ⟨_, hmem⟩)).1] at hfreed
              cases hfreed
          . cases hlook
        | none =>
          rw [hfind] at hlook
          dsimp only at hlook ⊢
          split at hlook
          . next hwild =>
            rw [if_pos hwild, wp_throw]
          . cases hlook

theorem Walked.component_fault {nd : Nameidata} (hw : Walked st s [(v, L)] [] []) (hL : Placed own st L)
    (hlen : nd.len = compLen nd.name) (hparent : strcmp nd.name ['.', '.'] = 0 → L.type st = .VDIR →
      (st.nodes (L.node st)).parent ≠ L.node st) (hnone : Resolve.component st L nd.name = none)
    : wp (lookup.component st.junk.follow v nd) (fun _ _ => False) (fun e _ => e = .fault) s := by
  unfold lookup.component
  apply wp_bind_of (hw.wp_acquire List.mem_cons_self (by simp))
  intro _ s1 hs1
  apply wp_bind_mono (Walked.ramfs_lookup_fault hgrove hquiet hs1 hL hparent _) (fun _ _ he => he)
  . intro _ _ hfalse
    exact hfalse.elim
  . unfold Resolve.component at hnone
    dsimp only at hnone
    cases hlook : Resolve.look st L nd.name (compLen nd.name) with
    | none =>
      dsimp only
      rw [hlen, hlook]
    | some r =>
      rw [hlook] at hnone
      cases r with
      | error e =>
        cases e with
        | _ => cases hnone
      | ok V =>
        have hV := Placed.look hgrove hL hlook
        have hcross : ∃ W, Resolve.cross st L (st.nextVfs + 1) V = some W :=
          Resolve.cross_some hgrove hL hV (by omega) (by omega)
        rcases hcross with ⟨W, hW⟩
        dsimp only at hnone
        rw [hW] at hnone
        dsimp only at hnone
        split at hnone
        . cases hnone
        . cases hnone

omit hquiet in
theorem parent_ne_of_up (hL : Placed own st L) {D : Loc} (hup : Resolve.up st fuel L = some (.dir D))
    (hdir : D.type st = .VDIR) : (st.nodes (D.node st)).parent ≠ D.node st := by
  have hvroot : D.vroot st = false := by
    clear hL hdir hgrove
    induction fuel generalizing L with
    | zero => cases hup
    | succ fuel ih =>
      unfold Resolve.up at hup
      split at hup
      . cases hup
      . split at hup
        . next hflag =>
          simp only [Option.some.injEq, Resolve.Up.dir.injEq] at hup
          rw [← hup]
          simpa using hflag
        . split at hup
          . split at hup
            . cases hup
            . apply ih hup
          . cases hup
  have hD := (Placed.up hgrove hL).2 D hup
  intro hself
  cases D with
  | old w =>
    have hflag := hgrove.vroot w (hD.alive w rfl) hdir hself
    change (st.vnodes w).vroot = false at hvroot
    rw [hflag] at hvroot
    cases hvroot
  | new vfs n =>
    change (st.nodes n).type = .VDIR at hdir
    change (st.nodes n).parent = n at hself
    unfold Loc.vroot at hvroot
    dsimp only at hvroot
    rw [hdir, hself] at hvroot
    simp at hvroot

theorem Walked.round_fault {nd : Nameidata} {prev : Option Loc} (hw : Walked st s [(v, L)] [] [])
    (hbehind : Behind st s nd.vdir v L prev) (hL : Placed own st L)
    (hnone : Resolve.round st prev L nd.name = none)
    : wp (lookup.round st.junk.follow v nd) (fun _ _ => False) (fun e _ => e = .fault) s := by
  have hinv := hgrove.forest.inv
  unfold Resolve.round at hnone
  unfold lookup.round
  dsimp only
  split at hnone
  . next hname =>
    rw [if_pos hname]
    -- the directory that the round before has given back is not in use any more
    cases prev with
    | none => cases hnone
    | some D =>
      cases D with
      | old w => cases hnone
      | new vfs n =>
        dsimp only at hnone
        split at hnone
        . cases hnone
        . next hne =>
          unfold Behind at hbehind
          dsimp only at hbehind
          rw [if_neg hne] at hbehind
          rcases hbehind with ⟨hdv, hge, hlt⟩
          have hfreed := hw.dropped nd.vdir hge hlt (by simp [refs, Ne.symm hdv])
          unfold vref acquire
          rw [wp_bind, wp_bind, wp_bind, Fs.wp_getVnode]
          refine ⟨fun _ => rfl, ?_⟩
          intro hnot
          rw [hfreed] at hnot
          cases hnot
  . next hname =>
    rw [if_neg hname]
    split at hnone
    . next hdotdot =>
      rw [if_pos hdotdot, wp_bind, wp_getSt, hw.same.nextVfs]
      cases hup : Resolve.up st (st.nextVfs + 1) L with
      | none =>
        have hlt : L.vfs st < st.nextVfs + 1 := by
          have := (hgrove.roots _ hL.live.1).1
          rw [hL.live.2] at this
          omega
        apply wp_bind_mono (Walked.climb_fault hgrove hquiet hw hL hlt hup) (fun _ _ he => he)
        intro _ _ hfalse
        exact hfalse.elim
      | some U =>
        rw [hup] at hnone
        apply wp_bind_of (wp_of_quiet hquiet (by simp [hup]) (hw.wp_climb hinv (st.nextVfs + 1)))
        intro c s1 hs1
        rcases hs1 with ⟨U', hU', hs1⟩
        rw [hup, Option.some.injEq] at hU'
        subst hU'
        cases hs1 with
        | root w X hs1 => cases hnone
        | dir w X hs1 =>
          dsimp only at hnone ⊢
          have hX := (Placed.up hgrove hL).2 X hup
          apply Walked.component_fault hgrove hquiet hs1 hX
          . rfl
          . intro _ hdir
            apply parent_ne_of_up hgrove hL hup hdir
          . exact hnone
    . next hdotdot =>
      rw [if_neg hdotdot]
      apply Walked.component_fault hgrove hquiet hw hL
      . rfl
      . intro heq _
        apply absurd _ hdotdot
        unfold strcmp at heq
        split at heq
        . next hname' =>
          dsimp only at hname'
          rw [hname']
          rfl
        . cases heq
      . exact hnone

theorem Walked.loop_fault {nd : Nameidata} {prev : Option Loc} (hw : Walked st s [(v, L)] [] [])
    (hbehind : Behind st s nd.vdir v L prev) (hsym : nd.issymlink = false) (hL : Placed own st L)
    (hprev : ∀ P, prev = some P → Placed own st P) (hhead : nd.name.head? ≠ some '/')
    (hfuel : nd.name.length < fuel) (hnone : Resolve.lookup st fuel prev L nd.name = none)
    : wp (lookup.loop st.junk.follow fuel v nd) (fun _ _ => False) (fun e _ => e = .fault) s := by
  have hinv := hgrove.forest.inv
  induction fuel generalizing s v L nd prev with
  | zero => omega
  | succ fuel ih =>
    unfold Resolve.lookup at hnone
    unfold lookup.loop
    cases hround : Resolve.round st prev L nd.name with
    | none =>
      apply wp_bind_mono (Walked.round_fault hgrove hquiet hw hbehind hL hround) (fun _ _ he => he)
      intro _ _ hfalse
      exact hfalse.elim
    | some R =>
      rw [hround] at hnone
      apply wp_bind_of (wp_of_quiet hquiet (by simp [hround]) (hw.wp_round hinv hbehind hsym))
      intro r s1 hs1
      rcases hs1 with ⟨R', hR', hs1⟩
      rw [hround, Option.some.injEq] at hR'
      subst hR'
      cases hs1 with
      | done e error nd' hs1 => cases hnone
      | next w D V nd' hsym' hs1 hbehind' =>
        dsimp only at hnone ⊢
        have hrest := Resolve.round_next_name hround
        have hne : nd.name ≠ [] := by
          intro heq
          rw [heq] at hround
          exact Resolve.round_next_ne hround List.drop_nil
        have hlt := length_next_lt hne hhead
        rw [← hrest] at hlt
        cases Placed.round hgrove hprev hL hround with
        | next hD hV =>
          apply ih hs1 hbehind' hsym' hV _ _ (by omega) hnone
          . intro P hP
            rw [← Option.some.inj hP]
            apply hD
          . rw [hrest]
            apply head_skipSlashes

end Fault

end Fs
end Franklin
