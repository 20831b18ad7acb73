import Franklin.Fs.Lemmas.Lookup

/-!
This module contains the walk of `namei`: it ends where `resolve` says and holds the references that the
callers give back.
-/

namespace Franklin
namespace Fs

inductive Ended (st s : St) : Exit → Code × Nameidata → Prop where
  | found (d v : Nat) (D V : Loc) (name : Name) (len : Nat) (h : Walked st s [(v, V), (d, D)] [] [])
      : Ended st s (.found D V) (none, ⟨d, some v, name, len, false⟩)
  | here (d : Nat) (D : Loc) (name : Name) (len : Nat) (h : Walked st s [(d, D), (d, D)] [] [])
      : Ended st s (.here D) (none, ⟨d, some d, name, len, false⟩)
  | tail (d v : Nat) (D V : Loc) (name : Name) (len : Nat) (h : Walked st s [(d, D), (v, V)] [] [])
      : Ended st s (.tail D V) (none, ⟨d, some d, name, len, false⟩)
  | link (d v : Nat) (D V : Loc) (name : Name) (len : Nat) (h : Walked st s [(v, V), (d, D)] [v] [])
      : Ended st s (.link D V (name.drop len)) (none, ⟨d, some v, name, len, true⟩)
  | missing (d : Nat) (D : Loc) (name : Name) (len : Nat) (h : Walked st s [(d, D)] [] [])
      : Ended st s (.missing D name len) (some .ENOENT, ⟨d, none, name, len, false⟩)
  | notdir (d : Nat) (D : Loc) (vn : Option Nat) (name : Name) (len : Nat)
      (h : Walked st s [(d, D)] [] [])
      : Ended st s (.notdir D) (some .ENOTDIR, ⟨d, vn, name, len, false⟩)

def Behind (st s : St) (d v : Nat) (L : Loc) : Option Loc → Prop
  | none => d = v
  | some (.old w) => d = w ∧ d < st.nextVnode ∧ (st.vnodes d).freed = false
  | some (.new vfs n) =>
    if Loc.new vfs n = L then d = v else d ≠ v ∧ st.nextVnode ≤ d ∧ d < s.nextVnode

inductive Rounded (st s : St) : Resolve.Round → lookup.Round → Prop where
  | done (e : Exit) (error : Code) (nd : Nameidata) (h : Ended st s e (error, nd))
      : Rounded st s (.done e) (.done error nd)
  | next (v : Nat) (D V : Loc) (nd : Nameidata) (hnd : nd.issymlink = false)
      (h : Walked st s [(v, V)] [] []) (hbehind : Behind st s nd.vdir v V (some D))
      : Rounded st s (.next D V nd.name) (.next v nd)

inductive Climbed (st s : St) : Resolve.Up → lookup.Climb → Prop where
  | root (v : Nat) (L : Loc) (h : Walked st s [(v, L), (v, L)] [] []) : Climbed st s (.root L) (.root v)
  | dir (v : Nat) (L : Loc) (h : Walked st s [(v, L)] [] []) : Climbed st s (.dir L) (.dir v)

theorem Bad.of_false {st s : St} {P : Prop} {e : Stop} (h : Bad st False e s) : Bad st P e s := by
  apply h.mono False.elim

theorem wp_release_nextVnode {s : St} (v : Nat)
    : wp (release v) (fun _ s' => s'.nextVnode = s.nextVnode) (fun _ _ => True) s := by
  unfold release
  rw [wp_bind, wp_getVnode]
  simp

theorem wp_vput_nextVnode {s : St} (v : Nat)
    : wp (vput v) (fun _ s' => s'.nextVnode = s.nextVnode) (fun _ _ => True) s := by
  unfold vput vfs_close
  rw [wp_bind, wp_getVnode]
  refine ⟨fun _ => trivial, ?_⟩
  intro _
  rw [wp_bind, wp_setVnode]
  split
  . rw [wp_bind]
    apply wp_mono (wp_ramfs_inactive _)
    . intro _ s1 hs1
      rcases hs1 with ⟨nodes, rfl, _⟩
      rw [wp_setVnode]
    . intro _ _ _
      trivial
  . apply wp_release_nextVnode

namespace Walked

variable {st s : St} {held : List (Nat × Loc)} {vl nl : List Nat} {v d : Nat} {L D V : Loc}

theorem rootvn_iff (hinv : Inv st) (h : Walked st s held vl nl) (hv : (v, L) ∈ held)
    : s.rootvn = some v ↔ L.isRootvn st = true := by
  rw [h.same.rootvn]
  by_cases hlt : v < st.nextVnode
  . rw [(h.heldOld v L hv hlt).1]
    simp [Loc.isRootvn]
  . rcases h.heldNew v L hv (by omega) with ⟨_, vfs, n, rfl, _⟩
    simp only [Loc.isRootvn, Bool.false_eq_true, iff_false]
    intro hroot
    have := hinv.rootvn v hroot
    omega

theorem wp_climb (hinv : Inv st) (fuel : Nat) (h : Walked st s [(v, L)] [] [])
    : wp (lookup.climb fuel v) (fun c s' => ∃ U, Resolve.up st fuel L = some U ∧ Climbed st s' U c)
        (Bad st (Resolve.up st fuel L = none)) s := by
  induction fuel generalizing s v L with
  | zero =>
    unfold lookup.climb Resolve.up
    rw [wp_throw]
    exact ⟨h.kept, fun _ => rfl⟩
  | succ fuel ih =>
    unfold lookup.climb Resolve.up
    rw [wp_bind, wp_getSt]
    simp only [h.rootvn_iff hinv List.mem_cons_self]
    split
    . next hroot =>
      apply wp_bind_mono (h.wp_vref (Or.inl List.mem_cons_self) (by simp) (by simp))
        (fun _ _ => Bad.of_false)
      intro _ s1 hs1
      exact ⟨_, rfl, .root v L hs1⟩
    . next hroot =>
      apply wp_bind_of (h.wp_acquire List.mem_cons_self (by simp))
      intro _ s1 hs1
      rcases hs1.members List.mem_cons_self with ⟨_, _, hvfs, hvroot, _⟩
      rw [wp_bind, hs1.wp_getVnode List.mem_cons_self, hvroot, hvfs]
      split
      . next hnot =>
        apply wp_bind_of (hs1.wp_release List.mem_cons_self)
        intro _ s2 hs2
        refine ⟨_, rfl, .dir v L ?_⟩
        simpa using hs2
      . next hnot =>
        rw [wp_bind, wp_getVfs, hs1.same.vfss]
        apply wp_bind_mono (hs1.wp_vput hinv) (fun _ _ => Bad.of_false)
        intro _ s2 hs2
        rw [show [v].filter (· ≠ v) = [] by simp] at hs2
        cases hmp : (st.vfss (L.vfs st)).mountpoint with
        | ref w =>
          have hlt := hinv.mountpoint _ w hmp
          dsimp only
          by_cases hfreed : (st.vnodes w).freed = true
          . simp only [hfreed, if_true]
            unfold vref acquire
            rw [wp_bind, wp_bind, wp_bind, Fs.wp_getVnode, hs2.old w hlt]
            refine ⟨fun _ => ⟨hs2.kept, fun _ => trivial⟩, ?_⟩
            intro hnot
            simp [hfreed] at hnot
          . rw [Bool.not_eq_true] at hfreed
            simp only [hfreed, Bool.false_eq_true, if_false]
            apply wp_bind_mono
              (hs2.wp_vref (L := .old w) (Or.inr ⟨hlt, rfl, hfreed⟩) (by simp) (by simp))
              (fun _ _ => Bad.of_false)
            intro _ s3 hs3
            apply ih hs3
        | null => exact ⟨hs2.kept, fun _ => rfl⟩
        | wild => exact ⟨hs2.kept, fun _ => rfl⟩

theorem wp_cross (hinv : Inv st) (fuel : Nat) (h : Walked st s [(v, V), (d, D)] [v] [])
    : wp (lookup.cross fuel v)
        (fun v' s' => ∃ V', Resolve.cross st D fuel V = some V' ∧
          Walked st s' [(v', V'), (d, D)] [v'] [])
        (Bad st (Resolve.cross st D fuel V = none)) s := by
  induction fuel generalizing s v V with
  | zero =>
    unfold lookup.cross Resolve.cross
    rw [wp_throw]
    exact ⟨h.kept, fun _ => rfl⟩
  | succ fuel ih =>
    rcases h.members List.mem_cons_self with ⟨_, htype, _, _, hmounted⟩
    unfold lookup.cross Resolve.cross
    rw [wp_bind, h.wp_getVnode List.mem_cons_self, htype, hmounted]
    cases hcase : if V.type st = .VDIR then V.mountedhere st else none with
    | none => exact ⟨V, rfl, h⟩
    | some vfs =>
      dsimp only
      apply wp_bind_mono (h.wp_vput hinv) (fun _ _ => Bad.of_false)
      intro _ s1 hs1
      rw [show [v].filter (· ≠ v) = [] by simp] at hs1
      unfold ramfs_root
      rw [wp_bind, wp_bind, wp_getVfs, hs1.same.vfss]
      apply wp_mono (hs1.wp_ramfs_vget hinv (by simp) vfs (st.vfss vfs).root)
      . intro w s2 hs2
        rcases hs2 with ⟨hs2, _, hlive⟩
        simp only [hlive, Bool.false_eq_true, if_false]
        apply wp_bind_of (hs2.wp_acquire List.mem_cons_self (by simp))
        intro _ s3 hs3
        apply ih hs3
      . intro e s2 hs2
        apply hs2.mono
        intro hwhy
        rw [if_pos]
        simpa using hwhy

theorem behind (h : Walked st s [(v, V), (d, D)] vl nl) {s' : St} (h' : Walked st s' [(v, V)] [] [])
    (hnext : s'.nextVnode = s.nextVnode) : Behind st s' d v V (some D) := by
  have hmem : (d, D) ∈ [(v, V), (d, D)] := by simp
  by_cases hlt : d < st.nextVnode
  . rcases h.heldOld d D hmem hlt with ⟨rfl, hfreed, _⟩
    exact ⟨rfl, hlt, hfreed⟩
  . rcases h.heldNew d D hmem (by omega) with ⟨hlt', vfs, n, rfl, _, _, hs⟩
    simp only [Behind]
    by_cases heq : Loc.new vfs n = V
    . -- both are the vnode of the ramnode
      rw [if_pos heq]
      subst heq
      have hge : st.nextVnode ≤ v := by
        by_contra hlt'
        have := (h.heldOld v _ List.mem_cons_self (by omega)).1
        cases this
      rcases h.heldNew v _ List.mem_cons_self hge with ⟨_, vfs', n', hL, _, _, hs'⟩
      rw [Loc.new.injEq] at hL
      rw [← hL.2, hs, Option.some.injEq] at hs'
      apply hs'
    . rw [if_neg heq]
      refine ⟨?_, by omega, by omega⟩
      intro hdv
      subst hdv
      apply heq
      apply h.loc_eq hmem List.mem_cons_self

theorem wp_nextname (hinv : Inv st) {nd : Nameidata} (h : Walked st s [(v, V), (nd.vdir, D)] vl [])
    (hvl : ∀ w ∈ vl, w = v) (hvn : nd.vn = some v) (hsym : nd.issymlink = false)
    : wp (lookup.nextname v nd)
        (fun r s' => Rounded st s' (Resolve.nextname D V nd.next) r) (Bad st False) s := by
  have hfilter : ∀ w, (vl.filter (· ≠ w)).filter (· ≠ v) = [] := by
    intro w
    rw [List.filter_eq_nil_iff]
    intro x hx
    simp [hvl x (List.mem_filter.mp hx).1]
  unfold lookup.nextname Resolve.nextname
  split
  . next hnext =>
    apply wp_bind_of (h.wp_release List.mem_cons_self)
    intro _ s1 hs1
    have hnil : vl.filter (· ≠ v) = [] := by
      rw [List.filter_eq_nil_iff]
      intro x hx
      simp [hvl x hx]
    rw [hnil] at hs1
    rw [wp_pure]
    apply Rounded.done
    have : nd = ⟨nd.vdir, some v, nd.name, nd.len, false⟩ := by
      rw [← hvn, ← hsym]
    rw [this]
    apply Ended.found
    apply hs1
  . next hnext =>
    apply wp_bind_of (wp_conj ((h.perm (List.Perm.swap _ _ _)).wp_vput hinv) (wp_vput_nextVnode nd.vdir))
    intro _ s1 hs1
    apply wp_bind_of (wp_conj (hs1.1.wp_release List.mem_cons_self) (wp_release_nextVnode v))
    intro _ s2 hs2
    rw [hfilter] at hs2
    rw [wp_pure]
    apply Rounded.next v D V { nd with name := skipSlashes nd.next } hsym hs2.1
    apply h.behind hs2.1
    rw [hs2.2, hs1.2]

theorem wp_component (hinv : Inv st) {nd : Nameidata} (h : Walked st s [(v, L)] [] [])
    (hlen : nd.len = compLen nd.name) (hsym : nd.issymlink = false)
    : wp (lookup.component st.junk.follow v nd)
        (fun r s' => ∃ R, Resolve.component st L nd.name = some R ∧ Rounded st s' R r)
        (Bad st (Resolve.component st L nd.name = none)) s := by
  unfold lookup.component Resolve.component
  dsimp only
  rw [← hlen]
  apply wp_bind_of (h.wp_acquire List.mem_cons_self (by simp))
  intro _ s1 hs1
  apply wp_bind_mono (hs1.wp_ramfs_lookup hinv .held nd.vn nd.name nd.len)
  . intro e s2 hs2
    apply hs2.mono
    intro hnone
    rw [hnone]
  . intro r s2 hs2
    generalize hlook : Resolve.look st L nd.name nd.len = looked at hs2
    cases hs2 with
    | notdir hs2 =>
      apply wp_bind_of (hs2.wp_release List.mem_cons_self)
      intro _ s3 hs3
      refine ⟨_, rfl, .done _ _ _ ?_⟩
      rw [hsym]
      apply Ended.notdir
      simpa using hs3
    | missing hs2 =>
      apply wp_bind_of (hs2.wp_release List.mem_cons_self)
      intro _ s3 hs3
      refine ⟨_, rfl, .done _ _ _ ?_⟩
      rw [hsym]
      apply Ended.missing
      simpa using hs3
    | ok w V hs2 =>
      apply wp_bind_of (hs2.wp_release (List.mem_cons_of_mem _ List.mem_cons_self))
      intro _ s3 hs3
      rw [show [v].filter (· ≠ v) = [] by simp] at hs3
      dsimp only
      apply wp_bind_of (hs3.wp_acquire List.mem_cons_self (by simp))
      intro _ s4 hs4
      rw [wp_bind, wp_getSt, hs4.same.nextVfs]
      apply wp_bind_mono (hs4.wp_cross hinv (st.nextVfs + 1))
      . intro e s5 hs5
        apply hs5.mono
        intro hnone
        rw [hnone]
      . intro x s5 hs5
        rcases hs5 with ⟨X, hX, hs5⟩
        rcases hs5.members List.mem_cons_self with ⟨_, htype, _⟩
        rw [wp_bind, hs5.wp_getVnode List.mem_cons_self, htype, hX]
        dsimp only
        split
        . next hlink =>
          dsimp only [Nameidata.next] at hlink
          rw [if_pos hlink]
          refine ⟨_, rfl, .done _ _ _ ?_⟩
          apply Ended.link
          apply hs5
        . next hlink =>
          dsimp only [Nameidata.next] at hlink
          rw [if_neg hlink]
          apply wp_mono (wp_nextname hinv (D := L) hs5 (by simp) rfl (by exact hsym))
          . intro r s6 hs6
            exact ⟨_, rfl, hs6⟩
          . intro e s6
            apply Bad.of_false

theorem wp_round (hinv : Inv st) {nd : Nameidata} {prev : Option Loc} (h : Walked st s [(v, L)] [] [])
    (hbehind : Behind st s nd.vdir v L prev) (hsym : nd.issymlink = false)
    : wp (lookup.round st.junk.follow v nd)
        (fun r s' => ∃ R, Resolve.round st prev L nd.name = some R ∧ Rounded st s' R r)
        (Bad st (Resolve.round st prev L nd.name = none)) s := by
  unfold lookup.round Resolve.round
  dsimp only
  split
  . next hname =>
    -- `vref(ndp->vn)`, where the directory may have been given back before
    have hself : ∀ e, nd.vdir = v →
        (∀ s1, Walked st s1 [(v, L), (v, L)] [] [] →
          Ended st s1 e (none, ⟨v, some v, nd.name, compLen nd.name, false⟩)) →
        wp (do
            vref nd.vdir
            pure (lookup.Round.done none
              { nd with vn := some nd.vdir, len := compLen nd.name }))
          (fun r s' => ∃ R, some (Resolve.Round.done e) = some R ∧ Rounded st s' R r)
          (Bad st (some (Resolve.Round.done e) = none)) s := by
      intro e hd he
      apply wp_bind_mono (h.wp_vref (L := L) (by simp [hd]) (by simp) (by simp))
        (fun _ _ => Bad.of_false)
      intro _ s1 hs1
      refine ⟨_, rfl, .done _ _ _ ?_⟩
      rw [hsym, hd]
      apply he
      rw [hd] at hs1
      apply hs1
    cases prev with
    | none => apply hself _ hbehind (fun s1 hs1 => .here _ _ _ _ hs1)
    | some D =>
      cases D with
      | old w =>
        rcases hbehind with ⟨hd, hlt, hfreed⟩
        dsimp only
        apply wp_bind_mono (h.wp_vref (L := .old w) (Or.inr ⟨hlt, by rw [hd], hfreed⟩) (by simp) (by simp))
          (fun _ _ => Bad.of_false)
        intro _ s1 hs1
        refine ⟨_, rfl, .done _ _ _ ?_⟩
        rw [hsym]
        apply Ended.tail
        apply hs1
      | new vfs n =>
        simp only [Behind] at hbehind
        dsimp only
        by_cases heq : Loc.new vfs n = L
        . rw [if_pos heq] at hbehind ⊢
          apply hself _ hbehind
          intro s1 hs1
          apply Ended.tail
          apply hs1
        . rw [if_neg heq] at hbehind ⊢
          rcases hbehind with ⟨hne, hge, hlt⟩
          have hfreed := h.dropped nd.vdir hge hlt (by simp [refs, Ne.symm hne])
          unfold vref acquire
          rw [wp_bind, wp_bind, wp_bind, Fs.wp_getVnode]
          refine ⟨fun _ => ⟨h.kept, fun _ => rfl⟩, ?_⟩
          intro hnot
          rw [hfreed] at hnot
          cases hnot
  . next hname =>
    split
    . next hdots =>
      rw [wp_bind, wp_getSt, h.same.nextVfs]
      apply wp_bind_mono (h.wp_climb hinv (st.nextVfs + 1))
      . intro e s1 hs1
        apply hs1.mono
        intro hnone
        rw [hnone]
      . intro c s1 hs1
        rcases hs1 with ⟨U, hU, hs1⟩
        rw [hU]
        cases hs1 with
        | root w X hs1 =>
          dsimp only
          apply wp_mono (wp_nextname hinv (D := X) hs1 (by simp) rfl (by exact hsym))
          . intro r s2 hs2
            exact ⟨_, rfl, hs2⟩
          . intro e s2
            apply Bad.of_false
        | dir w X hs1 =>
          dsimp only
          apply hs1.wp_component hinv rfl (by exact hsym)
    . next hdots => apply h.wp_component hinv rfl (by exact hsym)

theorem wp_loop (hinv : Inv st) (fuel : Nat) {nd : Nameidata} {prev : Option Loc}
    (h : Walked st s [(v, L)] [] []) (hbehind : Behind st s nd.vdir v L prev)
    (hsym : nd.issymlink = false)
    : wp (lookup.loop st.junk.follow fuel v nd)
        (fun r s' => ∃ e, Resolve.lookup st fuel prev L nd.name = some e ∧ Ended st s' e r)
        (Bad st (Resolve.lookup st fuel prev L nd.name = none)) s := by
  induction fuel generalizing s v L nd prev with
  | zero =>
    unfold lookup.loop Resolve.lookup
    rw [wp_throw]
    exact ⟨h.kept, fun _ => rfl⟩
  | succ fuel ih =>
    unfold lookup.loop Resolve.lookup
    apply wp_bind_mono (h.wp_round hinv hbehind hsym)
    . intro e s1 hs1
      apply hs1.mono
      intro hnone
      rw [hnone]
    . intro r s1 hs1
      rcases hs1 with ⟨R, hR, hs1⟩
      rw [hR]
      cases hs1 with
      | done e error nd' hs1 => exact ⟨e, rfl, hs1⟩
      | next w D V nd' hsym' hs1 hbehind' =>
        dsimp only
        apply ih hs1 hbehind' hsym'

theorem wp_lookup (hinv : Inv st) {nd : Nameidata} (h : Walked st s [(nd.vdir, L)] [] [])
    : wp (Fs.lookup nd)
        (fun r s' => ∃ e,
          Resolve.lookup st (nd.name.length + 1) none L nd.name = some e ∧ Ended st s' e r)
        (Bad st (Resolve.lookup st (nd.name.length + 1) none L nd.name = none)) s := by
  unfold Fs.lookup
  rw [wp_bind, wp_getSt, h.same.junk]
  have hbehind : Behind st s ({ nd with issymlink := false } : Nameidata).vdir nd.vdir L none := rfl
  exact h.wp_loop hinv _ hbehind rfl

theorem wp_ramfs_readlink (h : Walked st s held vl []) (hv : (v, L) ∈ held)
    : wp (ramfs_readlink v)
        (fun link s' => link = (st.nodes (L.node st)).link ∧ Walked st s' held vl [])
        (Bad st False) s := by
  rcases h.members hv with ⟨hdata, _⟩
  unfold ramfs_readlink
  rw [wp_bind, h.wp_getVnode hv, hdata]
  apply wp_bind_mono (h.wp_acquireNode (L.node st))
  . intro e s1 hs1
    apply hs1.mono
    simp
  . intro _ s1 hs1
    rw [wp_bind, wp_getNode, hs1.1.same.link_eq]
    apply wp_bind_of (hs1.1.wp_releaseNode List.mem_cons_self)
    intro _ s2 hs2
    refine ⟨rfl, ?_⟩
    simpa using hs2.1

end Walked

inductive Starting (st s : St) : Option Nat → Option Loc → Prop where
  | first (h : Walked st s [] [] []) : Starting st s none none
  | behindLink (d : Nat) (D : Loc) (h : Walked st s [(d, D)] [] []) : Starting st s (some d) (some D)

theorem Starting.wp_start {st s : St} {vn : Option Nat} {L : Option Loc} (hinv : Inv st)
    (h : Starting st s vn L) (name : Name)
    : wp (namei.start name vn)
        (fun v s' => ∃ V, Resolve.start st name L = some V ∧ Walked st s' [(v, V)] [] [])
        (Bad st (Resolve.start st name L = none)) s := by
  unfold namei.start Resolve.start
  split
  . next hslash =>
    have hput : wp (vputOpt vn) (fun _ s' => Walked st s' [] [] []) (Bad st False) s := by
      cases h with
      | first h => apply h
      | behindLink d D h =>
        apply wp_mono (h.wp_vput hinv)
        . intro _ s1 hs1
          simpa using hs1
        . intro e s1 hs1
          apply hs1
    apply wp_bind_mono hput (fun _ _ => Bad.of_false)
    intro _ s1 hs1
    rw [wp_bind, wp_getSt, hs1.same.rootfs]
    cases hroot : st.rootfs with
    | none => exact ⟨hs1.kept, fun _ => rfl⟩
    | some vfs =>
      dsimp only [ramfs_root]
      rw [wp_bind, wp_getVfs, hs1.same.vfss]
      apply wp_mono (hs1.wp_ramfs_vget hinv (by simp) vfs (st.vfss vfs).root)
      . intro v s2 hs2
        rcases hs2 with ⟨hs2, _, hlive⟩
        simp only [hlive, Bool.false_eq_true, if_false]
        exact ⟨_, rfl, hs2⟩
      . intro e s2 hs2
        apply hs2.mono
        intro hwhy
        rw [if_pos]
        simpa using hwhy
  . next hslash =>
    cases h with
    | first h => exact ⟨h.kept, fun _ => rfl⟩
    | behindLink d D h => exact ⟨D, rfl, h⟩

theorem Starting.wp_loop {st s : St} {vn : Option Nat} {L : Option Loc} (hinv : Inv st) (fuel : Nat)
    (h : Starting st s vn L) (name : Name) (nd : Nameidata)
    : wp (namei.loop fuel name vn nd)
        (fun r s' => ∃ e, Resolve.namei st fuel name L = some e ∧ Ended st s' e r ∧
          r.2.issymlink = false)
        (Bad st (Resolve.namei st fuel name L = none)) s := by
  induction fuel generalizing s vn L name nd with
  | zero =>
    unfold namei.loop Resolve.namei
    rw [wp_throw]
    refine ⟨?_, fun _ => rfl⟩
    cases h with
    | first h => apply h.kept
    | behindLink d D h => apply h.kept
  | succ fuel ih =>
    unfold namei.loop Resolve.namei
    apply wp_bind_mono (h.wp_start hinv name)
    . intro e s1 hs1
      apply hs1.mono
      intro hnone
      rw [hnone]
    . intro v s1 hs1
      rcases hs1 with ⟨V, hV, hs1⟩
      rw [hV]
      apply wp_bind_mono (Walked.wp_lookup hinv (L := V) (by exact hs1))
      . intro e s2 hs2
        apply hs2.mono
        intro hnone
        dsimp only at hnone ⊢
        rw [hnone]
      . intro r s2 hs2
        rcases hs2 with ⟨e, he, hs2⟩
        dsimp only at he ⊢
        rw [he]
        cases hs2 with
        | found d w D W name' len hs2 => exact ⟨_, rfl, .found d w D W name' len hs2, rfl⟩
        | here d D name' len hs2 => exact ⟨_, rfl, .here d D name' len hs2, rfl⟩
        | tail d w D W name' len hs2 => exact ⟨_, rfl, .tail d w D W name' len hs2, rfl⟩
        | missing d D name' len hs2 => exact ⟨_, rfl, .missing d D name' len hs2, rfl⟩
        | notdir d D vn' name' len hs2 => exact ⟨_, rfl, .notdir d D vn' name' len hs2, rfl⟩
        | link d w D W name' len hs2 =>
          dsimp only
          apply wp_bind_mono (hs2.wp_ramfs_readlink List.mem_cons_self) (fun _ _ => Bad.of_false)
          intro link s3 hs3
          rcases hs3 with ⟨rfl, hs3⟩
          split
          . next hlong =>
            dsimp only [Nameidata.next] at hlong
            rw [if_pos hlong]
            exact ⟨hs3.kept, fun _ => rfl⟩
          . next hlong =>
            dsimp only [Nameidata.next] at hlong
            rw [if_neg hlong]
            apply wp_bind_mono (hs3.wp_vput hinv) (fun _ _ => Bad.of_false)
            intro _ s4 hs4
            apply ih
            apply Starting.behindLink
            simpa using hs4

theorem wp_namei {st : St} (hinv : Inv st) (name : Name) (fuel : Nat)
    : wp (namei name fuel)
        (fun r s => ∃ e, resolve st name fuel = some e ∧ Ended st s e r ∧ r.2.issymlink = false)
        (Bad st (resolve st name fuel = none)) st := by
  unfold namei resolve
  apply Starting.wp_loop hinv fuel (.first (.init st))

end Fs
end Franklin
