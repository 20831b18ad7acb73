import Franklin.Fs.Lemmas.Walked

/-!
This module contains the functions with which a walk takes references and gives them back.
-/

namespace Franklin
namespace Fs

namespace Walked

variable {st s : St} {held : List (Nat × Loc)} {vl nl : List Nat} {v : Nat} {L : Loc}
  {E : Stop → St → Prop}

theorem wp_newVnode (h : Walked st s held vl nl) {vfs n : Nat} (hlive : (st.nodes n).freed = false)
    (hn : (s.nodes n).vnode = none)
    : wp (newVnode vfs n)
        (fun v s' => Walked st s' ((v, .new vfs n) :: held) (v :: vl) nl ∧
          (s'.nodes n).vnode = some v ∧ v ∉ vl) E s := by
  have hst : (st.nodes n).vnode = none := by
    cases h.node n with
    | inl heq => rw [← heq, hn]
    | inr hnew => exact hnew.1
  have hfresh : ∀ L, (s.nextVnode, L) ∉ held := by
    intro L hL
    have := h.lt_nextVnode hL
    omega
  have hrefs : refs held s.nextVnode = 0 := by
    have := mt refs_pos_iff.mp (not_exists.mpr hfresh)
    omega
  have hle := h.next_le
  have hvl : s.nextVnode ∉ vl := by
    intro hmem
    have := (h.vlOld _ hmem).1
    omega
  have hjunk := h.same.junk
  have htype := h.same.type_eq n
  have hparent := h.same.parent_eq n
  refine ⟨?_, by simp, hvl⟩
  constructor
  case same =>
    refine ⟨?_, h.same.vfss, h.same.nextNode, h.same.nextVfs, h.same.rootfs, h.same.rootvn,
      h.same.mountedlist, h.same.vfslistLock, h.same.junk⟩
    intro m
    rw [← h.same.nodes m]
    dsimp only
    by_cases heq : m = n
    . subst heq
      rw [Function.update_self]
      rfl
    . rw [Function.update_of_ne heq]
  case next_le =>
    dsimp only
    omega
  case old =>
    intro w hw
    dsimp only
    rw [Function.update_of_ne (by omega), h.old w hw, refs_cons_of_ne (by omega)]
    have : w ≠ s.nextVnode := by omega
    simp [this]
  case heldOld =>
    intro w L' hw hlt
    cases List.mem_cons.mp hw with
    | inl heq =>
      rw [Prod.mk.injEq] at heq
      omega
    | inr hmem => apply h.heldOld w L' hmem hlt
  case heldNew =>
    intro w L' hw hw'
    dsimp only
    cases List.mem_cons.mp hw with
    | inl heq =>
      rw [Prod.mk.injEq] at heq
      rcases heq with ⟨rfl, rfl⟩
      refine ⟨by omega, vfs, n, rfl, ?_, hst, by simp⟩
      rw [Function.update_self, refs_cons_self, hrefs]
      simp [freshVnode, hjunk, htype, hparent]
    | inr hmem =>
      rcases h.heldNew w L' hmem hw' with ⟨hlt, vfs', m, hL, hvn, hst', hs⟩
      refine ⟨by omega, vfs', m, hL, ?_, hst', ?_⟩
      . rw [Function.update_of_ne (by omega), hvn, refs_cons_of_ne (by omega)]
        have : w ≠ s.nextVnode := by omega
        simp [this]
      . rw [Function.update_of_ne, hs]
        intro heq
        rw [heq, hn] at hs
        cases hs
  case newLive =>
    intro w vfs' m hw
    cases List.mem_cons.mp hw with
    | inr hmem => apply h.newLive w vfs' m hmem
    | inl heq =>
      rw [Prod.mk.injEq, Loc.new.injEq] at heq
      rw [heq.2.2, hlive]
  case dropped =>
    intro w h1 h2 hw
    have hne : w ≠ s.nextVnode := by
      intro heq
      rw [heq, refs_cons_self] at hw
      omega
    dsimp only at h2 ⊢
    rw [Function.update_of_ne hne]
    rw [refs_cons_of_ne (Ne.symm hne)] at hw
    apply h.dropped w h1 _ hw
    omega
  case node =>
    intro m
    dsimp only
    by_cases heq : m = n
    . subst heq
      refine Or.inr ⟨hst, s.nextVnode, vfs, by simp, hle, List.mem_cons_self⟩
    . rw [Function.update_of_ne heq]
      cases h.node m with
      | inl hsame => exact Or.inl hsame
      | inr hnew =>
        rcases hnew with ⟨hnone, w, vfs', hw, hlt, hmem⟩
        exact Or.inr ⟨hnone, w, vfs', hw, hlt, List.mem_cons_of_mem _ hmem⟩
  case vlOld =>
    intro w hw
    dsimp only
    cases List.mem_cons.mp hw with
    | inl heq =>
      rw [heq]
      refine ⟨by omega, ?_⟩
      intro hlt
      omega
    | inr hmem =>
      refine ⟨?_, (h.vlOld w hmem).2⟩
      have := (h.vlOld w hmem).1
      omega
  case ramlock =>
    intro m
    dsimp only
    rw [← h.ramlock m]
    by_cases heq : m = n
    . subst heq
      rw [Function.update_self]
    . rw [Function.update_of_ne heq]
  case nlOld => apply h.nlOld
  case freed =>
    intro m
    dsimp only
    by_cases heq : m = n
    . subst heq
      rw [Function.update_self]
      apply h.freed m
    . rw [Function.update_of_ne heq]
      apply h.freed m

theorem vnode_eq_some (hinv : Inv st) (h : Walked st s held vl nl) {n : Nat} (vfs : Nat)
    (hn : (s.nodes n).vnode = some v)
    : (v, Loc.get st (held.map Prod.snd) vfs n) ∈ held ∨
        v < st.nextVnode ∧ Loc.get st (held.map Prod.snd) vfs n = .old v ∧
          (st.vnodes v).freed = false := by
  cases h.node n with
  | inl heq =>
    rw [hn] at heq
    have hlinked := hinv.linked n v heq.symm
    apply Or.inr
    refine ⟨hlinked.1, ?_, hlinked.2.2.1⟩
    unfold Loc.get
    rw [← heq]
  | inr hnew =>
    rcases hnew with ⟨hnone, w, vfs', hw, _, hmem⟩
    rw [hn, Option.some.injEq] at hw
    subst hw
    apply Or.inl
    unfold Loc.get
    rw [hnone]
    dsimp only
    split
    . next L' hfind =>
      have hL' := List.mem_of_find?_eq_some hfind
      have hpred := List.find?_some hfind
      rcases List.mem_map.mp hL' with ⟨p, hp, rfl⟩
      cases hloc : p.2 with
      | old u => simp [hloc] at hpred
      | new vfs'' m =>
        simp only [hloc, decide_eq_true_eq] at hpred
        subst hpred
        -- both are the vnode of the ramnode, so they are the same
        have hp' : (p.1, Loc.new vfs'' m) ∈ held := by
          rw [← hloc]
          apply hp
        have hge : st.nextVnode ≤ p.1 := by
          by_contra hlt
          have := (h.heldOld p.1 _ hp' (by omega)).1
          cases this
        rcases h.heldNew p.1 _ hp' hge with ⟨_, vfs3, m', hL3, _, _, hs⟩
        rw [Loc.new.injEq] at hL3
        rw [← hL3.2, hn, Option.some.injEq] at hs
        rw [hs]
        apply hp'
    . next hfind =>
      exfalso
      rw [List.find?_eq_none] at hfind
      have := hfind _ (List.mem_map.mpr ⟨_, hmem, rfl⟩)
      simp at this

theorem get_of_none (h : Walked st s held vl nl) {n : Nat} (vfs : Nat) (hn : (s.nodes n).vnode = none)
    : Loc.get st (held.map Prod.snd) vfs n = .new vfs n := by
  have hst : (st.nodes n).vnode = none := by
    cases h.node n with
    | inl heq => rw [← heq, hn]
    | inr hnew => exact hnew.1
  unfold Loc.get
  rw [hst]
  dsimp only
  split
  . next L' hfind =>
    exfalso
    have hpred := List.find?_some hfind
    rcases List.mem_map.mp (List.mem_of_find?_eq_some hfind) with ⟨p, hp, rfl⟩
    cases hloc : p.2 with
    | old u => simp [hloc] at hpred
    | new vfs'' m =>
      simp only [hloc, decide_eq_true_eq] at hpred
      subst hpred
      have hp' : (p.1, Loc.new vfs'' m) ∈ held := by
        rw [← hloc]
        apply hp
      have hge : st.nextVnode ≤ p.1 := by
        by_contra hlt
        have := (h.heldOld p.1 _ hp' (by omega)).1
        cases this
      rcases h.heldNew p.1 _ hp' hge with ⟨_, vfs3, m', hL3, _, _, hs⟩
      rw [Loc.new.injEq] at hL3
      rw [← hL3.2, hn] at hs
      cases hs
  . rfl

theorem wp_ramfs_vget (hinv : Inv st) (h : Walked st s held vl nl) (hlen : held.length ≤ 3)
    (vfs n : Nat)
    : wp (ramfs_vget vfs n)
        (fun v s' => Walked st s' ((v, Loc.get st (held.map Prod.snd) vfs n) :: held) vl nl ∧ n ∉ nl ∧
          (st.nodes n).freed = false)
        (Bad st (n ∈ nl ∨ (st.nodes n).freed = true ∨ ∃ v ∈ vl, (s.nodes n).vnode = some v)) s := by
  have hfalse : ∀ {P : Prop} e s1, Bad st False e s1 → Bad st P e s1 := by
    intro P e s1 hs1
    exact ⟨hs1.1, fun hq => (hs1.2 hq).elim⟩
  unfold ramfs_vget
  apply wp_bind_of
  . apply wp_mono (h.wp_deref n)
    . intro _ s1 hs1
      apply hs1
    . intro e s1 hs1
      exact ⟨hs1.1, fun hq => Or.inr (Or.inl (hs1.2 hq))⟩
  intro _ s0 hs0
  rcases hs0 with ⟨rfl, hlive⟩
  apply wp_bind_of
  . apply wp_mono (h.wp_acquireNode n)
    . intro _ s1 hs1
      apply hs1
    . intro e s1 hs1
      exact ⟨hs1.1, fun hq => Or.inl (hs1.2 hq)⟩
  . intro _ s1 hs1
    rcases hs1 with ⟨hs1, hn, hvnode⟩
    rw [wp_bind, wp_getNode]
    cases hcase : (s1.nodes n).vnode with
    | none =>
      dsimp only
      rw [hs1.get_of_none vfs hcase]
      apply wp_bind_of (hs1.wp_newVnode hlive hcase)
      intro v s2 hs2
      rcases hs2 with ⟨hs2, _, hvl⟩
      apply wp_bind_of (hs2.wp_release List.mem_cons_self)
      intro _ s3 hs3
      rw [filter_ne_of_not_mem hvl] at hs3
      apply wp_bind_of (hs3.wp_releaseNode List.mem_cons_self)
      intro _ s4 hs4
      rw [filter_ne_of_not_mem hn] at hs4
      exact ⟨hs4.1, hn, hlive⟩
    | some v =>
      dsimp only
      have hloc := hs1.vnode_eq_some hinv vfs hcase
      generalize Loc.get st (held.map Prod.snd) vfs n = L at *
      by_cases hvl : v ∈ vl
      . -- the lock is already held
        unfold acquire
        have hlock : (s1.vnodes v).lock = true := by
          cases hloc with
          | inl hheld => simp [hs1.lock_eq hheld, hvl]
          | inr hold =>
            rw [hs1.old v hold.1]
            simp [hvl]
        have hbad : ∀ e, Bad st (n ∈ nl ∨ (st.nodes n).freed = true ∨ ∃ v ∈ vl, (s0.nodes n).vnode = some v) e s1 := by
          intro e
          refine ⟨hs1.kept, ?_⟩
          intro _
          rw [hvnode] at hcase
          exact Or.inr (Or.inr ⟨v, hvl, hcase⟩)
        rw [wp_bind, wp_bind, Fs.wp_getVnode]
        refine ⟨fun _ => hbad _, ?_⟩
        intro _
        rw [if_pos hlock, wp_throw]
        apply hbad
      . apply wp_bind_of (wp_mono (hs1.wp_acquire_any hloc hvl) (fun _ _ h => h) hfalse)
        intro _ s2 hs2
        apply wp_bind_of (wp_mono (hs2.1.wp_vref_locked hs2.2 hlen) (fun _ _ h => h) hfalse)
        intro _ s3 hs3
        apply wp_bind_of (hs3.wp_release List.mem_cons_self)
        intro _ s4 hs4
        rw [filter_ne_of_not_mem hvl] at hs4
        apply wp_bind_of (hs4.wp_releaseNode List.mem_cons_self)
        intro _ s5 hs5
        rw [filter_ne_of_not_mem hn] at hs5
        exact ⟨hs5.1, hn, hlive⟩

theorem dropRef (h : Walked st s ((v, L) :: held) vl nl) (hv : v < st.nextVnode ∨ refs held v ≠ 0)
    : Walked st
        { s with
          vnodes := Function.update s.vnodes v
            { s.vnodes v with lock := false, refcount := (s.vnodes v).refcount - 1 } }
        held (vl.filter (· ≠ v)) nl := by
  have hmem : ∀ w L', (w, L') ∈ held → (w, L') ∈ (v, L) :: held := fun w L' hw =>
    List.mem_cons_of_mem _ hw
  constructor
  case same => apply h.same.setVnodes
  case next_le => apply h.next_le
  case old =>
    intro w hw
    dsimp only
    by_cases heq : w = v
    . subst heq
      rw [Function.update_self, h.old w hw, refs_cons_self]
      simp only [Vnode.mk.injEq, true_and, and_true]
      refine ⟨by omega, ?_⟩
      simp [(h.heldOld w L List.mem_cons_self hw).2.2]
    . rw [Function.update_of_ne heq, h.old w hw, refs_cons_of_ne (Ne.symm heq)]
      simp [heq]
  case heldOld =>
    intro w L' hw
    apply h.heldOld w L' (hmem w L' hw)
  case heldNew =>
    intro w L' hw hle
    rcases h.heldNew w L' (hmem w L' hw) hle with ⟨hlt, vfs, n, hL, hvn, hst, hs⟩
    refine ⟨hlt, vfs, n, hL, ?_, hst, hs⟩
    dsimp only
    by_cases heq : w = v
    . subst heq
      rw [Function.update_self, hvn, refs_cons_self]
      simp [freshVnode]
    . rw [Function.update_of_ne heq, hvn, refs_cons_of_ne (Ne.symm heq)]
      simp [heq]
  case newLive =>
    intro w vfs n hw
    apply h.newLive w vfs n (hmem w _ hw)
  case dropped =>
    intro w h1 h2 hrefs
    have hne : w ≠ v := by
      intro heq
      rw [heq] at hrefs h1
      omega
    dsimp only
    rw [Function.update_of_ne hne]
    apply h.dropped w h1 h2
    rw [refs_cons_of_ne (Ne.symm hne)]
    apply hrefs
  case node =>
    intro n
    cases h.node n with
    | inl heq => exact Or.inl heq
    | inr hnew =>
      rcases hnew with ⟨hnone, w, vfs, hw, hle, hin⟩
      refine Or.inr ⟨hnone, w, vfs, hw, hle, ?_⟩
      cases List.mem_cons.mp hin with
      | inr hin => apply hin
      | inl heq =>
        rw [Prod.mk.injEq] at heq
        rcases heq with ⟨rfl, rfl⟩
        -- another reference to this vnode is left
        have hpos : 0 < refs held w := by
          cases hv with
          | inl hlt => omega
          | inr hne => omega
        rcases refs_pos_iff.mp hpos with ⟨L', hL'⟩
        rw [h.loc_eq List.mem_cons_self (hmem w L' hL')]
        apply hL'
  case vlOld =>
    intro w hw
    apply h.vlOld w (List.mem_filter.mp hw).1
  case ramlock => apply h.ramlock
  case nlOld => apply h.nlOld
  case freed => apply h.freed

theorem dropNew {vfs n : Nat} (h : Walked st s ((v, .new vfs n) :: held) vl nl)
    (hle : st.nextVnode ≤ v)
    (hrefs : refs held v = 0) {nodes : Nat → RamNode} {vn : Vnode}
    (hcore : ∀ m, (nodes m).core = (s.nodes m).core)
    (hvnode : ∀ m, (nodes m).vnode = if m = n then none else (s.nodes m).vnode)
    (hlock : ∀ m, (nodes m).ramlock = (s.nodes m).ramlock) (hfreed : vn.freed = true)
    (hfree : ∀ m, (nodes m).freed = if m = n ∧ (s.nodes n).linkcount = 0 then true else (s.nodes m).freed)
    : Walked st { s with nodes, vnodes := Function.update s.vnodes v vn } held
        (vl.filter (· ≠ v)) nl := by
  have hmem : ∀ w L', (w, L') ∈ held → (w, L') ∈ (v, Loc.new vfs n) :: held := fun w L' hw =>
    List.mem_cons_of_mem _ hw
  have hne : ∀ w L', (w, L') ∈ held → w ≠ v := by
    intro w L' hw heq
    have := refs_pos_iff.mpr ⟨L', hw⟩
    rw [heq] at this
    omega
  rcases h.heldNew v _ List.mem_cons_self hle with ⟨hvlt, vfs', n', hL, hvn, hst, hs⟩
  rw [Loc.new.injEq] at hL
  rcases hL with ⟨rfl, rfl⟩
  constructor
  case same =>
    refine ⟨?_, h.same.vfss, h.same.nextNode, h.same.nextVfs, h.same.rootfs, h.same.rootvn,
      h.same.mountedlist, h.same.vfslistLock, h.same.junk⟩
    intro m
    rw [← h.same.nodes m]
    apply hcore
  case next_le => apply h.next_le
  case old =>
    intro w hw
    dsimp only
    have hwv : w ≠ v := by omega
    rw [Function.update_of_ne hwv, h.old w hw, refs_cons_of_ne (Ne.symm hwv)]
    simp [hwv]
  case heldOld =>
    intro w L' hw
    apply h.heldOld w L' (hmem w L' hw)
  case heldNew =>
    intro w L' hw hwle
    have hwv := hne w L' hw
    rcases h.heldNew w L' (hmem w L' hw) hwle with ⟨hlt, vfs', m, hL, hvn', hst', hs'⟩
    refine ⟨hlt, vfs', m, hL, ?_, hst', ?_⟩
    . dsimp only
      rw [Function.update_of_ne hwv, hvn', refs_cons_of_ne (Ne.symm hwv)]
      simp [hwv]
    . dsimp only
      rw [hvnode, if_neg, hs']
      intro heq
      rw [heq, hs, Option.some.injEq] at hs'
      exact hwv hs'.symm
  case newLive =>
    intro w vfs' m hw
    apply h.newLive w vfs' m (hmem w _ hw)
  case dropped =>
    intro w h1 h2 hw
    dsimp only
    by_cases heq : w = v
    . rw [heq, Function.update_self, hfreed]
    . rw [Function.update_of_ne heq]
      apply h.dropped w h1 h2
      rw [refs_cons_of_ne (Ne.symm heq)]
      apply hw
  case node =>
    intro m
    dsimp only
    rw [hvnode]
    split
    . next heq => exact Or.inl (heq ▸ hst.symm)
    . next hmn =>
      cases h.node m with
      | inl heq => exact Or.inl heq
      | inr hnew =>
        rcases hnew with ⟨hnone, w, vfs', hw, hwle, hin⟩
        refine Or.inr ⟨hnone, w, vfs', hw, hwle, ?_⟩
        cases List.mem_cons.mp hin with
        | inr hin => apply hin
        | inl heq =>
          rw [Prod.mk.injEq, Loc.new.injEq] at heq
          exact absurd heq.2.2 hmn
  case vlOld =>
    intro w hw
    apply h.vlOld w (List.mem_filter.mp hw).1
  case ramlock =>
    intro m
    dsimp only
    rw [hlock]
    apply h.ramlock
  case nlOld => apply h.nlOld
  case freed =>
    intro m
    dsimp only
    rw [hfree]
    split
    . next hm =>
      rw [h.same.linkcount_eq] at hm
      rw [hm.1]
      exact Or.inr ⟨rfl, hm.2, hst⟩
    . apply h.freed m

end Walked

theorem wp_setPrev {s : St} (p prev : Ptr)
    : wp (setPrev p prev)
        (fun _ s' => ∃ nodes, s' = { s with nodes } ∧
          ∀ m, nodes m = { s.nodes m with prev := (nodes m).prev })
        (fun _ s' => s' = s) s := by
  cases p with
  | null => exact ⟨s.nodes, rfl, fun m => rfl⟩
  | wild => rfl
  | ref n =>
    simp only [setPrev, wp_bind, wp_deref, wp_setNode]
    refine ⟨fun _ => trivial, ?_⟩
    intro _
    refine ⟨_, rfl, ?_⟩
    intro m
    by_cases heq : m = n
    . subst heq
      simp
    . simp [Function.update_of_ne heq]

theorem wp_ramfs_free_node {s : St} (n : Nat)
    : wp (ramfs_free_node n)
        (fun _ s' => ∃ nodes, s' = { s with nodes } ∧
          (∀ m, nodes m = { s.nodes m with prev := (nodes m).prev, freed := (nodes m).freed }) ∧
          ∀ m, (nodes m).freed = if m = n then true else (s.nodes m).freed)
        (fun _ s' => s' = s) s := by
  unfold ramfs_free_node
  rw [wp_bind, wp_deref]
  refine ⟨fun _ => rfl, ?_⟩
  intro _
  rw [wp_bind, wp_getNode]
  apply wp_bind_of (wp_setPrev _ _)
  intro _ s1 hs1
  rcases hs1 with ⟨nodes, rfl, hnodes⟩
  rw [wp_setNode]
  refine ⟨_, rfl, ?_, ?_⟩
  . intro m
    by_cases heq : m = n
    . subst heq
      rw [Function.update_self]
      dsimp only
      rw [hnodes m]
    . rw [Function.update_of_ne heq]
      dsimp only
      rw [hnodes m]
  . intro m
    by_cases heq : m = n
    . subst heq
      rw [Function.update_self, if_pos rfl]
    . rw [Function.update_of_ne heq, if_neg heq]
      dsimp only
      rw [hnodes m]

theorem wp_ramfs_inactive {s : St} (n : Nat)
    : wp (ramfs_inactive n)
        (fun _ s' => ∃ nodes, s' = { s with nodes } ∧ (∀ m, (nodes m).core = (s.nodes m).core) ∧
          (∀ m, (nodes m).vnode = if m = n then none else (s.nodes m).vnode) ∧
          (∀ m, (nodes m).ramlock = (s.nodes m).ramlock) ∧
          ∀ m, (nodes m).freed =
            if m = n ∧ (s.nodes n).linkcount = 0 then true else (s.nodes m).freed)
        (fun _ s' => s'.vnodes = s.vnodes ∧
          ((s.nodes n).freed = true ∨ (s.nodes n).ramlock = true ∨ (s.nodes n).linkcount = 0)) s := by
  unfold ramfs_inactive acquireNode
  rw [wp_bind, wp_deref]
  refine ⟨fun hfreed => ⟨rfl, Or.inl hfreed⟩, ?_⟩
  intro _
  rw [wp_bind, wp_bind, wp_getNode]
  split
  . next hlock =>
    rw [wp_throw]
    exact ⟨rfl, Or.inr (Or.inl hlock)⟩
  . next hlock =>
    rw [Bool.not_eq_true] at hlock
    simp only [wp_setNode, wp_bind, wp_getNode, Function.update_self, Function.update_idem]
    -- from here on only the lock has to be given back
    have hrelease : ∀ nodes : Nat → RamNode,
        (∀ m, nodes m =
          { Function.update s.nodes n { s.nodes n with ramlock := true, vnode := none } m with
            prev := (nodes m).prev, freed := (nodes m).freed }) →
        (∀ m, (nodes m).freed =
          if m = n ∧ (s.nodes n).linkcount = 0 then true else (s.nodes m).freed) →
        ∃ nodes', { s with nodes := Function.update nodes n { nodes n with ramlock := false } }
            = { s with nodes := nodes' } ∧ (∀ m, (nodes' m).core = (s.nodes m).core) ∧
          (∀ m, (nodes' m).vnode = if m = n then none else (s.nodes m).vnode) ∧
          (∀ m, (nodes' m).ramlock = (s.nodes m).ramlock) ∧
          ∀ m, (nodes' m).freed =
            if m = n ∧ (s.nodes n).linkcount = 0 then true else (s.nodes m).freed := by
      intro nodes hnodes hfreed
      refine ⟨_, rfl, ?_, ?_, ?_, ?_⟩
      . intro m
        by_cases heq : m = n
        . subst heq
          rw [Function.update_self, hnodes m, Function.update_self]
          rfl
        . rw [Function.update_of_ne heq, hnodes m, Function.update_of_ne heq]
          rfl
      . intro m
        by_cases heq : m = n
        . subst heq
          rw [Function.update_self, hnodes m, Function.update_self, if_pos rfl]
        . rw [Function.update_of_ne heq, hnodes m, Function.update_of_ne heq, if_neg heq]
      . intro m
        by_cases heq : m = n
        . subst heq
          rw [Function.update_self, hlock]
        . rw [Function.update_of_ne heq, hnodes m, Function.update_of_ne heq]
      . intro m
        rw [← hfreed m]
        by_cases heq : m = n
        . subst heq
          rw [Function.update_self]
        . rw [Function.update_of_ne heq]
    split
    . next hcount =>
      rw [wp_bind]
      apply wp_mono (wp_ramfs_free_node n)
      . intro _ s1 hs1
        rcases hs1 with ⟨nodes, rfl, hnodes, hfreed⟩
        unfold releaseNode
        rw [wp_setNode]
        apply hrelease nodes hnodes
        intro m
        rw [hfreed]
        by_cases heq : m = n
        . rw [if_pos heq, if_pos ⟨heq, hcount⟩]
        . rw [if_neg heq, if_neg (fun h => heq h.1)]
          dsimp only
          rw [Function.update_of_ne heq]
      . intro e s1 hs1
        rw [hs1]
        exact ⟨rfl, Or.inr (Or.inr hcount)⟩
    . next hcount =>
      unfold releaseNode
      rw [wp_setNode]
      apply hrelease
      . intro m
        rfl
      . intro m
        rw [if_neg (fun h => hcount h.2)]
        dsimp only
        by_cases heq : m = n
        . subst heq
          rw [Function.update_self]
        . rw [Function.update_of_ne heq]

namespace Walked

variable {st s : St} {held : List (Nat × Loc)} {vl : List Nat} {v : Nat} {L : Loc}

theorem wp_vput (hinv : Inv st) (h : Walked st s ((v, L) :: held) vl [])
    : wp (vput v) (fun _ s' => Walked st s' held (vl.filter (· ≠ v)) []) (Bad st False) s := by
  have hheld : (v, L) ∈ (v, L) :: held := List.mem_cons_self
  have hfreed := h.freed_eq_false hheld
  unfold vput vfs_close
  rw [wp_bind, h.wp_getVnode hheld, wp_bind, wp_setVnode]
  by_cases hlast : (s.vnodes v).refcount - 1 = 0
  . -- only a vnode that the walk has made can lose its last reference
    have hge : st.nextVnode ≤ v := by
      by_contra hlt
      have hcount := hinv.counted v (by omega) (h.heldOld v L hheld (by omega)).2.1
      rw [h.old v (by omega), refs_cons_self] at hlast
      dsimp only at hlast
      omega
    rcases h.heldNew v L hheld hge with ⟨hvlt, vfs, n, rfl, hvn, hst, hs⟩
    have hrefs : refs held v = 0 := by
      rw [hvn, refs_cons_self] at hlast
      simp only [freshVnode] at hlast
      omega
    have hdata : (s.vnodes v).data = n := by
      rw [hvn]
      rfl
    rw [if_pos hlast, wp_bind, hdata]
    apply wp_mono (wp_ramfs_inactive n)
    . intro _ s1 hs1
      rcases hs1 with ⟨nodes, rfl, hcore, hvnode, hlock, hfree⟩
      rw [wp_setVnode]
      simp only [Function.update_idem]
      apply h.dropNew hge hrefs hcore hvnode hlock
      . rfl
      . apply hfree
    . intro e s1 hs1
      rcases hs1 with ⟨hvnodes, hwhy⟩
      constructor
      . intro w hw hwfreed
        rw [hvnodes]
        dsimp only
        rw [Function.update_of_ne (by omega)]
        apply h.kept w hw hwfreed
      . intro hq
        have hlive := h.newLive v vfs n hheld
        have hunlinked : (st.nodes n).linkcount ≠ 0 := by
          intro hcount
          rw [hq.idle n hst hcount] at hlive
          cases hlive
        rcases hwhy with hfreed' | hlock | hcount
        . cases h.freed n with
          | inl heq =>
            rw [heq, hlive] at hfreed'
            cases hfreed'
          | inr hdropped => exact hunlinked hdropped.2.1
        . rw [h.ramlock n, hq.ramlock n] at hlock
          simp at hlock
        . apply hunlinked
          rw [← h.same.linkcount_eq n]
          apply hcount
  . rw [if_neg hlast]
    unfold release
    rw [wp_bind, Fs.wp_getVnode]
    refine ⟨by simp [hfreed], ?_⟩
    intro _
    rw [wp_setVnode]
    simp only [Function.update_self, Function.update_idem]
    apply h.dropRef
    by_cases hlt : v < st.nextVnode
    . exact Or.inl hlt
    . rcases h.heldNew v L hheld (by omega) with ⟨_, vfs, n, _, hvn, _⟩
      apply Or.inr
      intro hzero
      apply hlast
      rw [hvn, refs_cons_self, hzero]
      rfl

end Walked

end Fs
end Franklin
