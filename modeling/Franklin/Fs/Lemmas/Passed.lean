import Franklin.Fs.Lemmas.Locks
import Franklin.Fs.Lemmas.Reports
import Franklin.Fs.Lemmas.Dotdots

/-!
This module contains that a path walk waits for a lock only if it comes by a vnode that somebody has locked
before.
-/

namespace Franklin
namespace Fs

namespace Resolve

def passed (st : St) : Nat → Option Loc → Loc → Name → List Loc
  | 0, _, _, _ => []
  | fuel + 1, prev, L, name =>
    match round st prev L name with
    | none => []
    | some (.done e) => e.vn.toList
    | some (.next vdir vn name) => vn :: passed st fuel (some vdir) vn name

def trail (st : St) : Nat → Name → Option Loc → List Loc
  | 0, _, _ => []
  | fuel + 1, name, L =>
    match start st name L with
    | none => []
    | some L =>
      passed st ((skipSlashes name).length + 1) none L (skipSlashes name) ++
        match lookup st ((skipSlashes name).length + 1) none L (skipSlashes name) with
        | some (.link vdir vn next) =>
          let link := (st.nodes (vn.node st)).link
          if namei.bufsize ≤ (link ++ next).length then
            []
          else
            trail st fuel (namei.concat link next) (some vdir)
        | _ => []

end Resolve

section Accesses

variable {s : St} {v n vfs : Nat} {M : Prop}

theorem wp_release_stuck : wp (release v) (fun _ _ => True) (Stuck M) s := by
  unfold release
  rw [wp_bind, wp_getVnode]
  exact ⟨fun _ => .of_ne (by simp), fun _ => trivial⟩

theorem wp_vref_locked_stuck : wp (vref_locked v) (fun _ _ => True) (Stuck M) s := by
  unfold vref_locked
  rw [wp_bind, wp_getVnode]
  refine ⟨fun _ => .of_ne (by simp), ?_⟩
  intro _
  split
  . exact wp_throw_stuck (by simp)
  . trivial

theorem wp_acquire_stuck (hlock : (s.vnodes v).freed = false → (s.vnodes v).lock = true → M)
    : wp (acquire v) (fun _ _ => True) (Stuck M) s := by
  unfold acquire
  rw [wp_bind, wp_getVnode]
  refine ⟨fun _ => .of_ne (by simp), ?_⟩
  intro hfreed
  split
  . next h => exact fun _ => hlock hfreed h
  . trivial

theorem wp_vref_stuck (hlock : (s.vnodes v).freed = false → (s.vnodes v).lock = true → M)
    : wp (vref v) (fun _ _ => True) (Stuck M) s := by
  unfold vref
  apply wp_bind_of (wp_acquire_stuck hlock)
  intro _ s1 _
  apply wp_bind_of wp_vref_locked_stuck
  intro _ s2 _
  apply wp_release_stuck

theorem wp_inactive_stuck (hlock : (s.nodes n).ramlock = false)
    : wp (ramfs_inactive n) (fun _ _ => True) (Stuck M) s := by
  unfold ramfs_inactive
  rw [wp_bind, wp_deref]
  refine ⟨fun _ => .of_ne (by simp), ?_⟩
  intro _
  rw [wp_bind, wp_acquireNode_iff]
  refine ⟨by simp [hlock], ?_⟩
  intro _
  rw [wp_bind, wp_setNode, wp_bind, wp_getNode]
  split
  . have hfree : ∀ s1, wp (ramfs_free_node n) (fun _ _ => True) (Stuck M) s1 := by
      intro s1
      unfold ramfs_free_node
      rw [wp_bind, wp_deref]
      refine ⟨fun _ => .of_ne (by simp), ?_⟩
      intro _
      rw [wp_bind, wp_getNode]
      cases (s1.nodes n).next with
      | null => trivial
      | ref m =>
        unfold setPrev
        rw [wp_bind, wp_bind, wp_deref]
        exact ⟨fun _ => .of_ne (by simp), fun _ => trivial⟩
      | wild => exact wp_throw_stuck (by simp)
    apply wp_bind_of (hfree _)
    intro _ _ _
    trivial
  . trivial

theorem wp_close_stuck (hlock : (s.nodes (s.vnodes v).data).ramlock = false)
    : wp (vfs_close v) (fun _ _ => True) (Stuck M) s := by
  unfold vfs_close
  rw [wp_bind, wp_getVnode]
  refine ⟨fun _ => .of_ne (by simp), ?_⟩
  intro _
  rw [wp_bind, wp_setVnode]
  split
  . apply wp_bind_of (wp_inactive_stuck (by exact hlock))
    intro _ _ _
    trivial
  . apply wp_release_stuck

theorem wp_vget_stuck (hn : (s.nodes n).ramlock = true → M)
    (hv : ∀ v, (s.nodes n).vnode = some v → (s.vnodes v).lock = true → M)
    : wp (ramfs_vget vfs n) (fun _ _ => True) (Stuck M) s := by
  unfold ramfs_vget
  rw [wp_bind, wp_deref]
  refine ⟨fun _ => .of_ne (by simp), ?_⟩
  intro _
  rw [wp_bind, wp_acquireNode_iff]
  refine ⟨fun hlock _ => hn hlock, ?_⟩
  intro _
  rw [wp_bind, wp_getNode]
  simp only [St.updNode_nodes_self]
  cases hvnode : (s.nodes n).vnode with
  | none =>
    have hnew : wp (newVnode vfs n) (fun _ _ => True) (Stuck M)
      (s.updNode n fun node => { node with ramlock := true }) := trivial
    apply wp_bind_of hnew
    intro w s1 _
    apply wp_bind_of wp_release_stuck
    intro _ _ _
    trivial
  | some v =>
    dsimp only
    apply wp_bind_of (wp_acquire_stuck (by exact fun _ hlock => hv v hvnode hlock))
    intro _ s1 _
    apply wp_bind_of wp_vref_locked_stuck
    intro _ s2 _
    apply wp_bind_of wp_release_stuck
    intro _ s3 _
    trivial

end Accesses

theorem Loc.get_of_vnode {st : St} {held : List Loc} {vfs n v : Nat} (h : (st.nodes n).vnode = some v)
    : Loc.get st held vfs n = .old v := by
  unfold Loc.get
  rw [h]

namespace Walked

variable {st s : St} {own : Nat → Nat} {held : List (Nat × Loc)} {list : Bool} {vt vl nl : List Nat} {v d n vfs : Nat}
  {L D V : Loc} {M : Prop} (hl : Locked list vt [] st)

include hl

theorem ramlock_of_locked (h : Walked st s held vl nl) (hlock : (s.nodes n).ramlock = true) : n ∈ nl := by
  rw [h.ramlock n, Bool.or_eq_true, decide_eq_true_eq] at hlock
  rcases hlock with hold | hn
  . exact absurd (hl.ramnode n hold) List.not_mem_nil
  . apply hn

theorem lock_of_locked (h : Walked st s held vl nl) (hv : v < st.nextVnode) (hfreed : (st.vnodes v).freed = false)
    (hlock : (s.vnodes v).lock = true) : v ∈ vt ∨ v ∈ vl := by
  rw [h.old v hv] at hlock
  simp only [Bool.or_eq_true, decide_eq_true_eq] at hlock
  rcases hlock with hold | hvl
  . exact Or.inl (hl.vnode v hfreed hold)
  . exact Or.inr hvl

theorem stuck_vref (h : Walked st s held [] nl) (hv : (∃ L, (v, L) ∈ held) ∨ v < st.nextVnode ∧
    (st.vnodes v).freed = false ∧ (v ∈ vt → M)) : wp (vref v) (fun _ _ => True) (Stuck M) s := by
  apply wp_vref_stuck
  intro _ hlock
  rcases hv with ⟨L, hheld⟩ | ⟨hlt, hfreed, hM⟩
  . rw [h.lock_eq hheld] at hlock
    simp at hlock
  . rcases h.lock_of_locked hl hlt hfreed hlock with hvt | hvl
    . apply hM hvt
    . cases hvl

theorem stuck_vput (h : Walked st s held vl []) : wp (vput v) (fun _ _ => True) (Stuck M) s := by
  apply wp_close_stuck
  by_contra hlock
  rw [Bool.not_eq_false] at hlock
  exact absurd (h.ramlock_of_locked hl hlock) List.not_mem_nil

theorem stuck_vget (hinv : Inv st) (h : Walked st s held vl nl) (hnl : n ∈ nl → M)
    (hvl : ∀ v ∈ vl, (s.nodes n).vnode = some v → M) (hvt : ∀ v ∈ vt, (st.nodes n).vnode = some v → M)
    : wp (ramfs_vget vfs n) (fun _ _ => True) (Stuck M) s := by
  apply wp_vget_stuck
  . intro hlock
    exact hnl (h.ramlock_of_locked hl hlock)
  . intro v hvnode hlock
    rcases h.node n with heq | ⟨_, w, vfs', hw, hle, hmem⟩
    . rw [hvnode] at heq
      rcases hinv.linked n v heq.symm with ⟨hlt, _, hfreed, _⟩
      rcases h.lock_of_locked hl hlt hfreed hlock with hvt' | hvl'
      . exact hvt v hvt' heq.symm
      . exact hvl v hvl' hvnode
    . rw [hvnode, Option.some.injEq] at hw
      subst hw
      rw [h.lock_eq hmem, decide_eq_true_eq] at hlock
      exact hvl v hlock hvnode

theorem stuck_vget_entry (hinv : Inv st) (h : Walked st s [(v, L)] [v] [L.node st]) (hne : n ≠ L.node st)
    (hvt : ∀ w ∈ vt, Loc.get st [L] (L.vfs st) n = .old w → M)
    : wp (do
          let w ← ramfs_vget (L.vfs st) n
          releaseNode (L.node st)
          pure ((none : Code), some w)) (fun _ _ => True) (Stuck M) s := by
  have hvget : wp (ramfs_vget (L.vfs st) n) (fun _ _ => True) (Stuck M) s := by
    apply h.stuck_vget hl hinv
    . intro hn
      exact absurd (List.mem_singleton.mp hn) hne
    . intro w hw hvnode
      rw [List.mem_singleton.mp hw] at hvnode
      exact absurd (h.node_eq_of_vnode hinv List.mem_cons_self hvnode) hne
    . intro w hw hvnode
      apply hvt w hw
      apply Loc.get_of_vnode hvnode
  apply wp_bind_of hvget
  intro w s1 _
  trivial

theorem stuck_ramfs_lookup (hgrove : Grove none own st) (hL : Placed own st L) (h : Walked st s [(v, L)] [v] [])
    (vpp : Option Nat) (name : Name) (len : Nat)
    (hup : strcmp name ['.', '.'] = 0 → L.type st = .VDIR → (st.nodes (L.node st)).parent ≠ L.node st)
    : wp (ramfs_lookup v vpp name len) (fun _ _ => True)
        (Stuck (∃ w ∈ vt, Resolve.look st L name len = some (.ok (.old w)))) s := by
  have hinv := hgrove.forest.inv
  rcases h.members List.mem_cons_self with ⟨hdata, htype, hvfs, _⟩
  unfold ramfs_lookup
  rw [wp_bind, h.wp_getVnode List.mem_cons_self, hdata, htype, hvfs, wp_bind, Fs.wp_deref]
  refine ⟨fun _ => .of_ne (by simp), ?_⟩
  intro _
  have hnode : wp (acquireNode (L.node st)) (fun _ s1 => Walked st s1 [(v, L)] [v] [L.node st])
      (Stuck (∃ w ∈ vt, Resolve.look st L name len = some (.ok (.old w)))) s := by
    have hlock : wp (acquireNode (L.node st)) (fun _ _ => True)
        (Stuck (∃ w ∈ vt, Resolve.look st L name len = some (.ok (.old w)))) s := by
      rw [wp_acquireNode_iff]
      refine ⟨?_, fun _ => trivial⟩
      intro hlock
      exact absurd (h.ramlock_of_locked hl hlock) List.not_mem_nil
    apply wp_mono (wp_conj hlock (wp_mono (h.wp_acquireNode (L.node st)) (fun _ _ h => h) (by simp)))
    . intro _ s1 hs1
      apply hs1.2.1
    . intro e s1 he
      apply he
  apply wp_bind_of hnode
  intro _ s1 hs1
  rw [wp_bind, wp_getNode, hs1.same.parent_eq, hs1.same.dentry_eq, hs1.same.wild_eq]
  split
  . trivial
  . next hdir =>
    split
    . apply wp_bind_of wp_vref_locked_stuck
      intro _ _ _
      trivial
    . next hdot =>
      split
      . next hdots =>
        rw [not_not] at hdir
        have hne := hup hdots hdir
        apply hs1.stuck_vget_entry hl hinv hne
        intro w hw hget
        refine ⟨w, hw, ?_⟩
        unfold Resolve.look
        dsimp only
        have hup := hgrove.forest.attached_parent hL.attached (hL.type ▸ hdir)
        rw [if_neg (by simp [(hL.secure hgrove).1]), if_neg (by simp [hdir]), if_neg hdot, if_pos hdots,
          if_neg (not_or.mpr ⟨hne, by simp [(hgrove.forest.secure hup).1]⟩), hget]
      . next hdots =>
        cases hfind : ramfs_lookup.find name len (st.nodes (L.node st)).dentry with
        | none =>
          dsimp only
          split
          . exact wp_throw_stuck (by simp)
          . trivial
        | some entry =>
          rw [not_not] at hdir
          have hmem := Forest.mem_entries (List.mem_of_find?_eq_some hfind)
          have hne := Placed.entry_ne hgrove hmem
          apply hs1.stuck_vget_entry hl hinv hne
          intro w hw hget
          refine ⟨w, hw, ?_⟩
          unfold Resolve.look
          dsimp only
          rw [if_neg (by simp [(hL.secure hgrove).1]), if_neg (by simp [hdir]), if_neg hdot, if_neg hdots, hfind]
          dsimp only
          rw [if_neg (not_or.mpr ⟨hne, by simp [(hgrove.forest.secure (Or.inr ⟨_, hmem⟩)).1]⟩), hget]

theorem stuck_readlink (h : Walked st s held vl []) (hv : (v, L) ∈ held)
    : wp (ramfs_readlink v) (fun _ _ => True) (Stuck M) s := by
  unfold ramfs_readlink
  rw [wp_bind, h.wp_getVnode hv, wp_bind, wp_acquireNode_iff]
  refine ⟨?_, fun _ => trivial⟩
  intro hlock
  exact absurd (h.ramlock_of_locked hl hlock) List.not_mem_nil

theorem stuck_nextname {nd : Nameidata} (h : Walked st s [(v, V), (nd.vdir, D)] vl [])
    : wp (lookup.nextname v nd) (fun _ _ => True) (Stuck M) s := by
  unfold lookup.nextname
  split
  . apply wp_bind_of wp_release_stuck
    intro _ _ _
    trivial
  . apply wp_bind_of ((h.perm (List.Perm.swap _ _ _)).stuck_vput hl)
    intro _ s1 _
    apply wp_bind_of wp_release_stuck
    intro _ _ _
    trivial

variable (ht : ∀ v ∈ vt, (st.vnodes v).type ≠ .VDIR)

include ht

theorem stuck_root (hgrove : Grove none own st) (h : Walked st s held [] []) (hlive : Live own st vfs)
    : wp (ramfs_root vfs) (fun _ _ => True) (Stuck M) s := by
  unfold ramfs_root
  rw [wp_bind, wp_getVfs, h.same.vfss]
  apply h.stuck_vget hl hgrove.forest.inv (by simp) (by simp)
  intro v hv hvnode
  have hroot := hlive.1.2.1
  rw [St.hier_node] at hroot
  have htype := (hgrove.forest.inv.linked _ v hvnode).2.2.2
  exact absurd (htype.trans (by simpa [RamNode.hnode] using hroot)) (ht v hv)

theorem stuck_climb (hgrove : Grove none own st) (fuel : Nat) (h : Walked st s [(v, L)] [] []) (hL : Placed own st L)
    : wp (lookup.climb fuel v) (fun _ _ => True) (Stuck M) s := by
  have hinv := hgrove.forest.inv
  induction fuel generalizing s v L with
  | zero => exact wp_throw_stuck (by simp)
  | succ fuel ih =>
    unfold lookup.climb
    rw [wp_bind, wp_getSt]
    split
    . apply wp_bind_of (h.stuck_vref hl (Or.inl ⟨L, List.mem_cons_self⟩))
      intro _ _ _
      trivial
    . apply wp_bind_of (h.wp_acquire List.mem_cons_self (by simp))
      intro _ s1 hs1
      rcases hs1.members List.mem_cons_self with ⟨_, _, hvfs, _, _⟩
      rw [wp_bind, hs1.wp_getVnode List.mem_cons_self, hvfs]
      split
      . apply wp_bind_of wp_release_stuck
        intro _ _ _
        trivial
      . rw [wp_bind, wp_getVfs, hs1.same.vfss]
        apply wp_bind_of (wp_conj (hs1.stuck_vput hl) (wp_mono (hs1.wp_vput hinv) (fun _ _ h => h) (by simp)))
        intro _ s2 hs2
        rcases hs2 with ⟨_, hs2⟩
        rw [show [v].filter (· ≠ v) = [] by simp] at hs2
        cases hmp : (st.vfss (L.vfs st)).mountpoint with
        | null => exact wp_throw_stuck (by simp)
        | wild => exact wp_throw_stuck (by simp)
        | ref w =>
          have hlt := hinv.mountpoint _ w hmp
          dsimp only
          cases hfreed : (st.vnodes w).freed with
          | true =>
            unfold vref acquire
            rw [wp_bind, wp_bind, wp_bind, Fs.wp_getVnode, hs2.old w hlt]
            refine ⟨fun _ => .of_ne (by simp), ?_⟩
            intro hnot
            rw [hfreed] at hnot
            cases hnot
          | false =>
            -- what a file system is mounted on is a directory
            rcases hgrove.mountpoint _ w hmp hfreed (Or.inr hL.live) with ⟨hmounted, hattached⟩
            have htype := (hgrove.covered w _ hfreed hmounted).2.1
            have hvref := hs2.stuck_vref (M := M) hl (Or.inr ⟨hlt, hfreed, fun hvt => absurd htype (ht w hvt)⟩)
            apply wp_bind_of (wp_conj hvref (wp_mono (hs2.wp_vref (L := .old w) (Or.inr ⟨hlt, rfl, hfreed⟩)
              (by simp) (by simp)) (fun _ _ h => h) (by simp)))
            intro _ s3 hs3
            apply ih hs3.2 (Placed.old hgrove hfreed hattached)

theorem stuck_cross (hgrove : Grove none own st) (fuel : Nat) (h : Walked st s [(v, V), (d, D)] [v] [])
    (hD : Placed own st D) (hV : Placed own st V)
    : wp (lookup.cross fuel v) (fun _ _ => True) (Stuck M) s := by
  have hinv := hgrove.forest.inv
  induction fuel generalizing s v V with
  | zero => exact wp_throw_stuck (by simp)
  | succ fuel ih =>
    rcases h.members List.mem_cons_self with ⟨_, htype, _, _, hmounted⟩
    unfold lookup.cross
    rw [wp_bind, h.wp_getVnode List.mem_cons_self, htype, hmounted]
    cases hcase : if V.type st = .VDIR then V.mountedhere st else none with
    | none => trivial
    | some vfs =>
      have hlive : Live own st vfs := by
        split at hcase
        . cases V with
          | old w => exact (hgrove.covered w vfs (hV.alive w rfl) hcase).2.2.2.2 (by simp)
          | new w m => cases hcase
        . cases hcase
      dsimp only
      apply wp_bind_of (wp_conj (h.stuck_vput hl) (wp_mono (h.wp_vput hinv) (fun _ _ h => h) (by simp)))
      intro _ s1 hs1
      rcases hs1 with ⟨_, hs1⟩
      rw [show [v].filter (· ≠ v) = [] by simp] at hs1
      have hroot : wp (ramfs_root vfs) (fun w s2 => Walked st s2
          [(w, Loc.get st [D] vfs (st.vfss vfs).root), (d, D)] [] []) (fun _ _ => True) s1 := by
        unfold ramfs_root
        rw [wp_bind, wp_getVfs, hs1.same.vfss]
        apply wp_mono (hs1.wp_ramfs_vget hinv (by simp) vfs (st.vfss vfs).root)
        . intro w s2 hs2
          apply hs2.1
        . simp
      apply wp_bind_of (wp_conj (hs1.stuck_root hl ht hgrove hlive) hroot)
      intro w s2 hs2
      apply wp_bind_of (hs2.2.wp_acquire List.mem_cons_self (by simp))
      intro _ s3 hs3
      apply ih hs3
      apply Placed.get hgrove
      . intro L' hL'
        rw [List.mem_singleton] at hL'
        rw [hL']
        apply hD
      . apply Or.inl hlive.1
      . intro _
        exact hlive.2.symm
      . apply hlive

omit hl in
theorem cross_old (fuel : Nat) {w : Nat} (hw : w ∈ vt) : Resolve.cross st D (fuel + 1) (.old w) = some (.old w) := by
  unfold Resolve.cross
  rw [if_neg (by exact ht w hw)]

theorem stuck_component (hgrove : Grove none own st) {nd : Nameidata} (follow : Bool) (h : Walked st s [(v, L)] [] [])
    (hL : Placed own st L) (hlen : nd.len = compLen nd.name)
    (hup : strcmp nd.name ['.', '.'] = 0 → L.type st = .VDIR → (st.nodes (L.node st)).parent ≠ L.node st)
    : wp (lookup.component follow v nd) (fun _ _ => True)
        (Stuck (∃ w ∈ vt, ∃ R, Resolve.component st L nd.name = some R ∧ R.vn = some (.old w))) s := by
  have hinv := hgrove.forest.inv
  unfold lookup.component
  dsimp only
  apply wp_bind_of (h.wp_acquire List.mem_cons_self (by simp))
  intro _ s1 hs1
  have hlookup := hs1.stuck_ramfs_lookup hl hgrove hL nd.vn nd.name nd.len hup
  apply wp_bind_mono (wp_conj hlookup (wp_mono (hs1.wp_ramfs_lookup hinv .held nd.vn nd.name nd.len)
    (fun _ _ h => h) (by simp)))
  . intro e s2 he
    refine Stuck.mono he ?_
    rintro ⟨w, hw, hlook⟩
    refine ⟨w, hw, ?_⟩
    unfold Resolve.component
    dsimp only
    rw [← hlen, hlook]
    dsimp only
    rw [cross_old ht _ hw]
    dsimp only
    split
    . exact ⟨_, rfl, rfl⟩
    . exact ⟨_, rfl, (Resolve.nextname_ends _ _ _).2⟩
  . intro r s2 hs2
    rcases hs2 with ⟨_, hs2⟩
    generalize hlook : Resolve.look st L nd.name nd.len = looked at hs2
    cases hs2 with
    | notdir hs2 =>
      apply wp_bind_of wp_release_stuck
      intro _ _ _
      trivial
    | missing hs2 =>
      apply wp_bind_of wp_release_stuck
      intro _ _ _
      trivial
    | ok w V hs2 =>
      have hV := Placed.look hgrove hL hlook
      apply wp_bind_of (hs2.wp_release (List.mem_cons_of_mem _ List.mem_cons_self))
      intro _ s3 hs3
      rw [show [v].filter (· ≠ v) = [] by simp] at hs3
      apply wp_bind_of (hs3.wp_acquire List.mem_cons_self (by simp))
      intro _ s4 hs4
      rw [wp_bind, wp_getSt]
      apply wp_bind_of (wp_conj (hs4.stuck_cross hl ht hgrove _ hL hV)
        (wp_mono (hs4.wp_cross hinv (s4.nextVfs + 1)) (fun _ _ h => h) (by simp)))
      intro x s5 hs5
      rcases hs5 with ⟨_, X, _, hs5⟩
      rw [wp_bind, hs5.wp_getVnode List.mem_cons_self]
      split
      . trivial
      . apply stuck_nextname hl hs5

theorem stuck_round (hgrove : Grove none own st) {nd : Nameidata} {prev : Option Loc} (h : Walked st s [(v, L)] [] [])
    (hL : Placed own st L) (hbehind : Behind st s nd.vdir v L prev)
    : wp (lookup.round st.junk.follow v nd) (fun _ _ => True)
        (Stuck (∃ w ∈ vt, ∃ R, Resolve.round st prev L nd.name = some R ∧ R.vn = some (.old w))) s := by
  have hinv := hgrove.forest.inv
  unfold lookup.round Resolve.round
  dsimp only
  split
  . next hname =>
    have hvref : wp (vref nd.vdir) (fun _ _ => True) (Stuck (∃ w ∈ vt, prev = some (.old w))) s := by
      cases prev with
      | none =>
        apply h.stuck_vref hl
        rw [show nd.vdir = v from hbehind]
        exact Or.inl ⟨L, List.mem_cons_self⟩
      | some D =>
        cases D with
        | old w =>
          rcases hbehind with ⟨hd, hlt, hfreed⟩
          apply h.stuck_vref hl
          refine Or.inr ⟨hlt, hfreed, ?_⟩
          intro hvt
          exact ⟨nd.vdir, hvt, by rw [hd]⟩
        | new vfs n =>
          apply wp_vref_stuck
          intro hfreed hlock
          simp only [Behind] at hbehind
          split at hbehind
          . rw [hbehind, h.lock_eq List.mem_cons_self] at hlock
            simp at hlock
          . rcases hbehind with ⟨hne, hge, hlt⟩
            rw [h.dropped nd.vdir hge hlt (by simp [refs, Ne.symm hne])] at hfreed
            cases hfreed
    apply wp_bind_mono hvref
    . intro e s1 he
      refine Stuck.mono he ?_
      rintro ⟨w, hw, rfl⟩
      exact ⟨w, hw, _, rfl, rfl⟩
    . intro _ _ _
      trivial
  . split
    . next hdots =>
      rw [wp_bind, wp_getSt, h.same.nextVfs]
      apply wp_bind_of (wp_conj (h.stuck_climb hl ht hgrove _ hL)
        (wp_mono (h.wp_climb hinv (st.nextVfs + 1)) (fun _ _ h => h) (by simp)))
      intro c s1 hs1
      rcases hs1 with ⟨_, U, hU, hs1⟩
      rw [hU]
      cases hs1 with
      | root w X hs1 =>
        exact stuck_nextname hl (by exact hs1)
      | dir w X hs1 =>
        have hX := (Placed.up hgrove hL).2 X hU
        apply hs1.stuck_component hl ht hgrove _ hX rfl
        intro _ hdir hparent
        have hvroot := hX.vroot_of_parent hgrove hdir hparent
        rw [(Resolve.up_dir hU).2] at hvroot
        cases hvroot
    . next hdots =>
      apply h.stuck_component hl ht hgrove _ hL rfl
      intro heq
      exfalso
      by_cases hname : nd.name = ['.', '.']
      . rw [hname] at hdots
        exact hdots (by decide)
      . exact strcmp_ne hname heq

omit hl ht

theorem held_unlocked {w : Nat} (h : Walked st s held vl nl) (hv : (v, .old w) ∈ held)
    : (st.vnodes w).lock = false := by
  have hvw := h.old_held hv
  subst hvw
  by_cases hlt : v < st.nextVnode
  . exact (h.heldOld v _ hv hlt).2.2
  . rcases h.heldNew v _ hv (by omega) with ⟨_, vfs, n, hnew, _⟩
    cases hnew

end Walked

section Walk

variable {st s : St} {own : Nat → Nat} {list : Bool} {vt : List Nat} {v w : Nat} {L : Loc}

theorem Ended.unlocked {e : Exit} {r : Code × Nameidata} (h : Ended st s e r) (hw : e.vn = some (.old w))
    : (st.vnodes w).lock = false := by
  cases h with
  | found d v D V name len h =>
    rw [Exit.vn, Option.some.injEq] at hw
    rw [hw] at h
    apply h.held_unlocked List.mem_cons_self
  | here d D name len h =>
    rw [Exit.vn, Option.some.injEq] at hw
    rw [hw] at h
    apply h.held_unlocked List.mem_cons_self
  | tail d v D V name len h =>
    rw [Exit.vn, Option.some.injEq] at hw
    rw [hw] at h
    apply h.held_unlocked List.mem_cons_self
  | link d v D V name len h =>
    rw [Exit.vn, Option.some.injEq] at hw
    rw [hw] at h
    apply h.held_unlocked List.mem_cons_self
  | missing d D name len h => cases hw
  | notdir d D vn name len h => cases hw

variable (hl : Locked list vt [] st) (ht : ∀ v ∈ vt, (st.vnodes v).type ≠ .VDIR) (hgrove : Grove none own st)

include hl ht hgrove

theorem Walked.wp_loop_passed (fuel : Nat) {nd : Nameidata} {prev : Option Loc} (h : Walked st s [(v, L)] [] [])
    (hprev : ∀ P, prev = some P → Placed own st P) (hL : Placed own st L) (hbehind : Behind st s nd.vdir v L prev)
    (hsym : nd.issymlink = false)
    : wp (lookup.loop st.junk.follow fuel v nd)
        (fun _ _ => ∀ w, (st.vnodes w).lock = true → .old w ∉ Resolve.passed st fuel prev L nd.name)
        (Stuck (∃ w ∈ vt, .old w ∈ Resolve.passed st fuel prev L nd.name)) s := by
  have hinv := hgrove.forest.inv
  induction fuel generalizing s v L nd prev with
  | zero => exact wp_throw_stuck (by simp)
  | succ fuel ih =>
    unfold lookup.loop Resolve.passed
    apply wp_bind_mono (wp_conj (h.stuck_round hl ht hgrove hL hbehind)
      (wp_mono (h.wp_round hinv hbehind hsym) (fun _ _ h => h) (by simp)))
    . intro e s1 he
      refine Stuck.mono he ?_
      rintro ⟨w, hw, R, hR, hvn⟩
      refine ⟨w, hw, ?_⟩
      rw [hR]
      cases R with
      | done e =>
        change e.vn = _ at hvn
        simp [hvn]
      | next D V name =>
        change some V = _ at hvn
        simp [Option.some.inj hvn]
    . intro r s1 hs1
      rcases hs1 with ⟨_, R, hR, hs1⟩
      have hplaced := Placed.round hgrove hprev hL hR
      rw [hR]
      cases hs1 with
      | done e error nd' hs1 =>
        intro w hlock hmem
        dsimp only at hmem
        rw [Option.mem_toList] at hmem
        rw [hs1.unlocked hmem] at hlock
        cases hlock
      | next u D V nd' hsym' hs1 hbehind' =>
        dsimp only
        cases hplaced with
        | next hD hV =>
        have hprev' : ∀ P, some D = some P → Placed own st P := by
          intro P hP
          rw [← Option.some.inj hP]
          apply hD
        apply wp_mono (ih hs1 hprev' hV hbehind' hsym')
        . intro _ _ hnot w hlock hmem
          rcases List.mem_cons.mp hmem with heq | hin
          . rw [← heq] at hs1
            rw [hs1.held_unlocked List.mem_cons_self] at hlock
            cases hlock
          . exact hnot w hlock hin
        . intro e s2 he
          refine Stuck.mono he ?_
          rintro ⟨w, hw, hmem⟩
          exact ⟨w, hw, List.mem_cons_of_mem _ hmem⟩

theorem Walked.wp_lookup_passed {nd : Nameidata} (h : Walked st s [(nd.vdir, L)] [] []) (hL : Placed own st L)
    : wp (Fs.lookup nd)
        (fun _ _ => ∀ w, (st.vnodes w).lock = true →
          .old w ∉ Resolve.passed st (nd.name.length + 1) none L nd.name)
        (Stuck (∃ w ∈ vt, .old w ∈ Resolve.passed st (nd.name.length + 1) none L nd.name)) s := by
  unfold Fs.lookup
  rw [wp_bind, wp_getSt, h.same.junk]
  have hbehind : Behind st s ({ nd with issymlink := false } : Nameidata).vdir nd.vdir L none := rfl
  exact Walked.wp_loop_passed hl ht hgrove _ h (by simp) hL hbehind rfl

theorem Starting.stuck_start {M : Prop} {vn : Option Nat} {D : Option Loc} (h : Starting st s vn D) (name : Name)
    : wp (namei.start name vn) (fun _ _ => True) (Stuck M) s := by
  have hinv := hgrove.forest.inv
  unfold namei.start
  split
  . have hput : wp (vputOpt vn) (fun _ s' => Walked st s' [] [] []) (Stuck M) s := by
      cases h with
      | first h => apply h
      | behindLink d D h =>
        apply wp_mono (wp_conj (h.stuck_vput (M := M) hl) (wp_mono (h.wp_vput hinv) (fun _ _ h => h) (by simp)))
        . intro _ s1 hs1
          simpa using hs1.2
        . intro e s1 he
          apply he
    apply wp_bind_of hput
    intro _ s1 hs1
    rw [wp_bind, wp_getSt, hs1.same.rootfs]
    cases hroot : st.rootfs with
    | none => exact wp_throw_stuck (by simp)
    | some vfs => apply hs1.stuck_root hl ht hgrove ((hgrove.rootfs vfs hroot).2.2.2 (by simp))
  . cases vn with
    | none => exact wp_throw_stuck (by simp)
    | some v => trivial

theorem Starting.wp_loop_trail (fuel : Nat) {vn : Option Nat} {D : Option Loc} (h : Starting st s vn D)
    (hD : ∀ L, D = some L → Placed own st L) (name : Name) (nd : Nameidata)
    : wp (namei.loop fuel name vn nd)
        (fun _ _ => ∀ w, (st.vnodes w).lock = true → .old w ∉ Resolve.trail st fuel name D)
        (Stuck (∃ w ∈ vt, .old w ∈ Resolve.trail st fuel name D)) s := by
  have hinv := hgrove.forest.inv
  induction fuel generalizing s vn D name nd with
  | zero => exact wp_throw_stuck (by simp)
  | succ fuel ih =>
    unfold namei.loop Resolve.trail
    apply wp_bind_of (wp_conj (Starting.stuck_start hl ht hgrove h name)
      (wp_mono (h.wp_start hinv name) (fun _ _ h => h) (by simp)))
    intro v s1 hs1
    rcases hs1 with ⟨_, V, hstart, hs1⟩
    have hV := Placed.start hgrove hD hstart
    rw [hstart]
    dsimp only
    apply wp_bind_mono (wp_conj (Walked.wp_lookup_passed hl ht hgrove (L := V) (by exact hs1) hV)
      (wp_mono (Walked.wp_lookup hinv (L := V) (by exact hs1)) (fun _ _ h => h) (by simp)))
    . intro e s2 he
      refine Stuck.mono he ?_
      rintro ⟨w, hw, hmem⟩
      exact ⟨w, hw, List.mem_append_left _ hmem⟩
    . intro r s2 hs2
      rcases hs2 with ⟨hpassed, e, he, hs2⟩
      dsimp only at he hpassed ⊢
      rw [he]
      have hplaced := Placed.lookup hgrove (by simp) hV he
      have hnil : (∀ w, (st.vnodes w).lock = true → .old w ∉
          Resolve.passed st ((skipSlashes name).length + 1) none V (skipSlashes name) ++ []) := by
        simpa using hpassed
      cases hs2 with
      | found d u D' W name' len hs2 => exact hnil
      | here d D' name' len hs2 => exact hnil
      | tail d u D' W name' len hs2 => exact hnil
      | missing d D' name' len hs2 => exact hnil
      | notdir d D' vn' name' len hs2 => exact hnil
      | link d u D' W name' len hs2 =>
        dsimp only
        apply wp_bind_of (wp_conj (hs2.stuck_readlink hl List.mem_cons_self)
          (wp_mono (hs2.wp_ramfs_readlink List.mem_cons_self) (fun _ _ h => h) (by simp)))
        intro link s3 hs3
        rcases hs3 with ⟨_, rfl, hs3⟩
        by_cases hsize : namei.bufsize ≤ ((st.nodes (W.node st)).link ++ name'.drop len).length
        . simp only [if_pos hsize]
          split
          . exact wp_throw_stuck (by simp)
          . next hnot => exact absurd hsize hnot
        . simp only [if_neg hsize]
          split
          . next hlong => exact absurd hlong hsize
          apply wp_bind_of (wp_conj (hs3.stuck_vput hl) (wp_mono (hs3.wp_vput hinv) (fun _ _ h => h) (by simp)))
          intro _ s4 hs4
          have hstarting : Starting st s4 (some d) (some D') := by
            apply Starting.behindLink
            simpa using hs4.2
          have hplaced' : ∀ P, some D' = some P → Placed own st P := by
            intro P hP
            cases hplaced with
            | link hD' _ =>
              rw [← Option.some.inj hP]
              apply hD'
          apply wp_mono (ih hstarting hplaced' _ _)
          . intro _ _ hnot w hlock hmem
            rcases List.mem_append.mp hmem with hin | hin
            . exact hpassed w hlock hin
            . exact hnot w hlock hin
          . intro e s5 he
            refine Stuck.mono he ?_
            rintro ⟨w, hw, hmem⟩
            exact ⟨w, hw, List.mem_append_right _ hmem⟩

theorem wp_namei_trail (path : Name) (fuel : Nat)
    : wp (namei path fuel) (fun _ _ => ∀ w, (st.vnodes w).lock = true → .old w ∉ Resolve.trail st fuel path none)
        (Stuck (∃ w ∈ vt, .old w ∈ Resolve.trail st fuel path none)) st := by
  unfold namei
  apply Starting.wp_loop_trail hl ht hgrove fuel (.first (.init st)) (by simp)

end Walk

end Fs
end Franklin
