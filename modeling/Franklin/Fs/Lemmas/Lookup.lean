import Franklin.Fs.Lemmas.Vget

/-!
This module contains `ramfs_lookup`: it finds the entry that `Resolve.look` finds.
-/

namespace Franklin
namespace Fs

theorem Bad.mono {st s : St} {P P' : Prop} {e : Stop} (h : Bad st P e s) (hP : P → P')
    : Bad st P' e s :=
  ⟨h.1, fun hq => hP (h.2 hq)⟩

theorem Loc.node_get {st : St} (hinv : Inv st) (held : List Loc) (vfs n : Nat)
    : (Loc.get st held vfs n).node st = n := by
  unfold Loc.get
  split
  . next v hv => exact (hinv.linked n v hv).2.1
  . split
    . next L hfind =>
      have hpred := List.find?_some hfind
      cases L with
      | old v => simp at hpred
      | new vfs' m => simpa [Loc.node] using hpred
    . rfl

theorem Walked.node_eq_of_vnode {st s : St} {held : List (Nat × Loc)} {vl nl : List Nat} {v n : Nat}
    {L : Loc} (hinv : Inv st) (h : Walked st s held vl nl) (hv : (v, L) ∈ held)
    (hn : (s.nodes n).vnode = some v) : n = L.node st := by
  have hnode := Loc.node_get hinv (held.map Prod.snd) 0 n
  cases h.vnode_eq_some hinv 0 hn with
  | inl hheld => rw [h.loc_eq hv hheld, hnode]
  | inr hold =>
    rw [(h.heldOld v L hv hold.1).1, ← hold.2.1, hnode]

/--
The directory that `ramfs_lookup` is called for. It is locked by a walk that holds it, or it is in use by
somebody else and not locked.
-/
inductive Usable (st : St) (vdir : Nat) (L : Loc) : List (Nat × Loc) → List Nat → Prop where
  | held : Usable st vdir L [(vdir, L)] [vdir]
  | old (hL : L = .old vdir) (hlt : vdir < st.nextVnode) (hfreed : (st.vnodes vdir).freed = false)
      (hlock : (st.vnodes vdir).lock = false) : Usable st vdir L [] []

namespace Usable

variable {st s : St} {vdir : Nat} {L : Loc} {held : List (Nat × Loc)} {vl nl : List Nat}
  (h : Usable st vdir L held vl)

include h

theorem get_eq (vfs n : Nat)
    : Loc.get st (held.map Prod.snd) vfs n = Loc.get st [L] vfs n := by
  cases h with
  | held => rfl
  | old hL => simp [Loc.get, hL]

theorem length_le : held.length ≤ 1 := by
  cases h <;> simp

theorem ref
    : (vdir, L) ∈ held ∨ vdir < st.nextVnode ∧ L = .old vdir ∧ (st.vnodes vdir).freed = false ∧
      (st.vnodes vdir).lock = false := by
  cases h with
  | held => exact Or.inl List.mem_cons_self
  | old hL hlt hfreed hlock => exact Or.inr ⟨hlt, hL, hfreed, hlock⟩

theorem members (hw : Walked st s held vl nl)
    : (s.vnodes vdir).freed = false ∧ (s.vnodes vdir).data = L.node st ∧
      (s.vnodes vdir).type = L.type st ∧ (s.vnodes vdir).vfs = L.vfs st := by
  cases h with
  | held =>
    rcases hw.members List.mem_cons_self with ⟨hdata, htype, hvfs, _, _⟩
    exact ⟨hw.freed_eq_false List.mem_cons_self, hdata, htype, hvfs⟩
  | old hL hlt hfreed =>
    rw [hw.old vdir hlt, hL]
    exact ⟨hfreed, rfl, rfl, rfl⟩

theorem node_eq (hinv : Inv st) (hw : Walked st s held vl nl) {v n : Nat} (hv : v ∈ vl)
    (hn : (s.nodes n).vnode = some v) : n = L.node st := by
  cases h with
  | held =>
    rw [List.mem_singleton] at hv
    rw [hv] at hn
    apply hw.node_eq_of_vnode hinv List.mem_cons_self hn
  | old => simp at hv

end Usable

inductive Looked (st s : St) (held : List (Nat × Loc)) (vl : List Nat) (vpp : Option Nat)
    : Option (Except Errno Loc) → Code × Option Nat → Prop where
  | ok (v : Nat) (V : Loc) (h : Walked st s ((v, V) :: held) vl [])
      : Looked st s held vl vpp (some (.ok V)) (none, some v)
  | notdir (h : Walked st s held vl [])
      : Looked st s held vl vpp (some (.error .ENOTDIR)) (some .ENOTDIR, vpp)
  | missing (h : Walked st s held vl [])
      : Looked st s held vl vpp (some (.error .ENOENT)) (some .ENOENT, none)

section Lookup

variable {st s : St} {vdir n : Nat} {L : Loc} {held : List (Nat × Loc)} {vl : List Nat}

theorem Walked.wp_vget_entry {vpp : Option Nat} (hinv : Inv st)
    (hdir : Usable st vdir L held vl) (h : Walked st s held vl [L.node st])
    : wp (do
          let v ← ramfs_vget (L.vfs st) n
          releaseNode (L.node st)
          pure ((none : Code), some v))
        (fun r s' => Looked st s' held vl vpp
          (if n = L.node st ∨ (st.nodes n).freed then
            none
          else
            some (.ok (Loc.get st [L] (L.vfs st) n))) r)
        (Bad st (n = L.node st ∨ (st.nodes n).freed = true)) s := by
  have hlen := hdir.length_le
  apply wp_bind_of
  . apply wp_mono (h.wp_ramfs_vget hinv (by omega) (L.vfs st) n) (fun _ _ hs => hs)
    intro e s1 hs1
    apply hs1.mono
    intro hwhy
    rcases hwhy with hmem | hfreed | ⟨v, hv, hvnode⟩
    . exact Or.inl (List.mem_singleton.mp hmem)
    . exact Or.inr hfreed
    . exact Or.inl (hdir.node_eq hinv h hv hvnode)
  . intro v s1 hs1
    rcases hs1 with ⟨hs1, hne, hlive⟩
    rw [List.mem_singleton] at hne
    rw [hdir.get_eq] at hs1
    apply wp_bind_of (hs1.wp_releaseNode List.mem_cons_self)
    intro _ s2 hs2
    rw [wp_pure, if_neg (by simp [hne, hlive])]
    apply Looked.ok
    simpa using hs2.1

theorem Walked.wp_ramfs_lookup (hinv : Inv st) (hdir : Usable st vdir L held vl)
    (h : Walked st s held vl []) (vpp : Option Nat) (name : Name) (len : Nat)
    : wp (ramfs_lookup vdir vpp name len)
        (fun r s' => Looked st s' held vl vpp (Resolve.look st L name len) r)
        (Bad st (Resolve.look st L name len = none)) s := by
  rcases hdir.members h with ⟨hfreed, hdata, htype, hvfs⟩
  have hlen := hdir.length_le
  unfold ramfs_lookup
  rw [wp_bind, Fs.wp_getVnode]
  refine ⟨by simp [hfreed], ?_⟩
  intro _
  rw [hdata, htype, hvfs]
  apply wp_bind_of
  . apply wp_mono (h.wp_deref (L.node st)) (fun _ _ hs => hs)
    intro e s1 hs1
    apply hs1.mono
    intro hfreed
    unfold Resolve.look
    rw [if_pos hfreed]
  intro _ s0 hs0
  rcases hs0 with ⟨rfl, hlive⟩
  apply wp_bind_of
  . apply wp_mono (h.wp_acquireNode (L.node st)) (fun _ _ hs => hs)
    intro e s1 hs1
    apply hs1.mono
    simp
  . intro _ s1 hs1
    rcases hs1 with ⟨hs1, _, _⟩
    rw [wp_bind, wp_getNode, hs1.same.parent_eq, hs1.same.dentry_eq, hs1.same.wild_eq]
    unfold Resolve.look
    dsimp only
    simp only [hlive, Bool.false_eq_true, if_false]
    have hrelease : ∀ {Q : Unit → St → Prop} {E : Stop → St → Prop},
        (∀ s2, Walked st s2 held vl [] → Q () s2) → wp (releaseNode (L.node st)) Q E s1 := by
      intro Q E hQ
      apply wp_mono (hs1.wp_releaseNode (E := E) List.mem_cons_self) _ (fun _ _ hs => hs)
      intro _ s2 hs2
      apply hQ
      simpa using hs2.1
    split
    . next hnotdir =>
      rw [wp_bind]
      apply hrelease
      intro s2 hs2
      apply Looked.notdir hs2
    . next hisdir =>
      split
      . next hdot =>
        apply wp_bind_of
        . apply wp_mono (hs1.wp_vref_locked hdir.ref (by omega)) (fun _ _ hs => hs)
          intro e s2 hs2
          apply hs2.mono
          simp
        . intro _ s2 hs2
          apply wp_bind_of (hs2.wp_releaseNode List.mem_cons_self)
          intro _ s3 hs3
          apply Looked.ok
          simpa using hs3.1
      . next hdot =>
        split
        . next hdotdot =>
          apply wp_mono (hs1.wp_vget_entry hinv hdir) (fun _ _ hs => hs)
          intro e s2 hs2
          apply hs2.mono
          intro heq
          rw [if_pos heq]
        . next hdotdot =>
          cases ramfs_lookup.find name len (st.nodes (L.node st)).dentry with
          | some entry =>
            dsimp only
            apply wp_mono (hs1.wp_vget_entry hinv hdir) (fun _ _ hs => hs)
            intro e s2 hs2
            apply hs2.mono
            intro heq
            rw [if_pos heq]
          | none =>
            dsimp only
            split
            . rw [wp_throw]
              exact ⟨hs1.kept, fun _ => rfl⟩
            . rw [wp_bind]
              apply hrelease
              intro s2 hs2
              apply Looked.missing hs2

end Lookup

end Fs
end Franklin
