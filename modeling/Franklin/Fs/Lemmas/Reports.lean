import Franklin.Fs.Lemmas.Leaks
import Franklin.Fs.Lemmas.Parents

/-!
This module contains what the results of `vfs_symlink` and `vfs_link` tell about the dentries: both return 0
for a name that exists, and `vfs_symlink` returns an error for a link that it makes.
-/

namespace Franklin
namespace Fs

def NameExists (st : St) (path : Name) (fuel : Nat) : Prop :=
  ∃ e, resolve st path fuel = some e ∧ e.vn ≠ none

def LastMissing (st : St) (path : Name) (fuel : Nat) : Prop :=
  ∃ L name len, resolve st path fuel = some (.missing L name len) ∧ skipSlashes (name.drop len) = []

def AddsEntry (st s : St) (path : Name) (fuel : Nat) (P : Nat → Prop) : Prop :=
  ∃ L name len, resolve st path fuel = some (.missing L name len) ∧ skipSlashes (name.drop len) = [] ∧
    ∃ de, (s.nodes (L.node st)).dentry = de :: (st.nodes (L.node st)).dentry ∧ de.name = name.take len ∧
      P de.node

def Linkable (st : St) (target : Name) (fuel : Nat) (V : Loc) : Prop :=
  ∃ e, resolve st target fuel = some e ∧ e.vn = some V ∧ V.type st ≠ .VDIR

/--
The call returns 0 if and only if it has made a dentry for its name, and returns a negative error and makes
none if the name exists. `vfs_link` looks the name up in the state in which it has found the target.
-/
def Call.Reported (st : St) (fuel : Nat) : Call → Prop
  | vfs_symlink path target => ∀ r s, Fs.vfs_symlink path target fuel st = .ok r s →
    (r = none ↔ AddsEntry st s path fuel fun n => (s.nodes n).type = .VLNK ∧ (s.nodes n).link = target) ∧
      (NameExists st path fuel → r ≠ none ∧ NoneAdded st s)
  | vfs_link path target => ∀ r s, Fs.vfs_link path target fuel st = .ok r s →
    (r = none ↔ ∃ V s0, Linkable st target fuel V ∧ vfs_link.find target fuel st = .ok () s0 ∧
        AddsEntry s0 s path fuel fun n => n = V.node st) ∧
      ((∃ s0, vfs_link.find target fuel st = .ok () s0 ∧ NameExists s0 path fuel) →
        r ≠ none ∧ NoneAdded st s)
  | _ => True

/--
The walk of the path ends at a file with components behind it, or at a missing component with nothing
behind it.
-/
def Exit.Unnamed : Exit → Prop
  | notdir _ => True
  | missing _ name len => name.drop len = []
  | _ => False

/--
`vfs_symlink` makes nothing for its name. `vfs_link` has nothing to link, or a second walk that does not
return or that leads to a new name.
-/
def Call.Unnamed (st : St) (fuel : Nat) : Call → Prop
  | vfs_symlink path _ => ¬ NameExists st path fuel ∧ ¬ LastMissing st path fuel
  | vfs_link path target => ∀ V s0 e, Linkable st target fuel V → vfs_link.find target fuel st = .ok () s0 →
    (∃ r s, namei path fuel s0 = .ok r s) → resolve s0 path fuel = some e → e.Unnamed
  | _ => True

section Entries

variable {s : St} {d n v vfs : Nat} {name link : Name} {type : VType}

theorem St.close_file (m : Nat)
    : ((s.close v).nodes m).dentry = (s.nodes m).dentry ∧ ((s.close v).nodes m).type = (s.nodes m).type ∧
        ((s.close v).nodes m).link = (s.nodes m).link := by
  have hdentry := congrArg RamNode.dentry (Forest.close_nodes (s := s) (v := v) m)
  have htype := congrArg RamNode.type (Forest.close_nodes (s := s) (v := v) m)
  have hlink := congrArg RamNode.link (Forest.close_nodes (s := s) (v := v) m)
  change ((s.close v).nodes m).dentry = _ at hdentry
  change ((s.close v).nodes m).type = _ at htype
  change ((s.close v).nodes m).link = _ at hlink
  rw [hdentry, htype, hlink]
  split <;> exact ⟨rfl, rfl, rfl⟩

theorem St.withFile_file (s : St) (vfs : Nat) (name : Name) (type : VType) (link : Name) (hd : d ≠ s.nextNode)
    (hdir : (s.nodes d).type = .VDIR)
    : (∃ de, ((s.withFile vfs d name type link).nodes d).dentry = de :: (s.nodes d).dentry ∧
          de.name = name ∧ de.node = s.nextNode) ∧
        ((s.withFile vfs d name type link).nodes s.nextNode).type = type ∧
        ((s.withFile vfs d name type link).nodes s.nextNode).link = link := by
  have hne : s.nextNode ≠ d := Ne.symm hd
  have hold := s.addNode_unchained vfs (some d) type link hd
  have htype := congrArg RamNode.type hold
  have hdentry := congrArg RamNode.dentry hold
  change ((s.addNode vfs (some d) type link).nodes d).type = (s.nodes d).type at htype
  change ((s.addNode vfs (some d) type link).nodes d).dentry = (s.nodes d).dentry at hdentry
  have hlink : ((s.addNode vfs (some d) type link).addLink s.nextNode).nodes d =
      (s.addNode vfs (some d) type link).nodes d := by
    unfold St.addLink
    rw [St.updNode_nodes_of_ne hd]
  have hself : ((s.addNode vfs (some d) type link).addLink s.nextNode).nodes s.nextNode =
      { s.freshNode vfs (some d) type link with
        linkcount := (s.freshNode vfs (some d) type link).linkcount + 1, ramlock := false } := by
    unfold St.addLink
    rw [St.updNode_nodes_self, St.addNode_nodes_self]
  unfold St.withFile
  dsimp only
  rw [hlink, htype, if_pos hdir]
  unfold St.vnew St.attach
  dsimp only
  rw [St.updNode_nodes_of_ne hd, St.updNode_nodes_self, St.updNode_nodes_self, St.updNode_nodes_of_ne hne,
    hlink, hself, hdentry]
  exact ⟨⟨_, rfl, rfl, rfl⟩, rfl, rfl⟩

theorem St.hardLink_entry
    : ∃ de, ((s.hardLink d n name).nodes d).dentry = de :: (s.nodes d).dentry ∧ de.name = name ∧
        de.node = n := by
  have hdentry : ((s.addLink n).nodes d).dentry = (s.nodes d).dentry := by
    unfold St.addLink
    by_cases hd : d = n
    . rw [hd, St.updNode_nodes_self]
    . rw [St.updNode_nodes_of_ne hd]
  unfold St.hardLink St.attach
  rw [St.updNode_nodes_self]
  dsimp only
  rw [hdentry]
  exact ⟨_, rfl, rfl, rfl⟩

end Entries

section Symlink

variable {st s : St} {own : Nat → Nat} {path target name : Name} {fuel len : Nat} {e : Exit} {L : Loc}

theorem Ended.wp_closeFound {α : Type} {nd : Nameidata} (h : Ended st s e (none, nd)) (hgrown : Grown st)
    (hquiet : Quiet st) (hsym : nd.issymlink = false) (hresolve : resolve st path fuel = some e) (a : α)
    : wp (do
          vput nd.vdir
          vputOpt nd.vn
          pure a) (fun r _ => r = a) (fun _ _ => False) s := by
  have hinv := hgrown.inv
  have hclose : ∀ {d v : Nat} {D V : Loc}, Walked st s [(d, D), (v, V)] [] [] → wp (do
      vput d
      vput v
      pure a) (fun r _ => r = a) (fun _ _ => False) s := by
    intro d v D V hw
    apply wp_bind_of (wp_vput_quiet hinv hquiet hw)
    intro _ s1 hs1
    apply wp_bind_of (wp_vput_quiet hinv hquiet hs1)
    intro _ s2 hs2
    rfl
  cases h with
  | found d v D V name len hw => apply hclose (hw.perm (List.Perm.swap _ _ _))
  | here d D name len hw => apply hclose hw
  | tail d v D V name len hw =>
    by_cases hDV : D = V
    . subst hDV
      have hdv := hw.eq_of_loc_eq List.mem_cons_self (List.mem_cons_of_mem _ List.mem_cons_self)
      rw [← hdv] at hw
      apply hclose hw
    . have hold := (Resolve.namei_tail hresolve).resolve_right hDV
      rcases hgrown with ⟨own, hown⟩
      cases Placed.resolve hown.grove hresolve with
      | tail hD hV =>
      apply wp_mono (hw.wp_closeTail hinv hquiet hold hDV (hD.secure hown.grove) a)
      . intro r s1 hs1
        exact hs1.1
      . intro _ _ hs1
        exact hs1
  | link d v D V name len hw => cases hsym

theorem wp_symlink_exists (target : Name) (h : Grown st) (hquiet : Quiet st) (hexists : NameExists st path fuel)
    : wp (vfs_symlink path target fuel) (fun r _ => r = none) (fun _ _ => False) st := by
  rcases hexists with ⟨e, hresolve, hvn⟩
  unfold vfs_symlink
  apply wp_bind_of (wp_namei_at h.inv hquiet hresolve)
  intro r s1 hs1
  rcases hs1 with ⟨hended, hsym⟩
  rcases r with ⟨error, nd⟩
  have hfound : error = none := by
    cases hended with
    | found d v D V name len h => rfl
    | here d D name len h => rfl
    | tail d v D V name len h => rfl
    | link d v D V name len h => rfl
    | missing d D name len h => exact absurd rfl hvn
    | notdir d D vn name len h => exact absurd rfl hvn
  subst hfound
  simp only [ne_eq, reduceCtorEq, not_false_eq_true, if_true]
  apply hended.wp_closeFound h hquiet hsym hresolve

theorem wp_symlink_entry (target : Name) (h : Sown own st) (hquiet : Quiet st)
    (hnodes : ∀ v, (st.vfss v).nodes.Sound st)
    (hresolve : resolve st path fuel = some (.missing L name len))
    : wp (vfs_symlink path target fuel)
        (fun r s' => r = some .ENOENT ∧ ∃ de,
          (s'.nodes (L.node st)).dentry = de :: (st.nodes (L.node st)).dentry ∧ de.name = name.take len ∧
            (s'.nodes de.node).type = .VLNK ∧ (s'.nodes de.node).link = target)
        (fun _ _ => False) st := by
  have hinv := h.grove.forest.inv
  have hplaced := Placed.resolve h.grove hresolve
  unfold vfs_symlink ramfs_symlink
  apply wp_bind_of (wp_namei_at hinv hquiet hresolve)
  intro r s1 hs1
  rcases hs1 with ⟨hended, _⟩
  cases hplaced with
  | missing hL hdir =>
  cases hended with
  | missing d D name len hw =>
    simp only [ne_eq, not_true_eq_false, if_false, bind_assoc, pure_bind]
    apply wp_bind_of (hw.wp_acquire List.mem_cons_self (by simp))
    intro _ s2 hs2
    have hfreed := hs2.freed_eq_false List.mem_cons_self
    rcases hs2.members List.mem_cons_self with ⟨hdata, htype, _⟩
    have hready := hs2.ready hquiet (hquiet.ready hnodes)
    apply wp_bind_of (wp_ramfs_alloc_file_ready hready hfreed (htype.trans hdir) (by simp))
    intro r s3 hs3
    rcases hs3 with ⟨_, hready3, hs3⟩
    rcases s2.withFile_vnodes (s2.vnodes d).vfs (s2.vnodes d).data (strldup name len) .VLNK
      ((some target).getD []) with ⟨_, _, _, hsame⟩
    have hlt : (s2.vnodes d).data ≠ s2.nextNode := by
      have := hL.attached.lt_next h.grove.forest.wf
      rw [St.hier_next] at this
      rw [hdata, hs2.same.nextNode]
      omega
    have hnodedir : (s2.nodes (s2.vnodes d).data).type = .VDIR := by
      rw [hdata, hs2.same.type_eq, ← hL.type, hdir]
    rcases s2.withFile_file (s2.vnodes d).vfs (strldup name len) .VLNK ((some target).getD []) hlt
      hnodedir with ⟨⟨de, hde, hname, hnode⟩, hvlnk, hlink⟩
    rw [← hs3] at hsame hde hvlnk hlink
    have hlt2 := hs2.lt_nextVnode List.mem_cons_self
    have hfreed3 : (s3.vnodes d).freed = false := by
      rw [hsame d (by omega), hfreed]
    have hsecure : Secure s3 (s3.vnodes d).data := by
      rw [hsame d (by omega), hs3]
      apply St.withFile_secure _ hlt
      rw [hdata]
      exact hs2.secure (hL.secure h.grove)
    apply wp_bind_of (wp_close_eq hfreed3 (hready3.ramlock _) hsecure)
    intro _ s4 hs4
    rw [hs4]
    refine ⟨rfl, de, ?_, hname, ?_, ?_⟩
    . rw [(St.close_file _).1, ← hdata, hde, hs2.same.dentry_eq]
    . rw [(St.close_file _).2.1, hnode, hvlnk]
    . rw [(St.close_file _).2.2, hnode, hlink]
      rfl

theorem symlink_reported_iff (h : Sown own st) (hquiet : Quiet st)
    (hnodes : ∀ v, (st.vfss v).nodes.Sound st)
    : Call.Reported st fuel (.vfs_symlink path target) ↔ Call.Unnamed st fuel (.vfs_symlink path target) := by
  have hinv := h.grove.forest.inv
  constructor
  . intro hreported
    constructor
    . intro hexists
      rcases ok_of_wp (wp_symlink_exists target ⟨own, h⟩ hquiet hexists) with ⟨r, s, hrun, hnone⟩
      exact ((hreported r s hrun).2 hexists).1 hnone
    . rintro ⟨L, name, len, hresolve, hlast⟩
      rcases ok_of_wp (wp_symlink_entry target h hquiet hnodes hresolve) with
        ⟨r, s, hrun, herror, hentry⟩
      have hnone := (hreported r s hrun).1.mpr ⟨L, name, len, hresolve, hlast, hentry⟩
      rw [herror] at hnone
      cases hnone
  . rintro ⟨hexists, hlast⟩ r s hrun
    have hfails : wp (vfs_symlink path target fuel) (fun r _ => r ≠ none) (fun _ _ => True) st := by
      unfold vfs_symlink
      apply wp_bind_mono (wp_namei hinv path fuel) (fun _ _ _ => trivial)
      intro r s1 hs1
      rcases hs1 with ⟨e, hresolve, hended, hsym⟩
      have hsome : r.1 ≠ none := by
        cases hended with
        | found d v D V name len h => exact absurd ⟨_, hresolve, by simp [Exit.vn]⟩ hexists
        | here d D name len h => exact absurd ⟨_, hresolve, by simp [Exit.vn]⟩ hexists
        | tail d v D V name len h => exact absurd ⟨_, hresolve, by simp [Exit.vn]⟩ hexists
        | link d v D V name len h => simp at hsym
        | missing d D name len h => simp
        | notdir d D vn name len h => simp
      rcases r with ⟨error, nd⟩
      dsimp only
      split
      . apply wp_bind_of wp_trivial
        intro _ s2 _
        apply wp_bind_of wp_trivial
        intro _ s3 _
        exact hsome
      . apply wp_bind_of wp_trivial
        intro _ s2 _
        apply wp_bind_of wp_trivial
        intro _ s3 _
        apply wp_bind_of wp_trivial
        intro _ s4 _
        exact hsome
    rw [wp_of_ok hrun] at hfails
    refine ⟨⟨fun hnone => absurd hnone hfails, ?_⟩, fun h => absurd h hexists⟩
    rintro ⟨L, name, len, hresolve, hrest, _⟩
    exact absurd ⟨L, name, len, hresolve, hrest⟩ hlast

end Symlink

def vfs_link.rest (path : Name) (vn fuel : Nat) : Prog Code := do
  let (error, nd) ← namei path fuel
  if error ≠ some .ENOENT then
    pure error
  else
    acquire nd.vdir
    let error ← ramfs_link nd.vdir vn nd.name
    release nd.vdir
    vput nd.vdir
    vrele vn
    pure error

section Link

variable {st s s0 : St} {own : Nat → Nat} {path target : Name} {fuel vn : Nat} {V : Loc}

theorem Linkable.found (h : Grove none own st) (hlink : Linkable st target fuel V)
    : ∃ D, resolve st target fuel = some (.found D V) ∧ D.type st = .VDIR := by
  rcases hlink with ⟨e, hresolve, hV, hleaf⟩
  have hinside := Placed.resolve_inside h hresolve
  have hnotdir : ∀ {L : Loc}, e.vn = some L → e.vdir = L → L.type st ≠ .VDIR → False := by
    intro L hL heq hne
    cases hinside with
    | inl hfile =>
      rw [hfile] at hL
      cases hL
    | inr hdir =>
      rw [heq] at hdir
      exact hne hdir
  cases e with
  | found D W =>
    rw [← Option.some.inj hV]
    exact ⟨D, hresolve, hinside.resolve_left (by simp)⟩
  | here D => exact (hnotdir hV (Option.some.inj hV) hleaf).elim
  | tail D W => exact (hnotdir hV (Option.some.inj hV) hleaf).elim
  | link D W next =>
    exact absurd rfl (Resolve.namei_ne_link hresolve D W next)
  | missing D nm len => cases hV
  | notdir D => cases hV

theorem Linkable.secure (h : Grove none own st) (hlink : Linkable st target fuel V) : Secure st (V.node st) := by
  rcases hlink.found h with ⟨D, hresolve, _⟩
  cases Placed.resolve h hresolve with
  | found hD hV => exact hV.secure h

theorem link_of_found {d v len : Nat} {D : Loc} {name : Name} (h : Sown own st) (hown : Sown own s)
    (hw : Walked st s [(v, V), (d, D)] [] []) (hdir : D.type st = .VDIR) (hleaf : V.type st ≠ .VDIR)
    (hrun : namei target fuel st = .ok (none, ⟨d, some v, name, len, false⟩) s)
    : ∃ s2, Walked st s2 [(d, D), (v, V)] [v] [] ∧
        (∀ e s0, vput d s2 = .error e s0 → vfs_link.find target fuel st = .error e s0 ∧
          ∀ path, vfs_link path target fuel st = .error e s0) ∧
        ∀ s0, vput d s2 = .ok () s0 → vfs_link.find target fuel st = .ok () s0 ∧ Sown own s0 ∧
          Walked st s0 [(v, V)] [v] [] ∧
          ∀ path, vfs_link path target fuel st = vfs_link.rest path v fuel s0 := by
  have hinv := h.grove.forest.inv
  have hacq := hw.wp_acquire (E := fun _ _ => False) List.mem_cons_self (by simp)
  rcases ok_of_wp hacq with ⟨_, s2, hacquire, hs2⟩
  have hown2 := Settled.acquire v s hown
  rw [wp_of_ok hacquire] at hown2
  have hne : v ≠ d := by
    intro heq
    subst heq
    have := hw.loc_eq List.mem_cons_self (List.mem_cons_of_mem _ List.mem_cons_self)
    rw [this] at hleaf
    exact hleaf hdir
  have hswap := hs2.perm (List.Perm.swap _ _ _)
  have hget : getVnode v s2 = .ok (s2.vnodes v) s2 := by
    unfold getVnode
    rw [if_neg (by simp [hs2.freed_eq_false List.mem_cons_self])]
  have htype : (s2.vnodes v).type ≠ .VDIR := by
    rw [(hs2.members List.mem_cons_self).2.1]
    apply hleaf
  refine ⟨s2, hswap, ?_, ?_⟩
  . intro e s0 hvput
    constructor
    . unfold vfs_link.find
      rw [bind_of_ok hrun]
      dsimp only
      rw [bind_of_ok hacquire, hvput]
    . intro path
      unfold vfs_link
      rw [bind_of_ok hrun]
      dsimp only
      rw [bind_of_ok hacquire, bind_of_ok hget, if_neg htype, bind_of_error hvput]
  . intro s0 hvput
    have hs0 := (wp_of_ok hvput).mp (hswap.wp_vput hinv)
    have hown0 := (wp_of_ok hvput).mp (Settled.vfs_close d s2 hown2.1)
    refine ⟨?_, hown0.1, ?_, ?_⟩
    . unfold vfs_link.find
      rw [bind_of_ok hrun]
      dsimp only
      rw [bind_of_ok hacquire, hvput]
    . simpa [hne] using hs0
    . intro path
      unfold vfs_link vfs_link.rest
      rw [bind_of_ok hrun]
      dsimp only
      rw [bind_of_ok hacquire, bind_of_ok hget, if_neg htype, bind_of_ok hvput]

theorem link_split (h : Sown own st) (hquiet : Quiet st) (hlink : Linkable st target fuel V)
    : ∃ vn s0, vfs_link.find target fuel st = .ok () s0 ∧ Sown own s0 ∧
        Walked st s0 [(vn, V)] [vn] [] ∧
        ∀ path, vfs_link path target fuel st = vfs_link.rest path vn fuel s0 := by
  have hinv := h.grove.forest.inv
  rcases hlink.found h.grove with ⟨D, hresolve, hdir⟩
  have hleaf : V.type st ≠ .VDIR := by
    rcases hlink with ⟨e, he, hV, hleaf⟩
    apply hleaf
  have hnamei := wp_namei_at hinv hquiet hresolve
  rcases ok_of_wp hnamei with ⟨r, s1, hrun, hended, _⟩
  have hs1 := h.wp_namei target fuel
  rw [wp_of_ok hrun] at hs1
  cases hended with
  | found d v D V name len hw =>
    rcases link_of_found h hs1.1.1 hw hdir hleaf hrun with ⟨s2, hs2, _, hfind⟩
    rcases ok_of_wp (wp_vput_quiet hinv hquiet hs2) with ⟨_, s3, hvput, _⟩
    exact ⟨v, s3, hfind s3 hvput⟩

theorem wp_rest_entry (h : Sown own s0) (hquiet : Quiet st) (hw : Walked st s0 [(vn, V)] [vn] [])
    (hV : Secure st (V.node st)) (hleaf : V.type st ≠ .VDIR) {nd : Nameidata}
    (hrun : namei path fuel s0 = .ok (some .ENOENT, nd) s)
    : wp (vfs_link.rest path vn fuel)
        (fun r s' => r = none ∧ ∃ L, resolve s0 path fuel = some (.missing L nd.name nd.len) ∧
          ∃ de, (s'.nodes (L.node s0)).dentry = de :: (s0.nodes (L.node s0)).dentry ∧ de.name = nd.name ∧
            de.node = V.node st)
        (fun _ _ => False) s0 := by
  have hnamei := wp_namei h.grove.forest.inv path fuel
  rw [wp_of_ok hrun] at hnamei
  rcases hnamei with ⟨e, hresolve, hended, _⟩
  have hplaced := Placed.resolve h.grove hresolve
  unfold vfs_link.rest
  rw [wp_bind, wp_of_ok hrun]
  dsimp only
  rw [if_neg (by simp)]
  cases hended with
  | missing d D name len hd =>
  cases hplaced with
  | missing hD hdir =>
    have hvlt := hw.lt_nextVnode List.mem_cons_self
    rcases hw.members List.mem_cons_self with ⟨hvdata, hvtype, _⟩
    apply wp_bind_of (hd.wp_acquire List.mem_cons_self (by simp))
    intro _ s2 hs2
    have hram2 : ∀ n, (s2.nodes n).ramlock = false := by
      intro n
      rw [hs2.ramlock, hw.ramlock, hquiet.ramlock]
      rfl
    rcases hs2.members List.mem_cons_self with ⟨hdata, htype, _⟩
    have hvn : (s2.vnodes vn).freed = false ∧ (s2.vnodes vn).data = V.node st ∧
        (s2.vnodes vn).type = V.type st := by
      rw [hs2.old vn hvlt]
      exact ⟨hw.freed_eq_false List.mem_cons_self, hvdata, hvtype⟩
    have hne : vn ≠ d := by
      intro heq
      rw [heq, htype, hdir] at hvn
      exact hleaf hvn.2.2.symm
    have hnodedir : (s2.nodes (s2.vnodes d).data).type = .VDIR := by
      rw [hdata, hs2.same.type_eq, ← hD.type, hdir]
    have hdfreed := hs2.freed_eq_false List.mem_cons_self
    apply wp_bind_of (wp_ramfs_link_ready hram2 hdfreed hvn.1 hnodedir)
    intro error s3 hs3
    rcases hs3 with ⟨rfl, hs3⟩
    rcases @St.hardLink_entry s2 (s2.vnodes d).data (s2.vnodes vn).data name with ⟨de, hde, hname, hnode⟩
    rw [← hs3] at hde
    have hram3 : ∀ n, (s3.nodes n).ramlock = false := by
      intro n
      rw [hs3]
      unfold St.hardLink St.attach
      by_cases hn : n = (s2.vnodes d).data
      . rw [hn, St.updNode_nodes_self]
      . rw [St.updNode_nodes_of_ne hn, St.addLink_ramlock hram2]
    have hsecure3 : ∀ n, Secure s2 n → Secure s3 n := by
      intro n hn
      rw [hs3]
      exact St.attach_secure (St.addLink_secure hn) _
    have hvnodes3 : s3.vnodes = s2.vnodes := by rw [hs3]; rfl
    rw [wp_bind, wp_release_alive (by rw [hvnodes3]; exact hdfreed)]
    generalize hs4 : { s3 with
      vnodes := Function.update s3.vnodes d { s3.vnodes d with lock := false } } = s4
    have hnodes4 : s4.nodes = s3.nodes := by rw [← hs4]
    have hdfreed4 : (s4.vnodes d).freed = false := by
      rw [← hs4]
      simp [hvnodes3, hdfreed]
    have hvfreed4 : (s4.vnodes vn).freed = false := by
      rw [← hs4]
      dsimp only
      rw [Function.update_of_ne hne, hvnodes3]
      exact hvn.1
    have hsecure4 : ∀ n, Secure s2 n → Secure s4 n := by
      intro n hn
      unfold Secure
      rw [hnodes4]
      exact hsecure3 n hn
    have hram4 : ∀ n, (s4.nodes n).ramlock = false := by
      rw [hnodes4]
      exact hram3
    have hdata4 : ∀ w, (s4.vnodes w).data = (s2.vnodes w).data := by
      intro w
      rw [← hs4, hvnodes3]
      dsimp only
      by_cases hwd : w = d
      . rw [hwd, Function.update_self]
      . rw [Function.update_of_ne hwd]
    have hdsecure : Secure s4 (s4.vnodes d).data := by
      rw [hdata4, hdata]
      exact hsecure4 _ (hs2.secure (hD.secure h.grove))
    apply wp_bind_of (wp_close_eq hdfreed4 (hram4 _) hdsecure)
    intro _ s5 hs5
    have hvfreed5 : (s5.vnodes vn).freed = false := by
      rw [hs5, Forest.close_vnodes, if_neg hne, hvfreed4]
    have hvsecure : Secure s5 (s5.vnodes vn).data := by
      rw [hs5, Forest.close_vnodes, if_neg hne, hdata4, hvn.2.1]
      exact St.close_secure (hsecure4 _ (hs2.secure (hw.secure hV)))
    have hram5 : (s5.nodes (s5.vnodes vn).data).ramlock = false := by
      rw [hs5]
      exact St.close_ramlock hram4 _
    apply wp_bind_of (wp_close_eq hvfreed5 hram5 hvsecure)
    intro _ s6 hs6
    refine ⟨rfl, D, hresolve, de, ?_, hname, ?_⟩
    . rw [hs6, (St.close_file _).1, hs5, (St.close_file _).1, hnodes4, ← hdata, hde, hdata,
        hs2.same.dentry_eq]
    . rw [hnode, hvn.2.1]

theorem link_reported_iff (h : Sown own st) (hquiet : Quiet st)
    : Call.Reported st fuel (.vfs_link path target) ↔ Call.Unnamed st fuel (.vfs_link path target) := by
  have hinv := h.grove.forest.inv
  constructor
  . rintro hreported V s0 e hlink hfind ⟨⟨error, nd⟩, s1, hname⟩ hresolve
    rcases link_split h hquiet hlink with ⟨vn, s0', hfind', hown, hw, hsplit⟩
    rw [hfind, EStateM.Result.ok.injEq] at hfind'
    rcases hfind' with ⟨_, rfl⟩
    have hnamei := wp_namei hown.grove.forest.inv path fuel
    rw [wp_of_ok hname] at hnamei
    rcases hnamei with ⟨e', he', hended, hsym⟩
    rw [hresolve, Option.some.injEq] at he'
    subst he'
    -- Every name that the second walk finds is reported as linked.
    have hexists : e.vn ≠ none → error ≠ none := by
      intro hvn hnone
      subst hnone
      have hrun : vfs_link path target fuel st = .ok none s1 := by
        rw [hsplit]
        unfold vfs_link.rest
        rw [bind_of_ok hname]
        rfl
      exact ((hreported none s1 hrun).2 ⟨s0, hfind, e, hresolve, hvn⟩).1 rfl
    cases hended with
    | found d v D W name len hd => exact absurd rfl (hexists (by simp [Exit.vn]))
    | here d D name len hd => exact absurd rfl (hexists (by simp [Exit.vn]))
    | tail d v D W name len hd => exact absurd rfl (hexists (by simp [Exit.vn]))
    | link d v D W name len hd => exact absurd rfl (hexists (by simp [Exit.vn]))
    | notdir d D vn name len hd => trivial
    | missing d D name len hd =>
      have hleaf : V.type st ≠ .VDIR := by
        rcases hlink with ⟨_, _, _, hleaf⟩
        apply hleaf
      rcases ok_of_wp (wp_rest_entry hown hquiet hw (hlink.secure h.grove) hleaf hname) with
        ⟨r, s, hrun, hnone, L, hL, de, hde, hdename, hdenode⟩
      rw [← hsplit] at hrun
      rcases (hreported r s hrun).1.mp hnone with
        ⟨_, s0', _, hfind', L', name', len', hL', _, de', hde', htake, _⟩
      rw [hfind, EStateM.Result.ok.injEq] at hfind'
      rcases hfind' with ⟨_, rfl⟩
      rw [hL, Option.some.injEq, Exit.missing.injEq] at hL'
      rcases hL' with ⟨rfl, rfl, rfl⟩
      rw [hde, List.cons.injEq] at hde'
      rw [← hde'.1, hdename] at htake
      have hlong := congrArg List.length htake
      rw [List.length_take] at hlong
      apply List.drop_eq_nil_of_le
      dsimp only at hlong ⊢
      omega
  . intro hunnamed r s hrun
    by_cases hlinkable : ∃ V, Linkable st target fuel V
    . rcases hlinkable with ⟨V, hlink⟩
      rcases link_split h hquiet hlink with ⟨vn, s0, hfind, hown, hw, hsplit⟩
      have hleaf : V.type st ≠ .VDIR := by
        rcases hlink with ⟨_, _, _, hleaf⟩
        apply hleaf
      have hrest := hrun
      rw [hsplit] at hrest
      cases hname : namei path fuel s0 with
      | error e s1 =>
        unfold vfs_link.rest at hrest
        rw [bind_of_error hname] at hrest
        cases hrest
      | ok r1 s1 =>
        rcases r1 with ⟨error, nd⟩
        have hnamei := wp_namei hown.grove.forest.inv path fuel
        rw [wp_of_ok hname] at hnamei
        rcases hnamei with ⟨e, hresolve, hended, _⟩
        have hnamed := hunnamed V s0 e hlink hfind ⟨_, _, hname⟩ hresolve
        cases hended with
        | found d v D W name len hd => exact hnamed.elim
        | here d D name len hd => exact hnamed.elim
        | tail d v D W name len hd => exact hnamed.elim
        | link d v D W name len hd => exact hnamed.elim
        | notdir d D vn' name len hd =>
          have hr : r = some .ENOTDIR := by
            unfold vfs_link.rest at hrest
            rw [bind_of_ok hname] at hrest
            dsimp only at hrest
            rw [if_pos (by simp)] at hrest
            cases hrest
            rfl
          constructor
          . rw [hr]
            simp only [reduceCtorEq, false_iff]
            rintro ⟨_, s0', _, hfind', L, name', len', hL, _⟩
            rw [hfind, EStateM.Result.ok.injEq] at hfind'
            rcases hfind' with ⟨_, rfl⟩
            rw [hresolve] at hL
            cases hL
          . rintro ⟨s0', hfind', e, he, hvn⟩
            rw [hfind, EStateM.Result.ok.injEq] at hfind'
            rcases hfind' with ⟨_, rfl⟩
            rw [hresolve, Option.some.injEq] at he
            exact absurd (by rw [← he]; rfl) hvn
        | missing d D name len hd =>
          have hentry := wp_rest_entry hown hquiet hw (hlink.secure h.grove) hleaf hname
          rw [wp_of_ok hrest] at hentry
          rcases hentry with ⟨hnone, L, hL, de, hde, hdename, hdenode⟩
          have hnext : name.drop len = [] := hnamed
          have htake : name.take len = name := by
            have hsplit := name.take_append_drop len
            rw [hnext, List.append_nil] at hsplit
            apply hsplit
          have hskip : skipSlashes (name.drop len) = [] := by
            rw [hnext]
            rfl
          constructor
          . rw [hnone]
            simp only [true_iff]
            refine ⟨V, s0, hlink, hfind, L, name, len, hL, hskip, de, hde, ?_, hdenode⟩
            rw [htake, hdename]
          . rintro ⟨s0', hfind', e', he', hvn⟩
            rw [hfind, EStateM.Result.ok.injEq] at hfind'
            rcases hfind' with ⟨_, rfl⟩
            rw [hL, Option.some.injEq] at he'
            exact absurd (by rw [← he']; rfl) hvn
    . have hresolves : ∃ e, resolve st target fuel = some e := by
        have hwalk : wp (vfs_link path target fuel) (fun _ _ => ∃ e, resolve st target fuel = some e)
            (fun _ _ => True) st := by
          unfold vfs_link
          apply wp_bind_mono (wp_namei hinv target fuel) (fun _ _ _ => trivial)
          intro _ s1 hs1
          rcases hs1 with ⟨e, he, _⟩
          apply wp_mono wp_trivial
          . intros
            exact ⟨e, he⟩
          . simp
        rw [wp_of_ok hrun] at hwalk
        apply hwalk
      rcases hresolves with ⟨e, he⟩
      have hdir : ∀ V, e.vn = some V → V.type st = .VDIR := by
        intro V hV
        by_contra hleaf
        exact hlinkable ⟨V, e, he, hV, hleaf⟩
      have hrefused := wp_link_noTarget hquiet h.grove path he hdir
      rw [wp_of_ok hrun] at hrefused
      refine ⟨⟨fun hr => absurd hr hrefused.1, ?_⟩, fun _ => hrefused⟩
      rintro ⟨V, s0, hlink, _⟩
      exact absurd ⟨V, hlink⟩ hlinkable

end Link

/--
The results of `vfs_symlink` and `vfs_link` are right if and only if there is nothing to make for their
name, or `vfs_link` makes it.
-/
theorem Call.reported_iff {st : St} (h : Grown st) (hquiet : Quiet st)
    (hnodes : ∀ v, (st.vfss v).nodes.Sound st) (fuel : Nat) (call : Call)
    : call.Reported st fuel ↔ call.Unnamed st fuel := by
  rcases h with ⟨own, hown⟩
  cases call with
  | vfs_symlink path target => apply symlink_reported_iff hown hquiet hnodes
  | vfs_link path target => apply link_reported_iff hown hquiet
  | _ => exact Iff.rfl

theorem Call.reported_iff_booted
    : Call.Reported (booted zeroed) 1 (.vfs_symlink "/a/b".toList "c".toList) ↔
        Call.Unnamed (booted zeroed) 1 (.vfs_symlink "/a/b".toList "c".toList) := by
  apply Call.reported_iff Grown.booted Quiet.booted
  intro v
  by_cases hv : v = 0
  . rw [hv]
    decide
  . simp [booted, St.vnew, St.updNode, St.addRoot, St.empty, hv, Ptr.Sound]

theorem Call.not_reported_booted
    : (∃ s, Fs.vfs_symlink "/a".toList "b".toList 1 (booted zeroed) = .ok (some .ENOENT) s ∧
          (s.nodes 0).dentry.map (fun de => (de.name, de.node)) = [("a".toList, 1)] ∧
          (s.nodes 1).type = .VLNK ∧ (s.nodes 1).link = "b".toList) ∧
        ¬ Call.Reported (booted zeroed) 1 (.vfs_symlink "/a".toList "b".toList) ∧
        ∃ s, Fs.vfs_symlink "/".toList "b".toList 1 (booted zeroed) = .ok none s ∧
          ¬ Call.Reported (booted zeroed) 1 (.vfs_symlink "/".toList "b".toList) := by
  have hroot : resolve (booted zeroed) "/".toList 1 = some (.here (.old 0)) := rfl
  have hmissing : resolve (booted zeroed) "/a".toList 1 = some (.missing (.old 0) "a".toList 1) := by
    rfl
  have hexists : NameExists (booted zeroed) "/".toList 1 := ⟨_, hroot, by simp [Exit.vn]⟩
  rcases ok_of_wp (wp_symlink_exists "b".toList Grown.booted Quiet.booted hexists) with ⟨r, s, hrun, hnone⟩
  rw [hnone] at hrun
  have hmade : result (Fs.vfs_symlink "/a".toList "b".toList 1) (booted zeroed) = some (some .ENOENT) := by
    rfl
  have hsymlink := ok_of_result hmade
  refine ⟨⟨_, hsymlink, rfl, rfl, rfl⟩, ?_, s, hrun, ?_⟩
  . intro h
    have hnone' := (h _ _ hsymlink).1.mpr
      ⟨_, _, _, hmissing, by decide, ⟨"a".toList, 1, 3⟩, rfl, by decide, rfl, rfl⟩
    cases hnone'
  . intro h
    exact ((h none s hrun).2 hexists).1 rfl

end Fs
end Franklin
