import Franklin.Fs.Lemmas.Moved
import Franklin.Fs.Lemmas.Reports

/-!
This module contains what `vfs_open` returns: the vnode that its path leads to afterwards, with one
reference more than before.
-/

namespace Franklin
namespace Fs

def reloc (s : St) : Loc → Loc
  | .old v => .old v
  | .new vfs n =>
    match (s.nodes n).vnode with
    | some v => .old v
    | none => .new vfs n

/--
What a walk that has made vnodes leaves as it was. The vnodes that it has made are for the ramnodes of
their `Loc`.
-/
structure Kin (own : Nat → Nat) (st s : St) : Prop where
  steady : Steady st s
  alive : ∀ v, (st.vnodes v).freed = false → (s.vnodes v).freed = false
  kept : ∀ n v, st.hier.Attached n → (st.nodes n).vnode = some v → (s.nodes n).vnode = some v
  made : ∀ vfs n v, Placed own st (.new vfs n) → (s.nodes n).vnode = some v →
    st.nextVnode ≤ v ∧ (s.vnodes v).data = n ∧ (s.vnodes v).type = (st.nodes n).type ∧
      (s.vnodes v).vroot = (Loc.new vfs n).vroot st ∧ (s.vnodes v).mountedhere = none ∧
      ((Loc.new vfs n).vroot st = true ∨ (st.nodes n).type = .VDIR → (s.vnodes v).vfs = vfs)
  live : ∀ n, st.hier.Attached n → (s.nodes n).freed = false
  link : ∀ n, st.hier.Attached n → (s.nodes n).link = (st.nodes n).link
  wild : ∀ n, st.hier.Attached n → (s.nodes n).wild = (st.nodes n).wild

section Kin

variable {own : Nat → Nat} {st s : St} (h : Kin own st s) (hgrove : Grove none own st)

include h

theorem Kin.get (held : List Loc) (vfs n : Nat) (hn : st.hier.Attached n)
    : reloc s (Loc.get st held vfs n) = Loc.get s (held.map (reloc s)) vfs n := by
  unfold Loc.get
  cases hst : (st.nodes n).vnode with
  | some v =>
    rw [h.kept n v hn hst]
    rfl
  | none =>
    dsimp only
    cases hs : (s.nodes n).vnode with
    | some v =>
      dsimp only
      generalize hfind : held.find? _ = found
      cases found with
      | none =>
        unfold reloc
        dsimp only
        rw [hs]
      | some L =>
        have hL := List.find?_some hfind
        cases L with
        | old w => simp at hL
        | new vfs' m =>
          have hm : m = n := by simpa using hL
          unfold reloc
          dsimp only
          rw [hm, hs]
    | none =>
      dsimp only
      have hself : ∀ w, reloc s (.new w n) = .new w n := by
        intro w
        unfold reloc
        dsimp only
        rw [hs]
      induction held with
      | nil => apply hself
      | cons L held ih =>
        rw [List.map_cons, List.find?_cons, List.find?_cons]
        cases L with
        | old w => exact ih
        | new w m =>
          by_cases hm : m = n
          . subst hm
            rw [hself]
            simp only [decide_true]
            apply hself
          . have hskip : reloc s (.new w m) = .new w m ∨ ∃ v, reloc s (.new w m) = .old v := by
              unfold reloc
              dsimp only
              cases (s.nodes m).vnode with
              | some v => exact Or.inr ⟨v, rfl⟩
              | none => exact Or.inl rfl
            rcases hskip with hsame | ⟨v, hv⟩
            . rw [hsame]
              simp only [hm, decide_false]
              exact ih
            . rw [hv]
              simp only [hm, decide_false]
              exact ih

include hgrove

omit h in
theorem Placed.reloc_cases {L : Loc} (hL : Placed own st L)
    : (∃ v, L = .old v ∧ v < st.nextVnode) ∨
      (∃ vfs n, L = .new vfs n ∧ reloc s L = L ∧ n < st.nextNode) ∨
      ∃ vfs n v, L = .new vfs n ∧ reloc s L = .old v ∧ Placed own st (.new vfs n) ∧
        (s.nodes n).vnode = some v := by
  cases L with
  | old v => exact Or.inl ⟨v, rfl, hgrove.lt_of_alive (hL.alive v rfl)⟩
  | new vfs n =>
    right
    unfold reloc
    dsimp only
    cases hs : (s.nodes n).vnode with
    | none =>
      refine Or.inl ⟨vfs, n, rfl, rfl, ?_⟩
      have hlt := hL.attached.lt_next hgrove.forest.wf
      rw [St.hier_next] at hlt
      exact hlt
    | some v => exact Or.inr ⟨vfs, n, v, rfl, rfl, hL, hs⟩

theorem Kin.moved : Moved own st s (reloc s) where
  node L hL := by
    rcases Placed.reloc_cases hgrove hL (s := s) with
      ⟨v, rfl, hlt⟩ | ⟨vfs, n, rfl, hsame, _⟩ | ⟨vfs, n, v, rfl, hv, hn, hs⟩
    . exact h.steady.data_eq hlt
    . rw [hsame]
      rfl
    . rw [hv]
      exact (h.made vfs n v hn hs).2.1
  type L hL := by
    rcases Placed.reloc_cases hgrove hL (s := s) with
      ⟨v, rfl, hlt⟩ | ⟨vfs, n, rfl, hsame, hlt⟩ | ⟨vfs, n, v, rfl, hv, hn, hs⟩
    . exact h.steady.type_eq hlt
    . rw [hsame]
      exact (h.steady.node n hlt).1
    . rw [hv]
      exact (h.made vfs n v hn hs).2.2.1
  vroot L hL := by
    rcases Placed.reloc_cases hgrove hL (s := s) with
      ⟨v, rfl, hlt⟩ | ⟨vfs, n, rfl, hsame, hlt⟩ | ⟨vfs, n, v, rfl, hv, hn, hs⟩
    . exact h.steady.vroot_eq hlt
    . rw [hsame]
      unfold Loc.vroot
      dsimp only
      rw [h.steady.junk, (h.steady.node n hlt).1, (h.steady.node n hlt).2]
    . rw [hv]
      exact (h.made vfs n v hn hs).2.2.2.1
  mountedhere L hL := by
    rcases Placed.reloc_cases hgrove hL (s := s) with
      ⟨v, rfl, hlt⟩ | ⟨vfs, n, rfl, hsame, _⟩ | ⟨vfs, n, v, rfl, hv, hn, hs⟩
    . exact h.steady.mountedhere_eq hlt
    . rw [hsame]
      rfl
    . rw [hv]
      exact (h.made vfs n v hn hs).2.2.2.2.1
  isRootvn L hL := by
    rcases Placed.reloc_cases hgrove hL (s := s) with
      ⟨v, rfl, hlt⟩ | ⟨vfs, n, rfl, hsame, _⟩ | ⟨vfs, n, v, rfl, hv, hn, hs⟩
    . unfold reloc Loc.isRootvn
      dsimp only
      rw [h.steady.rootvn]
    . rw [hsame]
      rfl
    . rw [hv]
      have hle := (h.made vfs n v hn hs).1
      unfold Loc.isRootvn
      dsimp only
      rw [h.steady.rootvn, decide_eq_false_iff_not]
      intro hroot
      have := hgrove.forest.inv.rootvn v hroot
      omega
  vfs L hL hflag := by
    rcases Placed.reloc_cases hgrove hL (s := s) with
      ⟨v, rfl, hlt⟩ | ⟨vfs, n, rfl, hsame, _⟩ | ⟨vfs, n, v, rfl, hv, hn, hs⟩
    . exact h.steady.vfs_eq hlt
    . rw [hsame]
      rfl
    . rw [hv]
      exact (h.made vfs n v hn hs).2.2.2.2.2 hflag
  get := h.get
  old v hv := ⟨rfl, h.alive v hv⟩
  parent n hn := by
    have hlt := hn.lt_next hgrove.forest.wf
    rw [St.hier_next] at hlt
    exact (h.steady.node n hlt).2
  alive := h.live
  link := h.link
  wild := h.wild
  mountpoint v := (h.steady.vfss v).1
  root v := (h.steady.vfss v).2.1
  nextVfs := h.steady.nextVfs
  follow := by rw [h.steady.junk]
  rootfs := h.steady.rootfs

end Kin

theorem Walked.kin {own : Nat → Nat} {st s : St} {held : List (Nat × Loc)} {vl : List Nat}
    (hw : Walked st s held vl []) (hgrove : Grove none own st) (hflags : FlagsClear st)
    (hheld : ∀ v L, (v, L) ∈ held → Placed own st L) : Kin own st s where
  steady := hw.steady
  alive v hv := by
    rw [hw.old v (hgrove.lt_of_alive hv)]
    exact hv
  kept n v _ hv := by
    rcases hw.node n with hold | ⟨hnone, _⟩
    . rw [hold, hv]
    . rw [hv] at hnone
      cases hnone
  made vfs n v hn hs := by
    rcases hw.node n with hold | ⟨_, v', vfs', hv', hle, hmem⟩
    . rw [hn.unmade vfs n rfl, hs] at hold
      cases hold
    . rw [hs, Option.some.injEq] at hv'
      subst hv'
      rcases hw.members hmem with ⟨hdata, htype, hvfs, hvroot, hmounted⟩
      refine ⟨hle, hdata, htype, hvroot, hmounted, ?_⟩
      intro hflag
      have hdir : (st.nodes n).type = .VDIR := by
        by_contra hne
        rcases hflag with hflag | hdir
        . unfold Loc.vroot at hflag
          dsimp only at hflag
          rw [hflags n] at hflag
          simp [hne] at hflag
        . exact hne hdir
      rw [hvfs]
      have hown := (hheld _ _ hmem).vfs hdir
      have hown' := hn.vfs hdir
      exact hown.trans hown'.symm
  live n hn := (hw.secure (hgrove.forest.secure hn)).1
  link n _ := by
    have := congrArg RamNode.link (hw.same.nodes n)
    exact this
  wild n _ := hw.same.wild_eq n

/--
A `vfs_open` that returns 0 returns the vnode that the path leads to afterwards, with one reference more than
before, or one if there was no vnode.
-/
def OpenGives (st : St) (g : Garbage) (path : Name) (type : VType) (create : Bool) (fuel : Nat) : Prop :=
  ∀ vn s, vfs_open path type create fuel st = .ok (none, vn) s →
    ∃ v e, vn = some v ∧ resolve (s.withGarbage g) path fuel = some e ∧ e.vn = some (.old v) ∧
      (s.vnodes v).refcount = if v < st.nextVnode then (st.vnodes v).refcount + 1 else 1

def Unshadowed (st : St) (path : Name) (fuel n : Nat) (name : Name) : Prop :=
  ∀ a ∈ Resolve.asks st fuel path none, a.1.node st = n → ¬ a.2.takeWhile (· ≠ '/') <+: name

/--
Without `O_CREATE` the walk does not end behind a slash. With it only the last component is missing, the path
does not end in a slash, and the walk does not come by the new dentry before. The ramnode that the file system has
made last, to which `ramfs_alloc_node` writes, is not freed.
-/
def Openable (st : St) (path : Name) (create : Bool) (fuel : Nat) : Prop :=
  if create then
    ∀ e, resolve st path fuel = some e → (∃ D, e = .notdir D) ∨
      ∃ D name len, e = .missing D name len ∧ name.drop len = [] ∧ Unshadowed st path fuel (D.node st) name ∧
        (st.vfss (D.vfs st)).nodes.Sound st
  else
    ¬ Strays st path fuel

section Open

variable {st s : St} {own : Nat → Nat} {path : Name} {type : VType} {fuel : Nat} {e : Exit}

theorem Exit.map_vn (f : Loc → Loc) : (e.map f).vn = e.vn.map f := by
  cases e with
  | _ => rfl

theorem Walked.reloc_held {held : List (Nat × Loc)} {vl nl : List Nat} {v : Nat} {V : Loc}
    (hw : Walked st s held vl nl) (hv : (v, V) ∈ held) : reloc s V = .old v := by
  by_cases hlt : v < st.nextVnode
  . rw [(hw.heldOld v V hv hlt).1]
    rfl
  . rcases hw.heldNew v V hv (by omega) with ⟨_, vfs, n, rfl, _, _, hs⟩
    unfold reloc
    dsimp only
    rw [hs]

theorem Walked.resolve_held {v : Nat} {V : Loc} (hw : Walked st s [(v, V)] [] []) (hgrove : Grove none own st)
    (hflags : FlagsClear st) (hresolve : resolve st path fuel = some e) (hV : e.vn = some V)
    : ∃ e', resolve s path fuel = some e' ∧ e'.vn = some (.old v) ∧
        (s.vnodes v).refcount = if v < st.nextVnode then (st.vnodes v).refcount + 1 else 1 := by
  have hplaced := (Placed.resolve hgrove hresolve).vn hV
  have hkin := hw.kin hgrove hflags (by
    intro w W hmem
    rw [List.mem_singleton, Prod.mk.injEq] at hmem
    rw [hmem.2]
    apply hplaced)
  have hsame : ∀ n name, SameFind st s n name := by
    intro n name
    unfold SameFind
    rw [hw.same.dentry_eq]
  refine ⟨_, (hkin.moved hgrove).resolve hgrove hresolve hsame, ?_, ?_⟩
  . rw [Exit.map_vn, hV, Option.map_some, hw.reloc_held List.mem_cons_self]
  . have hrefs : refs [(v, V)] v = 1 := by simp [refs]
    split
    . next hlt =>
      rw [hw.old v hlt]
      dsimp only
      rw [hrefs]
      rfl
    . next hge =>
      rcases hw.heldNew v V List.mem_cons_self (by omega) with ⟨_, vfs, n, _, heq, _⟩
      rw [heq]
      unfold freshVnode
      dsimp only
      rw [hrefs]
      rfl

theorem wp_open_held (hinv : Inv st) (hstray : ¬ Strays st path fuel)
    : wp (vfs_open path type false fuel)
        (fun r s => r.1 = none → ∃ v V e, r.2 = some v ∧ resolve st path fuel = some e ∧ e.vn = some V ∧
          Walked st s [(v, V)] [] []) (fun _ _ => True) st := by
  have hclose : ∀ {s : St} {d v : Nat} {D V : Loc} {e : Exit}, Walked st s [(d, D), (v, V)] [] [] →
      resolve st path fuel = some e → e.vn = some V → wp (do
        vput d
        pure ((none : Code), some v))
        (fun r s => r.1 = none → ∃ v V e, r.2 = some v ∧ resolve st path fuel = some e ∧ e.vn = some V ∧
          Walked st s [(v, V)] [] []) (fun _ _ => True) s := by
    intro s d v D V e hw hresolve hV
    apply wp_bind_mono (hw.wp_vput hinv) (fun _ _ _ => trivial)
    intro _ s1 hs1 _
    exact ⟨v, V, e, rfl, hresolve, hV, hs1⟩
  unfold vfs_open
  apply wp_bind_mono (wp_namei hinv path fuel) (fun _ _ _ => trivial)
  intro r s1 hs1
  rcases hs1 with ⟨e, hresolve, hended, hsym⟩
  simp only [Bool.false_eq_true, if_false]
  cases hended with
  | found d v D V name len hw => apply hclose (hw.perm (List.Perm.swap _ _ _)) hresolve rfl
  | here d D name len hw => apply hclose hw hresolve rfl
  | tail d v D V name len hw =>
    by_cases hDV : D = V
    . subst hDV
      have hdv := hw.eq_of_loc_eq List.mem_cons_self (List.mem_cons_of_mem _ List.mem_cons_self)
      rw [← hdv] at hw
      apply hclose hw hresolve rfl
    . exact absurd ⟨D, V, hresolve, hDV⟩ hstray
  | link d v D V name len hw => simp at hsym
  | missing d D name len hw =>
    apply wp_bind_of wp_trivial
    intro _ s2 _ hnone
    cases hnone
  | notdir d D vn name len hw =>
    apply wp_bind_of wp_trivial
    intro _ s2 _ hnone
    cases hnone

theorem openGives_of_not_strays (hgrove : Grove none own st)
    {g : Garbage} (hclear : Clear st g) (hstray : ¬ Strays st path fuel) : OpenGives st g path type false fuel := by
  intro vn s hrun
  have hopen := @wp_open_held _ path type fuel hgrove.forest.inv hstray
  rw [wp_of_ok hrun] at hopen
  rcases hopen rfl with ⟨v, V, e, hvn, hresolve, hV, hw⟩
  rcases hw.resolve_held hgrove hclear.first hresolve hV with ⟨e', hresolve', hV', hrefs⟩
  rw [hclear.eq_of_junk hw.steady.junk]
  exact ⟨v, e', hvn, hresolve', hV', hrefs⟩

theorem not_strays_of_openGives (h : Grown st) (hquiet : Quiet st) {g : Garbage}
    (hgives : OpenGives st g path type false fuel) : ¬ Strays st path fuel := by
  intro hstray
  have hrun : wp (vfs_open path type false fuel)
      (fun r s => ∃ d w W, r = (none, some d) ∧ Walked st s [(w, W)] [] [] ∧ d < st.nextVnode ∧ d ≠ w)
      (fun _ _ => False) st := by
    unfold vfs_open
    apply wp_bind_of (wp_namei_strays h hquiet hstray)
    intro r s1 hs1
    rcases hs1 with ⟨d, D, v, V, name, len, rfl, hw, ⟨w, rfl⟩, hne, _, hresolve⟩
    simp only [Bool.false_eq_true, if_false]
    have hd := hw.old_held List.mem_cons_self
    subst hd
    have hmem : (v, V) ∈ [(d, Loc.old d), (v, V)] := List.mem_cons_of_mem _ List.mem_cons_self
    apply wp_bind_of (wp_vput_quiet h.inv hquiet hw)
    intro _ s2 hs2
    refine ⟨d, v, V, rfl, hs2, ?_, ?_⟩
    . by_contra hge
      rcases hw.heldNew d _ List.mem_cons_self (by omega) with ⟨_, vfs, n, hnew, _⟩
      cases hnew
    . rintro rfl
      exact hne (hw.loc_eq List.mem_cons_self hmem)
  rcases ok_of_wp hrun with ⟨r, s, hok, d, w, W, rfl, hw, hlt, hne⟩
  rcases hgives _ s hok with ⟨v, e, hv, _, _, hrefs⟩
  rw [Option.some.injEq] at hv
  subst hv
  rw [if_pos hlt, hw.old d hlt] at hrefs
  have hzero : refs [(w, W)] d = 0 := by simp [refs, Ne.symm hne]
  dsimp only at hrefs
  rw [hzero] at hrefs
  simp at hrefs

theorem not_openGives_exists (h : Grown st) (hquiet : Quiet st) (hresolve : resolve st path fuel = some e)
    (hvn : e.vn ≠ none) {g : Garbage} : ¬ OpenGives st g path type true fuel := by
  intro hgives
  have hrun : wp (vfs_open path type true fuel) (fun r _ => r = (none, none)) (fun _ _ => False) st := by
    unfold vfs_open
    apply wp_bind_of (wp_namei_at h.inv hquiet hresolve)
    intro r s1 hs1
    rcases hs1 with ⟨hended, hsym⟩
    rcases r with ⟨error, nd⟩
    have herror := hended.error_iff.mpr hvn
    subst herror
    simp only [if_true, ne_eq, reduceCtorEq, not_false_eq_true]
    apply hended.wp_closeFound h hquiet hsym hresolve
  rcases ok_of_wp hrun with ⟨r, s, hok, rfl⟩
  rcases hgives _ s hok with ⟨v, e, hv, _⟩
  cases hv

theorem wp_alloc_file_link {d len : Nat} {name : Name}
    : wp (ramfs_alloc_file d name len .VLNK none) (fun r _ => r.1 ≠ none) (fun _ _ => True) s := by
  unfold ramfs_alloc_file
  apply wp_bind_of wp_trivial
  intro vd s1 _
  split
  . simp
  . apply wp_bind_mono (Q := fun _ _ => False) _ (fun _ _ h => h)
    . intro _ _ hfalse
      exact hfalse.elim
    . unfold ramfs_alloc_node
      apply wp_bind_of wp_trivial
      intro st s2 _
      apply wp_bind_of wp_trivial
      intro _ s3 _
      rw [if_pos ⟨rfl, rfl⟩, wp_throw]
      trivial

theorem St.newFile_unchained (s : St) (vfs d : Nat) (name : Name) (type : VType) (link : Name) {m : Nat}
    (hm : m ≠ s.nextNode)
    : ((s.newFile vfs d name type link).nodes m).unchained =
        if m = d then
          { (s.nodes m).unchained with
            dentry := { name, node := s.nextNode, seq := (s.nodes m).lastseq } :: (s.nodes m).dentry
            lastseq := (s.nodes m).lastseq + 1
            linkcount := (s.nodes m).linkcount + 1
            ramlock := false }
        else (s.nodes m).unchained := by
  have hnode := s.addNode_unchained vfs (some d) type link hm
  have hlink : (((s.addNode vfs (some d) type link).addLink s.nextNode).nodes m).unchained =
      (s.nodes m).unchained := by
    unfold St.addLink
    rw [St.updNode_nodes_of_ne hm, hnode]
  unfold St.newFile St.attach
  split
  . next hd =>
    subst hd
    rw [St.updNode_nodes_self, ← hlink]
    have hdentry := congrArg RamNode.dentry hlink
    have hseq := congrArg RamNode.lastseq hlink
    have hcount := congrArg RamNode.linkcount hlink
    change (((s.addNode vfs (some m) type link).addLink s.nextNode).nodes m).dentry = _ at hdentry
    change (((s.addNode vfs (some m) type link).addLink s.nextNode).nodes m).lastseq = _ at hseq
    change (((s.addNode vfs (some m) type link).addLink s.nextNode).nodes m).linkcount = _ at hcount
    rw [← show _ = (s.nodes m).dentry from hdentry, ← show _ = (s.nodes m).lastseq from hseq,
      ← show _ = (s.nodes m).linkcount from hcount]
    rfl
  . next hd =>
    rw [St.updNode_nodes_of_ne hd, hlink]

end Open

structure Created (own : Nat → Nat) (st s : St) (D : Loc) (name : Name) (type : VType) (v : Nat) : Prop where
  kin : Kin own st s
  entry : ∃ de, (s.nodes (D.node st)).dentry = de :: (st.nodes (D.node st)).dentry ∧ de.name = name ∧
    de.node = st.nextNode
  other : ∀ m, st.hier.Attached m → m ≠ D.node st → (s.nodes m).dentry = (st.nodes m).dentry
  vnode : (s.nodes st.nextNode).vnode = some v
  live : (s.nodes st.nextNode).freed = false
  le : st.nextVnode ≤ v
  type : (s.vnodes v).type = type
  mountedhere : (s.vnodes v).mountedhere = none
  refcount : (s.vnodes v).refcount = 1

section Create

variable {own : Nat → Nat} {st s : St} {d : Nat} {D : Loc} (h : Sown own st) (hs : Sown own s)
  (hstays : Stays st s) (hw : Walked st s [(d, D)] [d] []) (hD : Placed own st D) (hdir : D.type st = .VDIR)

def St.created (s : St) (d : Nat) (name : Name) (type : VType) (link : Name) : St :=
  ((s.newFile (s.vnodes d).vfs (s.vnodes d).data name type link).vnew (s.vnodes d).vfs s.nextNode).close d

omit h hs hstays hw hD hdir in
theorem St.newFile_vnodes (hfresh : (s.nodes s.nextNode).vnode = none) (vfs n : Nat) (name : Name)
    (type : VType) (link : Name)
    : ((s.newFile vfs n name type link).vnew vfs s.nextNode).nextVnode = s.nextVnode + 1 ∧
        (∀ w, w ≠ s.nextVnode →
          ((s.newFile vfs n name type link).vnew vfs s.nextNode).vnodes w = s.vnodes w) ∧
        (∀ m, m ≠ s.nextNode → ((s.newFile vfs n name type link).vnew vfs s.nextNode).nodes m =
          (s.newFile vfs n name type link).nodes m) ∧
        (((s.newFile vfs n name type link).vnew vfs s.nextNode).nodes s.nextNode).vnode = some s.nextVnode ∧
        (((s.newFile vfs n name type link).vnew vfs s.nextNode).vnodes s.nextVnode).type =
          ((s.newFile vfs n name type link).nodes s.nextNode).type ∧
        (((s.newFile vfs n name type link).vnew vfs s.nextNode).vnodes s.nextVnode).mountedhere = none ∧
        (((s.newFile vfs n name type link).vnew vfs s.nextNode).vnodes s.nextVnode).refcount = 1 := by
  have hsame := SameVnodes.newFile (d := n) hfresh vfs name type link
  unfold St.vnew
  dsimp only
  rw [hsame.nextVnode, hsame.vnodes]
  refine ⟨rfl, ?_, ?_, ?_, ?_, ?_, ?_⟩
  . intro w hw
    rw [Function.update_of_ne hw]
  . intro m hm
    rw [St.updNode_nodes_of_ne hm]
  . rw [St.updNode_nodes_self]
  . rw [Function.update_self]
  . rw [Function.update_self]
  . rw [Function.update_self]

include h hs hstays hw hD hdir

theorem created (name : Name) (type : VType) (link : Name)
    : Created own st (s.created d name type link) D name type s.nextVnode := by
  have hforest := hs.grove.forest
  have halive := hw.freed_eq_false List.mem_cons_self
  have hlt := hw.lt_nextVnode List.mem_cons_self
  rcases hw.members List.mem_cons_self with ⟨hdata, htype, _⟩
  have hattached : s.hier.Attached (s.vnodes d).data := by
    rw [hdata]
    apply hstays.attached _ hD.attached
  have hvdir : (s.vnodes d).type = .VDIR := htype.trans hdir
  have hnodedir : (s.nodes (s.vnodes d).data).type = .VDIR := by
    rw [← hforest.type_eq hlt halive, hvdir]
  have hvfs := hs.grove.vnode d halive hvdir
  have hlive := hs.grove.live d halive
  rw [hvfs] at hlive
  rcases hs.newFile hattached hnodedir hlive name type link with ⟨⟨own', hown'⟩, hmade⟩
  have hnew := St.newFile_vnodes hforest.fresh (own (s.vnodes d).data) (s.vnodes d).data name type link
  have hnodes := fun m hm => @St.newFile_unchained s (own (s.vnodes d).data) (s.vnodes d).data name type link m hm
  unfold St.created
  rw [hvfs]
  generalize hs3 : (s.newFile (own (s.vnodes d).data) (s.vnodes d).data name type link).vnew
    (own (s.vnodes d).data) s.nextNode = s3 at *
  rcases hnew with ⟨hnext, hvnodes, hold, hvnode, hnewtype, hmounted, hcount⟩
  have hd3 : s3.vnodes d = s.vnodes d := hvnodes d (by omega)
  have hclose := hown'.grove.close (v := d) (by rw [hd3, halive])
  -- the directory keeps its vnode if it had one, and loses the one that the walk has made
  have hrefs : (∃ w, D = .old w ∧ d = w ∧ d < st.nextVnode ∧ (s.vnodes d).refcount - 1 ≠ 0) ∨
      ∃ vfs n, D = .new vfs n ∧ st.nextVnode ≤ d ∧ (s.vnodes d).refcount - 1 = 0 := by
    have hone : refs [(d, D)] d = 1 := by simp [refs]
    by_cases hdlt : d < st.nextVnode
    . rcases hw.heldOld d D List.mem_cons_self hdlt with ⟨rfl, hfreed, _⟩
      have hcount := h.grove.forest.inv.counted d hdlt hfreed
      refine Or.inl ⟨d, rfl, rfl, hdlt, ?_⟩
      rw [hw.old d hdlt, hone]
      dsimp only
      omega
    . rcases hw.heldNew d D List.mem_cons_self (by omega) with ⟨_, vfs, n, rfl, heq, _⟩
      refine Or.inr ⟨vfs, n, rfl, by omega, ?_⟩
      rw [heq, hone]
      rfl
  have hltNode : ∀ m, st.hier.Attached m → m ≠ s.nextNode := by
    intro m hm
    have := hm.lt_next h.grove.forest.wf
    rw [St.hier_next] at this
    rw [hw.same.nextNode]
    omega
  have hnode3 : ∀ m, st.hier.Attached m → (s3.nodes m).unchained =
      if m = (s.vnodes d).data then
        { (s.nodes m).unchained with
          dentry := { name, node := s.nextNode, seq := (s.nodes m).lastseq } :: (s.nodes m).dentry
          lastseq := (s.nodes m).lastseq + 1
          linkcount := (s.nodes m).linkcount + 1
          ramlock := false }
      else (s.nodes m).unchained := by
    intro m hm
    rw [hold m (hltNode m hm), hnodes m (hltNode m hm)]
  have hclosed := fun m => Forest.close_nodes (s := s3) (v := d) m
  rw [hd3] at hclosed
  have hsame : ∀ m, st.hier.Attached m → (s3.nodes m).vnode = (s.nodes m).vnode ∧
      (s3.nodes m).link = (s.nodes m).link ∧ (s3.nodes m).wild = (s.nodes m).wild := by
    intro m hm
    have hvnode3 := congrArg RamNode.vnode (hnode3 m hm)
    have hlink3 := congrArg RamNode.link (hnode3 m hm)
    have hwild3 := congrArg RamNode.wild (hnode3 m hm)
    change (s3.nodes m).vnode = _ at hvnode3
    change (s3.nodes m).link = _ at hlink3
    change (s3.nodes m).wild = _ at hwild3
    rw [hvnode3, hlink3, hwild3]
    split
    . exact ⟨rfl, rfl, rfl⟩
    . exact ⟨rfl, rfl, rfl⟩
  have hfields : ∀ m, ((s3.close d).nodes m).dentry = (s3.nodes m).dentry ∧
      ((s3.close d).nodes m).link = (s3.nodes m).link ∧ ((s3.close d).nodes m).wild = (s3.nodes m).wild := by
    intro m
    have hdentry4 := congrArg RamNode.dentry (hclosed m)
    have hlink4 := congrArg RamNode.link (hclosed m)
    have hwild4 := congrArg RamNode.wild (hclosed m)
    change ((s3.close d).nodes m).dentry = _ at hdentry4
    change ((s3.close d).nodes m).link = _ at hlink4
    change ((s3.close d).nodes m).wild = _ at hwild4
    rw [hdentry4, hlink4, hwild4]
    split
    . exact ⟨rfl, rfl, rfl⟩
    . exact ⟨rfl, rfl, rfl⟩
  have hvnodes4 : ∀ m, st.hier.Attached m → ((s3.close d).nodes m).vnode = (st.nodes m).vnode := by
    intro m hm
    have hvnode4 := congrArg RamNode.vnode (hclosed m)
    change ((s3.close d).nodes m).vnode = _ at hvnode4
    rw [hvnode4]
    rcases hrefs with ⟨w, rfl, rfl, _, hne⟩ | ⟨vfs, n, rfl, _, hzero⟩
    . rw [if_neg (fun heq => hne heq.2)]
      change (s3.nodes m).vnode = _
      rw [(hsame m hm).1]
      rcases hw.node m with heq | ⟨_, v', vfs', _, _, hmem⟩
      . exact heq
      . simp at hmem
    . by_cases hmn : m = n
      . rw [if_pos ⟨hmn.trans hdata.symm, hzero⟩, hmn, hD.unmade vfs n rfl]
      . rw [if_neg (fun heq => hmn (heq.1.trans hdata))]
        change (s3.nodes m).vnode = _
        rw [(hsame m hm).1]
        rcases hw.node m with heq | ⟨_, v', vfs', _, _, hmem⟩
        . exact heq
        . rw [List.mem_singleton, Prod.mk.injEq, Loc.new.injEq] at hmem
          exact absurd hmem.2.2 hmn
  have hnew4 : (s3.close d).vnodes s.nextVnode = s3.vnodes s.nextVnode := by
    rw [Forest.close_vnodes, if_neg (by omega)]
  have hself := s.newFile_nodes_self (own (s.vnodes d).data) name type link (d := (s.vnodes d).data)
    (by rw [hdata]; exact hltNode _ hD.attached)
  refine ⟨⟨?_, ?_, ?_, ?_, ?_, ?_, ?_⟩, ?_, ?_, ?_, ?_, hw.next_le, ?_, ?_, ?_⟩
  . exact (hstays.toSteady.trans hmade.toSteady).trans hclose.2.toSteady
  . intro v hv
    have hvlt := h.grove.lt_of_alive hv
    have hle := hw.next_le
    rw [Forest.close_vnodes]
    split
    . next heq =>
      subst heq
      dsimp only
      rw [hd3, halive]
      rcases hrefs with ⟨w, _, _, _, hne⟩ | ⟨_, _, _, hge, _⟩
      . simp [hne]
      . omega
    . rw [hvnodes v (by omega), hw.old v hvlt]
      exact hv
  . intro n v hn hv
    rw [hvnodes4 n hn, hv]
  . intro vfs n v hn hv
    rw [hvnodes4 n hn.attached, hn.unmade vfs n rfl] at hv
    cases hv
  . intro n hn
    exact (hclose.1.forest.secure (hclose.2.attached n (hmade.attached n (hstays.attached n hn)))).1
  . intro n hn
    rw [(hfields n).2.1, (hsame n hn).2.1]
    have := congrArg RamNode.link (hw.same.nodes n)
    exact this
  . intro n hn
    rw [(hfields n).2.2, (hsame n hn).2.2, hw.same.wild_eq]
  . have hentry := congrArg RamNode.dentry (hnode3 _ hD.attached)
    change (s3.nodes (D.node st)).dentry = _ at hentry
    rw [if_pos hdata.symm] at hentry
    refine ⟨⟨name, s.nextNode, (s.nodes (D.node st)).lastseq⟩, (hfields _).1.trans (hentry.trans ?_), rfl,
      hw.same.nextNode⟩
    rw [hw.same.dentry_eq]
  . intro m hm hne
    have hentry := congrArg RamNode.dentry (hnode3 m hm)
    change (s3.nodes m).dentry = _ at hentry
    rw [if_neg (fun heq => hne (heq.trans hdata))] at hentry
    rw [(hfields m).1, hentry]
    exact hw.same.dentry_eq m
  . rw [← hw.same.nextNode]
    have hvnode4 := congrArg RamNode.vnode (hclosed s.nextNode)
    change ((s3.close d).nodes s.nextNode).vnode = _ at hvnode4
    rw [hvnode4, if_neg]
    . exact hvnode
    . rintro ⟨heq, _⟩
      rw [hdata] at heq
      exact hltNode _ hD.attached heq.symm
  . have hfreed4 := congrArg RamNode.freed (hclosed s.nextNode)
    change ((s3.close d).nodes s.nextNode).freed = _ at hfreed4
    rw [← hw.same.nextNode, hfreed4, if_neg]
    . have hlive3 := (hown'.grove.forest.live _ _ hvnode).2
      exact hlive3
    . rintro ⟨heq, _⟩
      rw [hdata] at heq
      exact hltNode _ hD.attached heq.symm
  . rw [hnew4, hnewtype, hself]
    rfl
  . rw [hnew4, hmounted]
  . rw [hnew4, hcount]

omit hs hstays hw hD hdir in
theorem wp_open_created {path : Name} {fuel : Nat} (hexit : ∀ e, resolve st path fuel = some e → e.vn = none)
    : wp (vfs_open path type true fuel)
        (fun r s => r.1 = none → ∃ D name len v, r.2 = some v ∧
          resolve st path fuel = some (.missing D name len) ∧ Placed own st D ∧ D.type st = .VDIR ∧
          type ≠ .VLNK ∧ Created own st s D (strldup name len) type v) (fun _ _ => True) st := by
  unfold vfs_open
  apply wp_bind_of (h.wp_namei path fuel)
  intro r s1 hs1
  rcases hs1 with ⟨⟨hs1, hstays⟩, hsym, e, hresolve, he, hended⟩
  cases hended with
  | missing d D name len hw =>
    simp only [ne_eq, not_true_eq_false, if_true, if_false]
    cases he with
    | missing hD hdir =>
      apply wp_bind_of (wp_conj (hw.wp_acquire (E := fun _ _ => True) List.mem_cons_self (by simp))
        (Settled.acquire d s1 hs1))
      intro _ s2 hs2
      rcases hs2 with ⟨hw2, hs2, hstays2⟩
      have hfreed := hw2.freed_eq_false List.mem_cons_self
      have hlt := hw2.lt_nextVnode List.mem_cons_self
      have htype := hs2.grove.forest.type_eq hlt hfreed
      have hattached : s2.hier.Attached (s2.vnodes d).data := by
        rw [(hw2.members List.mem_cons_self).1]
        apply hstays2.attached
        apply hstays.attached _ hD.attached
      have hcreated := created h hs2 (hstays.trans hstays2) hw2 hD hdir (strldup name len) type []
      unfold ramfs_create
      by_cases hlink : type = .VLNK
      . subst hlink
        apply wp_bind_of wp_alloc_file_link
        intro r s3 hs3
        apply wp_bind_of wp_trivial
        intro _ s4 _ hnone
        exact absurd hnone hs3
      . apply wp_bind_mono (wp_ramfs_alloc_file (P := fun _ => True)
          (R := fun r s' => r.1 = none → r = (none, some s2.nextVnode) ∧ (s'.vnodes d).freed = false ∧
            s'.close d = s2.created d (strldup name len) type []) name len type none hfreed
          (hattached.lt_next hs2.grove.forest.wf).ne (fun hdir => htype ▸ hdir) (by simp) _) (fun _ _ _ => trivial)
        . intro r s3 hs3
          cases hr : r.1 with
          | none =>
            rcases hs3 hr with ⟨rfl, hfreed3, hclose⟩
            apply wp_bind_mono (wp_vfs_close_iff (P := fun _ => True)
              (Q := fun _ s' => s' = s3.close d) hfreed3 rfl) (fun _ _ _ => trivial)
            intro _ s4 hs4 _
            rw [hs4, hclose]
            exact ⟨D, name, len, _, rfl, hresolve, hD, hdir, hlink, hcreated⟩
          | some e =>
            apply wp_bind_of wp_trivial
            intro _ s4 _ hnone
            cases hnone
        . intro _ _
          have hnew := St.newFile_vnodes hs2.grove.forest.fresh (s2.vnodes d).vfs (s2.vnodes d).data
            (strldup name len) type []
          refine ⟨rfl, ?_, rfl⟩
          rw [show Option.getD none [] = ([] : Name) from rfl, hnew.2.1 d (by omega)]
          exact hfreed
  | notdir d D vn name len hw =>
    simp only [ne_eq, Option.some.injEq, reduceCtorEq, not_false_eq_true, if_true]
    apply wp_bind_of wp_trivial
    intro _ s2 _
    apply wp_bind_of wp_trivial
    intro _ s3 _ hnone
    cases hnone
  | found d v D V name len hw => exact absurd (hexit _ hresolve) (by simp [Exit.vn])
  | here d D name len hw => exact absurd (hexit _ hresolve) (by simp [Exit.vn])
  | tail d v D V name len hw => exact absurd (hexit _ hresolve) (by simp [Exit.vn])
  | link d v D V name len hw => exact absurd (hexit _ hresolve) (by simp [Exit.vn])

end Create

section Missing

variable {own : Nat → Nat} {st s : St} {f : Loc → Loc} {L D : Loc} {name nm : Name} {len : Nat}
  {prev : Option Loc}

theorem Resolve.component_absent (h : Resolve.component st L name = some (.done (.missing D nm len)))
    : L = D ∧ name = nm ∧ compLen name = len ∧ Resolve.look st L name (compLen name) = some (.error .ENOENT) := by
  unfold Resolve.component at h
  dsimp only at h
  cases hlook : Resolve.look st L name (compLen name) with
  | none =>
    rw [hlook] at h
    cases h
  | some r =>
    rw [hlook] at h
    cases r with
    | ok V =>
      dsimp only at h
      split at h
      . cases h
      . split at h
        . cases h
        . cases Resolve.nextname_ne _ (Option.some.inj h)
    | error e =>
      cases Resolve.look_error hlook with
      | inl hnotdir =>
        subst hnotdir
        cases h
      | inr hmissing =>
        rw [hmissing.1] at h ⊢
        simp only [Option.some.injEq, Resolve.Round.done.injEq, Exit.missing.injEq] at h
        exact ⟨h.1, h.2.1, h.2.2, rfl⟩

theorem Resolve.look_absent (h : Resolve.look st L name len = some (.error .ENOENT))
    : L.type st = .VDIR ∧ strcmp name ['.'] ≠ 0 ∧ strcmp name ['.', '.'] ≠ 0 := by
  unfold Resolve.look at h
  dsimp only at h
  split at h
  . cases h
  split at h
  . cases h
  . next hdir =>
    rw [not_not] at hdir
    split at h
    . cases h
    . next hdot =>
      split at h
      . split at h
        . cases h
        . cases h
      . next hdots => exact ⟨hdir, hdot, hdots⟩

theorem Moved.missing (h : Moved own st s f) (hgrove : Grove none own st) (hL : Placed own st L)
    (hround : Resolve.round st prev L name = some (.done (.missing D nm len)))
    : Resolve.component st D name = some (.done (.missing D nm len)) ∧
        ∀ prev, Resolve.round s prev (f L) name = Resolve.component s (f D) name := by
  unfold Resolve.round at hround
  split at hround
  . split at hround
    . cases hround
    . cases hround
    . split at hround
      . cases hround
      . cases hround
  . next hname =>
    split at hround
    . next hdotdot =>
      cases hup : Resolve.up st (st.nextVfs + 1) L with
      | none =>
        rw [hup] at hround
        cases hround
      | some U =>
        rw [hup] at hround
        cases U with
        | root X => cases Resolve.nextname_ne _ (Option.some.inj hround)
        | dir X =>
          dsimp only at hround
          rcases Resolve.component_absent hround with ⟨rfl, _⟩
          refine ⟨hround, ?_⟩
          intro prev
          unfold Resolve.round
          rw [if_neg hname, if_pos hdotdot, h.nextVfs, h.up hgrove hL hup]
          rfl
    . next hdotdot =>
      rcases Resolve.component_absent hround with ⟨rfl, _⟩
      refine ⟨hround, ?_⟩
      intro prev
      unfold Resolve.round
      rw [if_neg hname, if_neg hdotdot]

end Missing

namespace Created

variable {own : Nat → Nat} {st s : St} {D : Loc} {name path : Name} {len fuel v : Nat} {type : VType}
  (h : Created own st s D (strldup name len) type v) (hgrove : Grove none own st) (hD : Placed own st D)

include h

theorem sameFind {a : Loc × Name} (ha : Placed own st a.1)
    (hshadow : a.1.node st = D.node st → ¬ a.2.takeWhile (· ≠ '/') <+: name)
    : SameFind st s (a.1.node st) a.2 := by
  unfold SameFind
  by_cases hnode : a.1.node st = D.node st
  . rcases h.entry with ⟨de, hentry, hname, _⟩
    have hother : ¬ a.2.takeWhile (· ≠ '/') <+: de.name := by
      intro hbegins
      rw [hname] at hbegins
      exact hshadow hnode (hbegins.trans (List.take_prefix len name))
    rw [hnode, hentry, find_takeWhile, find_takeWhile, List.find?_cons, decide_eq_false hother]
  . rw [h.other _ ha.attached hnode]

include hgrove hD

theorem look (hlen : compLen name = len) (habsent : Resolve.look st D name (compLen name) = some (.error .ENOENT))
    : Resolve.look s (reloc s D) name (compLen name) = some (.ok (.old v)) := by
  have hmoved := h.kin.moved hgrove
  rcases Resolve.look_absent habsent with ⟨hdir, hdot, hdots⟩
  rcases h.entry with ⟨de, hentry, hname, hmade⟩
  have hself : ramfs_lookup.find name (compLen name) (s.nodes (D.node st)).dentry = some de := by
    rw [hentry, find_takeWhile, List.find?_cons, hname]
    unfold strldup
    rw [← hlen, takeWhile_append_drop, decide_eq_true (List.prefix_refl _)]
  have hlt := hD.attached.lt_next hgrove.forest.wf
  rw [St.hier_next] at hlt
  unfold Resolve.look
  dsimp only
  rw [hmoved.node D hD, if_neg (by simp [hmoved.alive _ hD.attached]), hmoved.type D hD, hdir, if_neg (by simp),
    if_neg hdot, if_neg hdots, hself]
  dsimp only
  rw [hmade, if_neg (not_or.mpr ⟨by omega, by simp [h.live]⟩)]
  unfold Loc.get
  rw [h.vnode]

theorem component (htype : type ≠ .VLNK) (hdrop : name.drop len = []) (hlen : compLen name = len)
    (habsent : Resolve.look st D name (compLen name) = some (.error .ENOENT))
    : Resolve.component s (reloc s D) name = some (.done (.found (reloc s D) (.old v))) := by
  have hcross : Resolve.cross s (reloc s D) (s.nextVfs + 1) (.old v) = some (.old v) := by
    unfold Resolve.cross
    have hnone : (Loc.old v).mountedhere s = none := h.mountedhere
    rw [hnone]
    simp
  have hnot : (Loc.old v).type s ≠ .VLNK := by
    change (s.vnodes v).type ≠ .VLNK
    rw [h.type]
    exact htype
  unfold Resolve.component
  dsimp only
  rw [h.look hgrove hD hlen habsent]
  dsimp only
  rw [hcross, hlen, hdrop]
  dsimp only
  rw [if_neg (by simp [hnot])]
  rfl

theorem resolve (hresolve : Fs.resolve st path fuel = some (.missing D name len)) (htype : type ≠ .VLNK)
    (hdrop : name.drop len = []) (hasks : Unshadowed st path fuel (D.node st) name)
    : ∃ e, Fs.resolve s path fuel = some e ∧ e.vn = some (.old v) := by
  have hmoved := h.kin.moved hgrove
  rcases hmoved.namei hgrove (by simp) hresolve (fun a ha hplaced => h.sameFind hplaced (hasks a ha)) with
    ⟨prev', L', fuel', fuel'', hL', _, hround, hwalk⟩
  rcases hmoved.missing hgrove hL' hround with ⟨hcomponent, hrounds⟩
  rcases Resolve.component_absent hcomponent with ⟨_, hname, hlen, habsent⟩
  rw [hname] at hwalk hrounds hlen habsent
  refine ⟨.found (reloc s D) (.old v), ?_, rfl⟩
  unfold Fs.resolve
  rw [Option.map_none] at hwalk
  rw [hwalk, Resolve.lookup, hrounds, h.component hgrove hD htype hdrop hlen habsent]
  rfl

end Created

theorem openGives_of_unshadowed {own : Nat → Nat} {st : St} {path : Name} {type : VType} {fuel : Nat}
    (h : Sown own st) {g : Garbage} (hclear : Clear st g) (hopen : Openable st path true fuel)
    : OpenGives st g path type true fuel := by
  intro vn s hrun
  have hexit : ∀ e, resolve st path fuel = some e → e.vn = none := by
    intro e he
    rcases hopen e he with ⟨D, rfl⟩ | ⟨D, name, len, rfl, _⟩
    . rfl
    . rfl
  have hcreated := @wp_open_created own st h type path fuel hexit
  rw [wp_of_ok hrun] at hcreated
  rcases hcreated rfl with ⟨D, name, len, v, hvn, hresolve, hD, _, htype, hcreated⟩
  rcases hopen _ hresolve with ⟨_, he⟩ | ⟨_, _, _, he, hdrop, hasks, _⟩
  . cases he
  . simp only [Exit.missing.injEq] at he
    rcases he with ⟨rfl, rfl, rfl⟩
    rcases hcreated.resolve h.grove hD hresolve htype hdrop hasks with ⟨e', hresolve', hv⟩
    rw [hclear.eq_of_junk hcreated.kin.steady.junk]
    refine ⟨v, e', hvn, hresolve', hv, ?_⟩
    rw [if_neg (by have := hcreated.le; omega), hcreated.refcount]

/--
`vfs_open` returns the vnode that the path leads to afterwards, with one reference more, if the path is
`Openable`. Without `O_CREATE` it does so only then, and with `O_CREATE` never for a name that exists.
-/
theorem vfs_open_gives {st : St} (h : Grown st) {g : Garbage} (hclear : Clear st g) (path : Name) (type : VType)
    (create : Bool) (fuel : Nat)
    : (Openable st path create fuel → OpenGives st g path type create fuel) ∧
        (Quiet st → OpenGives st g path type create fuel → if create then
          ∀ e, resolve st path fuel = some e → e.vn = none else Openable st path create fuel) := by
  rcases h with ⟨own, h⟩
  constructor
  . intro hopen
    cases create with
    | true => exact openGives_of_unshadowed h hclear hopen
    | false => exact openGives_of_not_strays h.grove hclear hopen
  . intro hquiet hgives
    cases create with
    | true =>
      rw [if_pos rfl]
      intro e he
      by_contra hvn
      exact not_openGives_exists ⟨own, h⟩ hquiet he hvn hgives
    | false =>
      rw [if_neg (by simp)]
      exact not_strays_of_openGives ⟨own, h⟩ hquiet hgives

theorem openable_booted : Openable (booted zeroed) "/a".toList true 1 := by
  have hresolve : resolve (booted zeroed) "/a".toList 1 = some (.missing (.old 0) ['a'] 1) := rfl
  have hasks : Resolve.asks (booted zeroed) 1 "/a".toList none = [] := rfl
  intro e he
  rw [hresolve, Option.some.injEq] at he
  refine Or.inr ⟨.old 0, ['a'], 1, he.symm, rfl, ?_, rfl⟩
  unfold Unshadowed
  rw [hasks]
  simp

theorem vfs_open_gives_booted
    : Openable (booted zeroed) "/a".toList true 1 ∧
        OpenGives (booted zeroed) ⟨false, fun _ => false⟩ "/a".toList .VREG true 1 ∧
        (OpenGives (booted zeroed) ⟨false, fun _ => false⟩ "/a".toList .VREG true 1 →
          ∀ e, resolve (booted zeroed) "/a".toList 1 = some e → e.vn = none) := by
  have hclear : Clear (booted zeroed) ⟨false, fun _ => false⟩ := ⟨rfl, fun _ => rfl, fun _ => rfl⟩
  have hopen := vfs_open_gives Grown.booted hclear "/a".toList .VREG true 1
  exact ⟨openable_booted, hopen.1 openable_booted, hopen.2 Quiet.booted⟩

theorem not_openGives_booted
    : (∃ s, vfs_open "/".toList .VDIR true 1 (booted zeroed) = .ok (none, none) s) ∧
        ∀ g, ¬ OpenGives (booted zeroed) g "/".toList .VDIR true 1 := by
  have hresult : result (vfs_open "/".toList .VDIR true 1) (booted zeroed) = some (none, none) := by
    rfl
  refine ⟨⟨_, ok_of_result hresult⟩, ?_⟩
  intro g hgives
  rcases hgives _ _ (ok_of_result hresult) with ⟨v, e, hv, _⟩
  cases hv

end Fs
end Franklin
