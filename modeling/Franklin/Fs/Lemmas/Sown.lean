import Franklin.Fs.Lemmas.Grove

/-!
This module contains that the calls other than `vfs_mount` and `vfs_unmount` keep the trees of all file
systems consistent.
-/

namespace Franklin
namespace Fs

structure Sown (own : Nat → Nat) (s : St) : Prop where
  grove : Grove none own s
  lists : Lists own s

def Grown (s : St) : Prop :=
  ∃ own, Sown own s

def Settled (own : Nat → Nat) {α : Type} (x : Prog α) : Prop :=
  Keeps (Sown own) Stays x

namespace Settled

variable {own : Nat → Nat} {α β : Type} {v : Nat}

theorem of_calm {x : Prog α} (hx : Calm none own x) (hl : Apart own x) : Settled own x := by
  intro s hs
  apply wp_mono (wp_conj (hx s hs.grove) (hl s hs.lists))
  . intro a s1 hs1
    exact ⟨⟨hs1.1.1, hs1.2.1⟩, hs1.1.2⟩
  . simp

theorem pure (a : α) : Settled own (pure a : Prog α) :=
  Keeps.pure Stays.refl a

theorem throw (e : Stop) : Settled own (throw e : Prog α) :=
  Keeps.throw e

theorem bind {x : Prog α} {f : α → Prog β} (hx : Settled own x) (hf : ∀ a, Settled own (f a))
    : Settled own (x >>= f) :=
  Keeps.bind (fun _ _ _ h h1 => h.trans h1) hx hf

theorem ite {c : Prop} [Decidable c] {x y : Prog α} (hx : Settled own x) (hy : Settled own y)
    : Settled own (if c then x else y) :=
  Keeps.ite hx hy

theorem getVnode (v : Nat) : Settled own (getVnode v) := by
  intro s hs
  rw [wp_getVnode]
  exact ⟨fun _ => trivial, fun _ => ⟨hs, Stays.refl s⟩⟩

theorem acquire (v : Nat) : Settled own (acquire v) :=
  of_calm Calm.acquire (Apart.acquire v)

theorem release (v : Nat) : Settled own (release v) :=
  of_calm Calm.release (Apart.release v)

theorem vfs_close (v : Nat) : Settled own (vfs_close v) :=
  of_calm Calm.vfs_close (Apart.vfs_close v)

theorem vputOpt (vn : Option Nat) : Settled own (vputOpt vn) :=
  of_calm (Calm.vputOpt vn) (Apart.walk.vputOpt vn)

theorem setList (b : Bool) {s : St} (hs : Sown own s)
    : Sown own { s with vfslistLock := b } ∧ Stays s { s with vfslistLock := b } := by
  rcases Calm.setList b hs.grove with ⟨hgrove, hstays⟩
  refine ⟨⟨hgrove, hs.lists.congr rfl rfl rfl ?_⟩, hstays⟩
  exact fun _ => ⟨rfl, rfl⟩

theorem acquireList : Settled own acquireList := by
  intro s hs
  rw [wp_acquireList]
  exact ⟨fun _ => trivial, fun _ => setList true hs⟩

theorem releaseList : Settled own releaseList := by
  intro s hs
  rw [wp_releaseList]
  apply setList false hs

theorem closeBoth (v w : Nat) (error : Code) : Settled own (do
    vput v
    vrele w
    Pure.pure error) := by
  apply (vfs_close v).bind
  intro _
  apply (vfs_close w).bind
  intro _
  apply pure

theorem closeFailed (v : Nat) (vn : Option Nat) (e : Errno) : Settled own (do
    Fs.vputOpt vn
    vput v
    Pure.pure (some e : Code)) := by
  apply (vputOpt vn).bind
  intro _
  apply (vfs_close v).bind
  intro _
  apply pure

theorem grown {x : Prog α} {s : St} (hx : Settled own x) (hs : Sown own s)
    : wp x (fun _ s' => Grown s') (fun _ _ => True) s := by
  apply wp_mono (hx s hs)
  . intro a s1 hs1
    exact ⟨own, hs1.1⟩
  . simp

end Settled

theorem Stays.live {own own' : Nat → Nat} {s s' : St} {v : Nat} (h : Stays s s') (hwf : s'.hier.WF)
    (hv : Live own s v) (hown : ∀ n, n < s.nextNode → own' n = own n) : Live own' s' v := by
  have hattached := h.attached _ (Or.inl hv.1)
  have hnode := h.node _ hv.1.1
  have hroot := hv.1
  unfold Live
  unfold Hier.Root at hroot ⊢
  rw [(h.vfss v).2.1]
  rw [St.hier_node] at hroot ⊢
  simp only [RamNode.hnode] at hroot ⊢
  rw [hnode.1, hnode.2, hown _ hv.1.1]
  exact ⟨⟨hattached.lt_next hwf, hroot.2.1, hroot.2.2.1, hattached.freed_eq hwf⟩, hv.2⟩

theorem Ended.placed {own : Nat → Nat} {st s : St} {e : Exit} {r : Code × Nameidata} (h : Ended st s e r)
    (he : e.Placed own st)
    : ∃ held vl, Walked st s held vl [] ∧ ∀ v L, (v, L) ∈ held → Placed own st L := by
  cases h with
  | found d v D V name len h =>
    cases he with
    | found hD hV =>
      refine ⟨_, _, h, ?_⟩
      intro w L hL
      simp only [List.mem_cons, Prod.mk.injEq, List.not_mem_nil, or_false] at hL
      rcases hL with ⟨_, rfl⟩ | ⟨_, rfl⟩
      . apply hV
      . apply hD
  | here d D name len h =>
    cases he with
    | here hD =>
      refine ⟨_, _, h, ?_⟩
      intro w L hL
      simp only [List.mem_cons, Prod.mk.injEq, List.not_mem_nil, or_false, or_self] at hL
      rw [hL.2]
      apply hD
  | tail d v D V name len h =>
    cases he with
    | tail hD hV =>
      refine ⟨_, _, h, ?_⟩
      intro w L hL
      simp only [List.mem_cons, Prod.mk.injEq, List.not_mem_nil, or_false] at hL
      rcases hL with ⟨_, rfl⟩ | ⟨_, rfl⟩
      . apply hD
      . apply hV
  | link d v D V name len h =>
    cases he with
    | link hD hV =>
      refine ⟨_, _, h, ?_⟩
      intro w L hL
      simp only [List.mem_cons, Prod.mk.injEq, List.not_mem_nil, or_false] at hL
      rcases hL with ⟨_, rfl⟩ | ⟨_, rfl⟩
      . apply hV
      . apply hD
  | missing d D name len h =>
    cases he with
    | missing hD =>
      refine ⟨_, _, h, ?_⟩
      intro w L hL
      simp only [List.mem_cons, Prod.mk.injEq, List.not_mem_nil, or_false] at hL
      rw [hL.2]
      apply hD
  | notdir d D vn name len h =>
    cases he with
    | notdir hD =>
      refine ⟨_, _, h, ?_⟩
      intro w L hL
      simp only [List.mem_cons, Prod.mk.injEq, List.not_mem_nil, or_false] at hL
      rw [hL.2]
      apply hD

theorem Sown.wp_namei {own : Nat → Nat} {st : St} (h : Sown own st) (path : Name) (fuel : Nat)
    : wp (namei path fuel)
        (fun r s => (Sown own s ∧ Stays st s) ∧ r.2.issymlink = false ∧
          ∃ e, resolve st path fuel = some e ∧ e.Placed own st ∧ Ended st s e r) (fun _ _ => True) st := by
  have hfixed := Fixed.walk.namei path fuel st trivial
  have hlisting := Apart.walk.namei path fuel st h.lists
  apply wp_mono (wp_conj (wp_conj (Fs.wp_namei h.grove.forest.inv path fuel) hfixed) hlisting)
  . intro r s hs
    rcases hs with ⟨⟨⟨e, hresolve, hended, hsym⟩, _, hsame⟩, hlists, _⟩
    have he := Placed.resolve h.grove hresolve
    rcases hended.placed he with ⟨held, vl, hw, hheld⟩
    rcases h.grove.walked hw hsame hheld with ⟨hgrove, hstays⟩
    exact ⟨⟨⟨hgrove, hlists⟩, hstays⟩, hsym, e, hresolve, he, hended⟩
  . simp

section Ops

variable {own : Nat → Nat} {st s : St} {d v : Nat} {name : Name} {len : Nat} (h : Sown own s)

include h

theorem Sown.newFile {n : Nat} (hn : s.hier.Attached n) (hdir : (s.nodes n).type = .VDIR)
    (hlive : Live own s (own n)) (name : Name) (type : VType) (link : Name)
    : Grown ((s.newFile (own n) n name type link).vnew (own n) s.nextNode) ∧
        Stays s ((s.newFile (own n) n name type link).vnew (own n) s.nextNode) := by
  have hforest := h.grove.forest
  have hlt : n < s.nextNode := hn.lt_next hforest.wf
  rcases h.grove.newFile (own n) name type link hn hdir with ⟨hgrove, hstays⟩
  have hnode := s.newFile_nodes_self (own n) name type link (d := n) (by omega)
  have hlists := h.lists.newFile name type link hlt
  have hunmade : ((s.newFile (own n) n name type link).nodes s.nextNode).vnode = none := by
    rw [hnode]
    rfl
  have hunlocked : ((s.newFile (own n) n name type link).nodes s.nextNode).ramlock = false := by
    rw [hnode]
    rfl
  have hattached : (s.newFile (own n) n name type link).hier.Attached s.nextNode := by
    refine Or.inr ⟨n, ?_⟩
    rw [St.hier_newFile _ _ _ _ (by omega), Hier.entries_create hforest.wf hn, if_pos rfl]
    apply Multiset.mem_cons_self
  have hkept : ∀ m, m < s.nextNode → Function.update own s.nextNode (own n) m = own m := by
    intro m hm
    rw [Function.update_of_ne (by omega)]
  have hself : Function.update own s.nextNode (own n) s.nextNode = own n := Function.update_self ..
  have hnewlive := hstays.live hgrove.forest.wf hlive hkept
  have hvnew := hgrove.vnew hunmade hunlocked hattached (fun _ => hself.symm) hnewlive
  exact ⟨⟨_, hvnew.1, hlists.vnew _ _⟩, hstays.trans hvnew.2⟩

theorem Sown.wp_alloc_file (hd : s.hier.Attached (s.vnodes d).data) (type : VType) (target : Option Name)
    : wp (ramfs_alloc_file d name len type target) (fun _ s' => Grown s') (fun _ _ => True) s := by
  cases hfreed : (s.vnodes d).freed with
  | true =>
    unfold ramfs_alloc_file
    rw [wp_bind, wp_getVnode]
    exact ⟨fun _ => trivial, fun halive => absurd (hfreed.symm.trans halive) (by simp)⟩
  | false =>
    have hforest := h.grove.forest
    have htype := hforest.type_eq (h.grove.lt_of_alive hfreed) hfreed
    have hlt : (s.vnodes d).data < s.nextNode := hd.lt_next hforest.wf
    apply wp_mono (wp_ramfs_alloc_file (P := fun _ => True) (R := fun _ s' => Grown s') name len type
      target hfreed (by omega) (fun hdir => htype ▸ hdir) ⟨own, h⟩ _)
    . intro _ s1 hs1
      apply hs1
    . simp
    . intro hdir
      have hvfs := h.grove.vnode d hfreed hdir
      have hlive := h.grove.live d hfreed
      rw [htype] at hdir
      rw [hvfs] at hlive ⊢
      exact (h.newFile hd hdir hlive (strldup name len) type (target.getD [])).1

theorem Sown.wp_ramfs_link (hd : s.hier.Attached (s.vnodes d).data) (hdir : (s.vnodes d).type = .VDIR)
    (hn : s.hier.Attached (s.vnodes v).data) (hleaf : (s.vnodes v).type ≠ .VDIR)
    : wp (ramfs_link d v name) (fun _ s' => Grown s') (fun _ _ => True) s := by
  have hfault : ∀ w, (w = d ∨ w = v) → (s.vnodes w).freed = true →
      wp (ramfs_link d v name) (fun _ s' => Grown s') (fun _ _ => True) s := by
    intro w hw hfreed
    unfold ramfs_link
    rw [wp_bind, wp_getVnode]
    refine ⟨fun _ => trivial, ?_⟩
    intro hd
    rw [wp_bind, wp_getVnode]
    refine ⟨fun _ => trivial, ?_⟩
    intro hv
    cases hw with
    | inl hw =>
      rw [hw, hd] at hfreed
      cases hfreed
    | inr hw =>
      rw [hw, hv] at hfreed
      cases hfreed
  cases hvdir : (s.vnodes d).freed with
  | true => apply hfault d (Or.inl rfl) hvdir
  | false =>
    cases hvn : (s.vnodes v).freed with
    | true => apply hfault v (Or.inr rfl) hvn
    | false =>
      have hforest := h.grove.forest
      rw [hforest.type_eq (h.grove.lt_of_alive hvdir) hvdir] at hdir
      rw [hforest.type_eq (h.grove.lt_of_alive hvn) hvn] at hleaf
      have hne : (s.vnodes d).data ≠ (s.vnodes v).data := by
        intro heq
        rw [heq] at hdir
        exact hleaf hdir
      apply wp_mono (Fs.wp_ramfs_link (P := fun _ => True) (R := fun _ s' => Grown s') name hvdir hvn _
        ⟨own, (h.grove.hardLink name hd hdir hn hleaf).1, h.lists.hardLink _ _ name⟩)
      . intro _ s1 hs1
        apply hs1
      . simp
      . unfold St.addLink
        rw [St.updNode_nodes_of_ne hne]
        apply hdir

theorem Sown.next_of_mem {de : RamDentry} (hde : de ∈ (s.nodes d).dentry)
    : ∃ m, (s.nodes de.node).next = .ref m := by
  have hmem := Forest.mem_entries hde
  have hlt := h.grove.forest.wf.bound _ _ hmem
  cases h.lists.last de.node hlt with
  | inl hnext => apply hnext
  | inr hlast =>
    have hisDir : (s.hier.node de.node).isDir = true := by
      simpa [St.hier_node, RamNode.hnode] using hlast.2.1
    have hparent := (h.grove.forest.wf.parent _ _ hmem hisDir).1
    rw [St.hier_node] at hparent
    simp only [RamNode.hnode] at hparent
    rw [hlast.2.2.1] at hparent
    exact absurd hparent (Hier.ne_of_mem h.grove.forest.wf hmem)

theorem Sown.wp_ramfs_remove
    : wp (ramfs_remove d v name) (fun _ s' => Grown s') (fun _ _ => True) s := by
  have hfault : ((s.vnodes d).freed = true ∨ (s.vnodes v).freed = true) →
      wp (ramfs_remove d v name) (fun _ s' => Grown s') (fun _ _ => True) s := by
    intro hfreed
    unfold ramfs_remove
    rw [wp_bind, wp_getVnode]
    refine ⟨fun _ => trivial, ?_⟩
    intro hd
    rw [wp_bind, wp_getVnode]
    refine ⟨fun _ => trivial, ?_⟩
    intro hv
    rw [hd, hv] at hfreed
    simp at hfreed
  cases hvdir : (s.vnodes d).freed with
  | true => apply hfault (Or.inl hvdir)
  | false =>
    cases hvn : (s.vnodes v).freed with
    | true => apply hfault (Or.inr hvn)
    | false =>
      apply wp_mono (Fs.wp_ramfs_remove (P := fun _ => True) (R := fun _ s' => Grown s') name hvdir hvn
        (fun _ _ _ => trivial) (fun _ _ _ _ _ => trivial) (fun _ => ⟨own, h⟩) _)
      . intro _ s1 hs1
        apply hs1
      . simp
      . intro de hde hleaf hnode _
        rw [h.grove.forest.type_eq (h.grove.lt_of_alive hvn) hvn, ← hnode] at hleaf
        exact ⟨own, h.grove.unlinkFile hde hleaf, h.lists.unlinkFile _ de (h.next_of_mem hde)⟩

theorem Sown.wp_ramfs_rmdir (hdir : (s.vnodes v).type = .VDIR) (hhere : (s.vnodes v).mountedhere = none)
    : wp (ramfs_rmdir d v name len) (fun _ s' => Grown s') (fun _ _ => True) s := by
  have hfault : ((s.vnodes d).freed = true ∨ (s.vnodes v).freed = true) →
      wp (ramfs_rmdir d v name len) (fun _ s' => Grown s') (fun _ _ => True) s := by
    intro hfreed
    unfold ramfs_rmdir
    rw [wp_bind, wp_getVnode]
    refine ⟨fun _ => trivial, ?_⟩
    intro hd
    rw [wp_bind, wp_getVnode]
    refine ⟨fun _ => trivial, ?_⟩
    intro hv
    rw [hd, hv] at hfreed
    simp at hfreed
  cases hvdir : (s.vnodes d).freed with
  | true => apply hfault (Or.inl hvdir)
  | false =>
    cases hvn : (s.vnodes v).freed with
    | true => apply hfault (Or.inr hvn)
    | false =>
      rw [h.grove.forest.type_eq (h.grove.lt_of_alive hvn) hvn] at hdir
      apply wp_mono (Fs.wp_ramfs_rmdir (P := fun _ => True) (R := fun _ s' => Grown s') name len hvdir hvn
        (fun _ _ _ _ => trivial) (fun _ _ => trivial) (fun _ _ _ _ _ => trivial) (fun _ => ⟨own, h⟩) _)
      . intro _ s1 hs1
        apply hs1
      . simp
      . intro de hde _ hempty hnode _
        have hde := Op.mem_of_dropLinks hde
        rw [← hnode] at hdir hempty
        exact ⟨own, h.grove.unlinkDir hde hvn hnode hhere hdir hempty,
          h.lists.unlinkDir _ de (h.next_of_mem hde)⟩

end Ops

theorem Placed.attached_held {own : Nat → Nat} {st s : St} {held : List (Nat × Loc)} {vl nl : List Nat}
    {v : Nat} {L : Loc} (hL : Placed own st L) (hw : Walked st s held vl nl) (hmem : (v, L) ∈ held)
    (hstays : Stays st s) : v < s.nextVnode ∧ s.hier.Attached (s.vnodes v).data := by
  refine ⟨hw.lt_nextVnode hmem, ?_⟩
  rw [(hw.members hmem).1]
  apply hstays.attached _ hL.attached

theorem Exit.Placed.vn {own : Nat → Nat} {st : St} {e : Exit} {V : Loc} (he : e.Placed own st)
    (hV : e.vn = some V) : Fs.Placed own st V := by
  cases he with
  | found hD hW => exact (Option.some.inj hV) ▸ hW
  | here hD => exact (Option.some.inj hV) ▸ hD
  | tail hD hW => exact (Option.some.inj hV) ▸ hD
  | link hD hW => exact (Option.some.inj hV) ▸ hW
  | missing hD hdir => cases hV
  | notdir hD => cases hV

section Calls

variable {own : Nat → Nat} {st s : St} {path target : Name} {fuel : Nat} (h : Sown own st)

include h

theorem wp_after_missing {α : Type} {f : Code × Nameidata → Prog α}
    (hmissing : ∀ d name len s, Sown own s → Stays st s → s.hier.Attached (s.vnodes d).data →
      d < s.nextVnode → (s.vnodes d).type = .VDIR →
      wp (f (some .ENOENT, ⟨d, none, name, len, false⟩)) (fun _ s' => Grown s') (fun _ _ => True) s)
    (hrest : ∀ r, r.1 ≠ some .ENOENT → Settled own (f r))
    : wp (namei path fuel >>= f) (fun _ s' => Grown s') (fun _ _ => True) st := by
  apply wp_bind_of (h.wp_namei path fuel)
  intro r s1 hs1
  rcases hs1 with ⟨⟨hs, hstays⟩, hsym, e, _, he, hended⟩
  cases hended with
  | missing d D name len hw =>
    cases he with
    | missing hD hdir =>
      rcases hD.attached_held hw List.mem_cons_self hstays with ⟨hlt, hattached⟩
      apply hmissing d name len s1 hs hstays hattached hlt
      rw [(hw.members List.mem_cons_self).2.1, hdir]
  | found d v D V name len hw => apply (hrest _ (by simp)).grown hs
  | here d D name len hw => apply (hrest _ (by simp)).grown hs
  | tail d v D V name len hw => apply (hrest _ (by simp)).grown hs
  | link d v D V name len hw => simp at hsym
  | notdir d D vn name len hw => apply (hrest _ (by simp)).grown hs

omit h in
theorem wp_alloc_closed {α : Type} {d len : Nat} {name : Name} {type : VType} {link : Option Name}
    {f : Code × Option Nat → Prog α} (hs : Sown own s) (hd : s.hier.Attached (s.vnodes d).data)
    (hlt : d < s.nextVnode) (hf : ∀ r own, Settled own (f r))
    : wp (do
          acquire d
          let r ← ramfs_alloc_file d name len type link
          f r) (fun _ s' => Grown s') (fun _ _ => True) s := by
  apply wp_bind_of (Settled.acquire d s hs)
  intro _ s1 hs1
  have hd1 : s1.hier.Attached (s1.vnodes d).data := by
    rw [hs1.2.data_eq hlt]
    apply hs1.2.attached _ hd
  apply wp_bind_of (hs1.1.wp_alloc_file hd1 type link)
  intro r s2 hs2
  rcases hs2 with ⟨own', hs2⟩
  apply (hf r own').grown hs2

theorem Sown.wp_vfs_open {type : VType} {create : Bool}
    : wp (vfs_open path type create fuel) (fun _ s' => Grown s') (fun _ _ => True) st := by
  have hclose : ∀ (v : Nat) (r : Code × Option Nat) own, Settled own (do
      vrele v
      pure r) := by
    intro v r own
    apply (Settled.vfs_close v).bind
    intro _
    apply Settled.pure
  unfold vfs_open
  cases create with
  | false =>
    apply wp_bind_of (h.wp_namei path fuel)
    intro r s1 hs1
    apply (hclose _ _ own).grown hs1.1.1
  | true =>
    apply wp_after_missing h
    . intro d name len s hs _ hattached hlt _
      simp only [ne_eq, not_true_eq_false, if_true, if_false]
      apply wp_alloc_closed hs hattached hlt
      intro r own'
      apply hclose
    . intro r hr
      simp only [if_true, hr, ne_eq, not_false_eq_true]
      apply (Settled.vfs_close _).bind
      intro _
      apply (Settled.vputOpt _).bind
      intro _
      apply Settled.pure

theorem Sown.wp_vfs_mkdir
    : wp (vfs_mkdir path fuel) (fun _ s' => Grown s') (fun _ _ => True) st := by
  unfold vfs_mkdir
  split
  . exact ⟨own, h⟩
  . apply wp_after_missing h
    . intro d name len s hs _ hattached hlt htype
      simp only [ne_eq, not_true_eq_false, if_false]
      apply wp_bind_of (Settled.acquire d s hs)
      intro _ s1 hs1
      rw [wp_bind, wp_getVnode]
      refine ⟨fun _ => trivial, ?_⟩
      intro _
      split
      . next hne =>
        rw [hs1.2.type_eq hlt, htype] at hne
        exact absurd rfl hne
      . have hd1 : s1.hier.Attached (s1.vnodes d).data := by
          rw [hs1.2.data_eq hlt]
          apply hs1.2.attached _ hattached
        apply wp_bind_of (hs1.1.wp_alloc_file hd1 .VDIR none)
        intro r s2 hs2
        rcases hs2 with ⟨own', hs2⟩
        have hclose : Settled own' (do
            vrele d
            pure (r.1, r.2)) := by
          apply (Settled.vfs_close d).bind
          intro _
          apply Settled.pure
        apply hclose.grown hs2
    . intro r hr
      simp only [hr, ne_eq, not_false_eq_true, if_true]
      apply (Settled.vfs_close _).bind
      intro _
      apply (Settled.vputOpt _).bind
      intro _
      apply Settled.pure

theorem Sown.wp_vfs_symlink
    : wp (vfs_symlink path target fuel) (fun _ s' => Grown s') (fun _ _ => True) st := by
  unfold vfs_symlink ramfs_symlink
  apply wp_after_missing h
  . intro d name len s hs _ hattached hlt _
    simp only [ne_eq, not_true_eq_false, if_false, bind_assoc, pure_bind]
    apply wp_alloc_closed hs hattached hlt
    intro r own'
    apply (Settled.vfs_close d).bind
    intro _
    apply Settled.pure
  . intro r hr
    simp only [hr, ne_eq, not_false_eq_true, if_true]
    apply (Settled.vfs_close _).bind
    intro _
    apply (Settled.vputOpt _).bind
    intro _
    apply Settled.pure

omit h in
theorem wp_closed {x : Prog Code} {v w : Nat} (hx : wp x (fun _ s' => Grown s') (fun _ _ => True) s)
    : wp (do
          let error ← x
          vput v
          vrele w
          pure error) (fun _ s' => Grown s') (fun _ _ => True) s := by
  apply wp_bind_of hx
  intro error s1 hs1
  rcases hs1 with ⟨own', hs1⟩
  apply (Settled.closeBoth v w error).grown hs1

theorem Sown.wp_vfs_unlink
    : wp (vfs_unlink path fuel) (fun _ s' => Grown s') (fun _ _ => True) st := by
  unfold vfs_unlink
  apply wp_bind_of (h.wp_namei path fuel)
  intro r s1 hs1
  rcases hs1 with ⟨⟨hs, _⟩, _⟩
  rcases r with ⟨error, vdir, found, name, len, issymlink⟩
  cases error with
  | some e => apply (Settled.closeFailed vdir found e).grown hs
  | none =>
  cases found with
  | none => trivial
  | some vn =>
    apply wp_bind_of (Settled.acquire vn s1 hs)
    intro _ s2 hs2
    have hremove : ∀ {s : St}, Sown own s → wp (do
        let v ← getVnode vn
        let error ← if v.vroot then pure (some Errno.EBUSY) else ramfs_remove vdir vn name
        vput vdir
        vrele vn
        pure error) (fun _ s' => Grown s') (fun _ _ => True) s := by
      intro s hs
      rw [wp_bind, wp_getVnode]
      refine ⟨fun _ => trivial, ?_⟩
      intro _
      dsimp only
      split
      . apply wp_closed
        exact ⟨own, hs⟩
      . apply wp_closed
        apply hs.wp_ramfs_remove
    split
    . apply wp_bind_of (Settled.acquire vdir s2 hs2.1)
      intro _ s3 hs3
      apply hremove hs3.1
    . apply hremove hs2.1

omit h in
theorem uncovered_of_found {e : Exit} {r : Code × Nameidata} {v : Nat} (hsym : r.2.issymlink = false)
    (herror : r.1 = none) (hvn : r.2.vn = some v) (hne : r.2.vdir ≠ v) (he : e.Placed own st)
    (hended : Ended st s e r)
    : v < s.nextVnode ∧ ((s.vnodes v).type = .VDIR → (s.vnodes v).mountedhere = none) := by
  cases hended with
  | found d w D V name len hw =>
    rw [Option.some.injEq] at hvn
    dsimp only at hvn hne
    subst hvn
    refine ⟨hw.lt_nextVnode List.mem_cons_self, ?_⟩
    intro hdir
    rcases hw.members List.mem_cons_self with ⟨_, htype, _, _, hhere⟩
    rw [htype] at hdir
    rw [hhere]
    cases he with
    | found hD hV huncovered =>
      cases huncovered hdir with
      | inl hnone => apply hnone
      | inr hsame =>
        rcases hsame with ⟨x, rfl, rfl⟩
        have hd := hw.old_held (List.mem_cons_of_mem _ List.mem_cons_self)
        have hw := hw.old_held List.mem_cons_self
        rw [hd, hw] at hne
        exact absurd rfl hne
  | here d D name len hw =>
    rw [Option.some.injEq] at hvn
    exact absurd hvn hne
  | tail d w D V name len hw =>
    rw [Option.some.injEq] at hvn
    exact absurd hvn hne
  | link d w D V name len hw => simp at hsym
  | missing d D name len hw => simp at herror
  | notdir d D vn name len hw => simp at herror

theorem Sown.wp_vfs_rmdir
    : wp (vfs_rmdir path fuel) (fun _ s' => Grown s') (fun _ _ => True) st := by
  unfold vfs_rmdir
  apply wp_bind_of (h.wp_namei path fuel)
  intro r s1 hs1
  rcases hs1 with ⟨⟨hs, _⟩, hsym, e, _, he, hended⟩
  rcases r with ⟨error, vdir, found, name, len, issymlink⟩
  cases error with
  | some e => apply (Settled.closeFailed vdir found e).grown hs
  | none =>
  cases found with
  | none => trivial
  | some vn =>
    apply wp_bind_of (Settled.acquire vn s1 hs)
    intro _ s2 hs2
    split
    . apply wp_closed
      exact ⟨own, hs2.1⟩
    . next hne =>
      apply wp_bind_of (Settled.acquire vdir s2 hs2.1)
      intro _ s3 hs3
      rw [wp_bind, wp_getVnode]
      refine ⟨fun _ => trivial, ?_⟩
      intro halive
      dsimp only
      split
      . apply wp_closed
        exact ⟨own, hs3.1⟩
      . next hdir =>
        rw [not_not] at hdir
        split
        . apply wp_closed
          exact ⟨own, hs3.1⟩
        . apply wp_closed
          rcases uncovered_of_found hsym rfl rfl hne he hended with ⟨hlt, hhere⟩
          have hstays := hs2.2.trans hs3.2
          apply hs3.1.wp_ramfs_rmdir hdir
          rw [hstays.mountedhere_eq hlt]
          apply hhere
          rw [← hstays.type_eq hlt]
          apply hdir

theorem Sown.wp_vfs_link
    : wp (vfs_link path target fuel) (fun _ s' => Grown s') (fun _ _ => True) st := by
  unfold vfs_link
  apply wp_bind_of (h.wp_namei target fuel)
  intro r s1 hs1
  rcases hs1 with ⟨⟨hs, hstays⟩, hsym, e, _, he, hended⟩
  rcases r with ⟨error, vdir, found, name, len, issymlink⟩
  cases error with
  | some e => exact ⟨own, hs⟩
  | none =>
  cases found with
  | none => trivial
  | some vn =>
    rcases hended.mem_held rfl hsym rfl with ⟨held, V, hV, hw, hmem⟩
    rcases (he.vn hV).attached_held hw hmem hstays with ⟨hlt, hattached⟩
    apply wp_bind_of (Settled.acquire vn s1 hs)
    intro _ s2 hs2
    rw [wp_bind, wp_getVnode]
    refine ⟨fun _ => trivial, ?_⟩
    intro _
    split
    . apply (Settled.closeBoth vdir vn _).grown hs2.1
    . next hleaf =>
      apply wp_bind_of (Settled.vfs_close vdir s2 hs2.1)
      intro _ s3 hs3
      have hstays3 := hs2.2.trans hs3.2
      apply wp_after_missing hs3.1
      . intro d name len s hs hstays4 hd hdlt hdir
        simp only [ne_eq, not_true_eq_false, if_false]
        apply wp_bind_of (Settled.acquire d s hs)
        intro _ s5 hs5
        have hstays5 := hstays3.trans (hstays4.trans hs5.2)
        have hlink : wp (ramfs_link d vn name) (fun _ s' => Grown s') (fun _ _ => True) s5 := by
          apply hs5.1.wp_ramfs_link
          . rw [hs5.2.data_eq hdlt]
            apply hs5.2.attached _ hd
          . rw [hs5.2.type_eq hdlt, hdir]
          . rw [hstays5.data_eq hlt]
            apply hstays5.attached _ hattached
          . rw [hstays5.type_eq hlt, ← hs2.2.type_eq hlt]
            apply hleaf
        apply wp_bind_of hlink
        intro error s6 hs6
        rcases hs6 with ⟨own', hs6⟩
        have hclose : Settled own' (do
            release d
            vput d
            vrele vn
            pure error) := by
          apply (Settled.release d).bind
          intro _
          apply Settled.closeBoth
        apply hclose.grown hs6
      . intro r hr
        simp only [hr, ne_eq, not_false_eq_true, if_true]
        apply Settled.pure

end Calls

end Fs
end Franklin
