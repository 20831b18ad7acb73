import Franklin.Fs.Lemmas.Mounting
import Franklin.Fs.Lemmas.Last

/-!
This module contains when `vfs_unlink` and `vfs_rmdir` find the dentry that they are to remove: `lookup`
takes the first name that begins with the last component, `ramfs_dir_lookup` wants the component itself.
-/

namespace Franklin
namespace Fs

structure Removes (s : St) (vdir vn : Nat) : Prop where
  vroot : (s.vnodes vn).vroot = false
  type : (s.vnodes vn).type ≠ .VDIR
  dir : (s.vnodes vdir).type = .VDIR

structure RemovesDir (s : St) (vdir vn : Nat) (name : Name) : Prop where
  ne : vdir ≠ vn
  type : (s.vnodes vn).type = .VDIR
  vroot : (s.vnodes vn).vroot = false
  dots : ¬ (compLen name = 2 ∧ name.take 2 = ['.', '.'])
  parent : (s.nodes (s.vnodes vn).data).parent = (s.vnodes vdir).data
  empty : (s.nodes (s.vnodes vn).data).dentry = [] ∧ (s.nodes (s.vnodes vn).data).wild = false

/--
What the two calls look up by name in the parent is what the walk of the path has led to.
-/
structure RemovalAgrees (st : St) (path : Name) (fuel : Nat) : Prop where
  unlink : ∀ nd s vn, namei path fuel st = .ok (none, nd) s → nd.vn = some vn → Removes s nd.vdir vn →
    s.FindsTarget nd.vdir vn nd.name
  rmdir : ∀ nd s vn, namei path fuel st = .ok (none, nd) s → nd.vn = some vn →
    RemovesDir s nd.vdir vn nd.name → s.FindsTarget nd.vdir vn nd.name
  unlink_panic : ∀ s, vfs_unlink path fuel st ≠ .error (.panic "ramfs_remove: parent") s
  rmdir_panic : ∀ s, vfs_rmdir path fuel st ≠ .error (.panic "ramfs_rmdir: node") s

structure Removable (st : St) (D V : Loc) (nm : Name) : Prop where
  vroot : V.vroot st = false
  entry : V.type st ≠ .VDIR ∨
    D ≠ V ∧ V.type st = .VDIR ∧ nm ≠ ['.', '.'] ∧ (st.nodes (V.node st)).parent = D.node st ∧
      (st.nodes (V.node st)).dentry = [] ∧ (st.nodes (V.node st)).wild = false

/--
In the directory in which the walk ends, the first dentry whose name begins with the last component is for
the same ramnode as the dentry whose name is the component.
-/
def LastExact (st : St) (path : Name) (fuel : Nat) : Prop :=
  ∀ D V, resolve st path fuel = some (.found D V) → Removable st D V (lastName st path fuel) →
    ((st.nodes (D.node st)).dentry.find? fun de => de.name = lastName st path fuel).map (·.node) =
      ((st.nodes (D.node st)).dentry.find? fun de => lastName st path fuel <+: de.name).map (·.node)

section Found

variable {own : Nat → Nat} {st : St} {D V V' L : Loc} {nm path : Name} {fuel : Nat}

theorem Resolve.Last.found (h : Resolve.Last st (.found D V) nm)
    : (∃ v, D = .old v ∧ V = .old v ∧ st.rootvn = some v) ∨
      (compLen nm = nm.length ∧
        ∃ W, Resolve.look st D nm nm.length = some (.ok W) ∧
          Resolve.cross st D (st.nextVfs + 1) W = some V) := by
  have hnextname : ∀ {L W : Loc} {next : Name}, Resolve.nextname L W next = .done (.found D V) →
      L = D ∧ W = V ∧ next = [] := by
    intro L W next h
    unfold Resolve.nextname at h
    split at h
    . next hnext =>
      simp only [Resolve.Round.done.injEq, Exit.found.injEq] at h
      exact ⟨h.1, h.2, hnext⟩
    . cases h
  have hcomponent : ∀ {L : Loc}, Resolve.component st L nm = some (.done (.found D V)) →
      compLen nm = nm.length ∧ ∃ W, Resolve.look st D nm nm.length = some (.ok W) ∧
        Resolve.cross st D (st.nextVfs + 1) W = some V := by
    intro L h
    unfold Resolve.component at h
    dsimp only at h
    split at h
    . cases h
    . simp at h
    . simp at h
    . next W hlook =>
      cases hcross : Resolve.cross st L (st.nextVfs + 1) W with
      | none =>
        rw [hcross] at h
        cases h
      | some W' =>
        rw [hcross] at h
        dsimp only at h
        split at h
        . simp at h
        . rcases hnextname (Option.some.inj h) with ⟨rfl, rfl, hnil⟩
          have hlen : compLen nm = nm.length := by
            rw [List.drop_eq_nil_iff] at hnil
            have hle : compLen nm ≤ nm.length := (List.takeWhile_prefix _).length_le
            omega
          rw [hlen] at hlook
          exact ⟨hlen, W, hlook, hcross⟩
  rcases h.round with ⟨prev, L, hround⟩
  unfold Resolve.round at hround
  split at hround
  . split at hround
    . simp at hround
    . simp at hround
    . split at hround
      . simp at hround
      . cases hround
  . split at hround
    . cases hup : Resolve.up st (st.nextVfs + 1) L with
      | none =>
        rw [hup] at hround
        cases hround
      | some U =>
        rw [hup] at hround
        cases U with
        | root W =>
          rcases hnextname (Option.some.inj hround) with ⟨rfl, rfl, _⟩
          rcases Placed.up_root hup with ⟨v, hv, hrootvn⟩
          exact Or.inl ⟨v, hv, hv, hrootvn⟩
        | dir W => exact Or.inr (hcomponent hround)
    . exact Or.inr (hcomponent hround)

variable (h : Grove none own st)

include h

theorem Placed.vroot_of_parent (hL : Placed own st L) (htype : L.type st = .VDIR)
    (hparent : (st.nodes (L.node st)).parent = L.node st) : L.vroot st = true := by
  have hdir := hL.type
  rw [htype] at hdir
  cases L with
  | old v => exact h.vroot v (hL.alive v rfl) htype hparent
  | new w n =>
    unfold Loc.node at hdir hparent
    dsimp only at hdir hparent
    unfold Loc.vroot
    dsimp only
    rw [← hdir, hparent]
    simp

theorem Placed.vroot_of_live {vfs : Nat} (hL : Placed own st L) (hlive : Live own st vfs)
    (hnode : L.node st = (st.vfss vfs).root) : L.vroot st = true ∧ L.type st = .VDIR := by
  have hroot := hlive.1
  rw [← hnode] at hroot
  have hdir : (st.nodes (L.node st)).type = .VDIR := by
    simpa [St.hier_node, RamNode.hnode] using hroot.2.1
  have hparent : (st.nodes (L.node st)).parent = L.node st := by
    simpa [St.hier_node, RamNode.hnode] using hroot.2.2.1
  have htype := hL.type
  rw [hdir] at htype
  exact ⟨hL.vroot_of_parent h htype hparent, htype⟩

theorem Placed.cross_root {fuel : Nat} (hD : Placed own st D) (hL : Placed own st L)
    (hcross : Resolve.cross st D fuel L = some V) : V = L ∨ V.vroot st = true ∧ V.type st = .VDIR := by
  induction fuel generalizing L with
  | zero => cases hcross
  | succ fuel ih =>
    unfold Resolve.cross at hcross
    split at hcross
    . exact Or.inl (Option.some.inj hcross).symm
    . next vfs hsome =>
      right
      have hlive : Live own st vfs := by
        split at hsome
        . cases L with
          | old w =>
            rcases h.covered w vfs (hL.alive w rfl) hsome with ⟨_, _, _, _, hlive⟩
            exact hlive (by simp)
          | new w m => cases hsome
        . cases hsome
      have hnext : Placed own st (Loc.get st [D] vfs (st.vfss vfs).root) := by
        apply Placed.get h
        . intro L' hL'
          rw [List.mem_singleton] at hL'
          rw [hL']
          apply hD
        . exact Or.inl hlive.1
        . intro _
          exact hlive.2.symm
        . apply hlive
      split at hcross
      . cases hcross
      rcases ih hnext hcross with hsame | hroot
      . rw [hsame]
        apply hnext.vroot_of_live h hlive
        apply Loc.node_get h.forest.inv
      . apply hroot

theorem Grove.parent_dir {n : Nat} (hn : st.hier.Attached n) (hdir : (st.nodes n).type = .VDIR)
    : (st.nodes (st.nodes n).parent).type = .VDIR := by
  have hisDir : (st.hier.node n).isDir = true := by
    simpa [St.hier_node, RamNode.hnode] using hdir
  cases hn with
  | inl hroot =>
    have hparent := hroot.2.2.1
    rw [St.hier_node] at hparent
    change (st.nodes n).parent = n at hparent
    rw [hparent, hdir]
  | inr hentry =>
    rcases hentry with ⟨m, hm⟩
    have hparent := (h.forest.wf.parent m n hm hisDir).1
    rw [St.hier_node] at hparent
    change (st.nodes n).parent = m at hparent
    rw [hparent]
    have hm := Hier.isDir_of_mem h.forest.wf hm
    simpa [St.hier_node, RamNode.hnode] using hm

theorem found_entry (hfound : resolve st path fuel = some (.found D V))
    (hV : Removable st D V (lastName st path fuel))
    : D.type st = .VDIR ∧ compLen (lastName st path fuel) = (lastName st path fuel).length ∧
        ((st.nodes (D.node st)).dentry.find? fun de => lastName st path fuel <+: de.name).map (·.node) =
          some (V.node st) := by
  generalize hnm : lastName st path fuel = nm at hV
  have hlast := resolve_last hfound
  rw [hnm] at hlast
  have hplaced := Placed.resolve h hfound
  cases hplaced with
  | found hD hVplaced _ =>
  rcases hlast.found with ⟨v, rfl, rfl, hrootvn⟩ | ⟨hlen, W, hlook, hcross⟩
  . -- `..` in the root directory
    rcases h.rootvn v hrootvn (hD.alive v rfl) with ⟨rf, _, hlive, hdata⟩
    have hvroot := (hD.vroot_of_live h hlive hdata).1
    rw [hV.vroot] at hvroot
    cases hvroot
  . have hW := Placed.look h hD hlook
    have hVW : V = W := by
      rcases Placed.cross_root h hD hW hcross with hsame | hroot
      . exact hsame
      . rw [hV.vroot] at hroot
        simp at hroot
    subst hVW
    unfold Resolve.look at hlook
    dsimp only at hlook
    split at hlook
    . cases hlook
    split at hlook
    . simp at hlook
    . next hdir =>
      rw [not_not] at hdir
      refine ⟨hdir, hlen, ?_⟩
      split at hlook
      . -- `.`
        simp only [Option.some.injEq, Except.ok.injEq] at hlook
        rcases hV.entry with htype | ⟨hne, _⟩
        . rw [← hlook] at htype
          exact absurd hdir htype
        . exact absurd hlook hne
      . split at hlook
        . next hdots =>
          split at hlook
          . cases hlook
          . simp only [Option.some.injEq, Except.ok.injEq] at hlook
            rcases hV.entry with htype | ⟨_, _, hnotdots, _⟩
            . -- the parent is a directory
              have hparent := h.parent_dir hD.attached (hD.type ▸ hdir)
              rw [hW.type, ← hlook, Loc.node_get h.forest.inv] at htype
              exact absurd hparent htype
            . unfold strcmp at hdots
              split at hdots
              . next heq => exact absurd heq hnotdots
              . cases hdots
        . have hfind := find_eq (st.nodes (D.node st)).dentry nm []
          rw [List.append_nil] at hfind
          rw [hfind] at hlook
          split at hlook
          . next de hde =>
            rw [hde]
            split at hlook
            . cases hlook
            . simp only [Option.some.injEq, Except.ok.injEq] at hlook
              rw [← hlook, Loc.node_get h.forest.inv]
              rfl
          . split at hlook
            . cases hlook
            . simp at hlook

end Found

def Spares (msg : String) {α : Type} (x : Prog α) : Prop :=
  ∀ s, wp x (fun _ _ => True) (fun e _ => e ≠ .panic msg) s

namespace Spares

variable {α β : Type} {msg : String} {v n : Nat}

theorem pure (a : α) : Spares msg (pure a : Prog α) := by
  intro s
  trivial

theorem throw (e : Stop) (he : ∀ msg, e ≠ .panic msg) : Spares msg (throw e : Prog α) := by
  intro s
  rw [wp_throw]
  apply he

theorem bind {x : Prog α} {f : α → Prog β} (hx : Spares msg x) (hf : ∀ a, Spares msg (f a))
    : Spares msg (x >>= f) := by
  intro s
  apply wp_bind_of (hx s)
  intro a s1 _
  apply hf

theorem ite {c : Prop} [Decidable c] {x y : Prog α} (hx : Spares msg x) (hy : Spares msg y)
    : Spares msg (if c then x else y) := by
  split
  . apply hx
  . apply hy

theorem getVnode (v : Nat) : Spares msg (getVnode v) := by
  intro s
  rw [wp_getVnode]
  exact ⟨fun _ => by simp, fun _ => trivial⟩

theorem setVnode {f : Vnode → Vnode} : Spares msg (setVnode v f) := by
  intro s
  trivial

theorem acquire (v : Nat) : Spares msg (acquire v) := by
  apply (getVnode v).bind
  intro vn
  exact ite (throw _ (by simp)) setVnode

theorem release (v : Nat) : Spares msg (release v) := by
  apply (getVnode v).bind
  intro vn
  apply setVnode

theorem acquireNode (n : Nat) : Spares msg (acquireNode n) := by
  intro s
  rw [wp_acquireNode_iff]
  exact ⟨fun _ => by simp, fun _ => trivial⟩

theorem vref_locked (v : Nat) : Spares msg (vref_locked v) := by
  apply (getVnode v).bind
  intro vn
  exact ite (throw _ (by simp)) setVnode

theorem vfs_close (v : Nat) : Spares msg (vfs_close v) := by
  intro s
  cases hv : (s.vnodes v).freed with
  | true =>
    unfold Fs.vfs_close
    rw [wp_bind, wp_getVnode]
    exact ⟨fun _ => by simp, fun hfreed => absurd (hv.symm.trans hfreed) (by simp)⟩
  | false =>
    apply wp_mono (wp_vfs_close_iff (P := fun _ => False) (Q := fun _ _ => True) hv trivial)
    . intro _ _ _
      trivial
    . intro e s1 he hmsg
      apply he msg hmsg

theorem walk : WalkRules fun _ x => Spares msg x where
  pure := pure
  throw := throw
  bind := bind
  getSt _ := trivial
  getVnode := getVnode
  getNode _ _ := trivial
  getVfs _ _ := trivial
  acquire := acquire
  release := release
  acquireNode := acquireNode
  releaseNode _ _ := trivial
  vref_locked := vref_locked
  newVnode _ _ _ := trivial
  vfs_close := vfs_close

theorem closeBoth (v w : Nat) (error : Code) : Spares msg (do
    vput v
    vrele w
    Pure.pure error) := by
  apply (vfs_close v).bind
  intro _
  apply (vfs_close w).bind
  intro _
  apply pure

theorem closeFailed (v : Nat) (vn : Option Nat) (e : Errno) : Spares msg (do
    vputOpt vn
    vput v
    Pure.pure (some e : Code)) := by
  apply (walk.vputOpt vn).bind
  intro _
  apply (vfs_close v).bind
  intro _
  apply pure

theorem vacuous {x : Prog α} {P : Prop} {s : St} (h : Spares msg x)
    : wp x (fun _ _ => True) (fun e _ => e = .panic msg → P) s := by
  apply wp_mono (h s)
  . intro _ _ _
    trivial
  . intro e _ he heq
    exact absurd heq he

end Spares

structure Relocked (s s' : St) : Prop where
  nodes : s'.nodes = s.nodes
  fixed : ∀ v, (s'.vnodes v).fixed = (s.vnodes v).fixed

namespace Relocked

variable {s s1 s2 : St} {d v : Nat} {name : Name}

theorem trans (h : Relocked s s1) (h1 : Relocked s1 s2) : Relocked s s2 :=
  ⟨h1.nodes.trans h.nodes, fun v => (h1.fixed v).trans (h.fixed v)⟩

theorem wp_acquire (v : Nat)
    : wp (acquire v) (fun _ s' => Relocked s s') (fun e _ => ∀ msg, e ≠ .panic msg) s := by
  unfold acquire
  rw [wp_bind, wp_getVnode]
  refine ⟨fun _ => by simp, ?_⟩
  intro _
  split
  . simp
  . rw [wp_setVnode]
    refine ⟨rfl, ?_⟩
    intro w
    by_cases hw : w = v
    . rw [hw]
      simp [Vnode.fixed]
    . dsimp only
      rw [Function.update_of_ne hw]

theorem members (h : Relocked s s1) (v : Nat)
    : (s1.vnodes v).type = (s.vnodes v).type ∧ (s1.vnodes v).vroot = (s.vnodes v).vroot ∧
        (s1.vnodes v).data = (s.vnodes v).data := by
  have := h.fixed v
  unfold Vnode.fixed at this
  simp only [Prod.mk.injEq] at this
  exact ⟨this.2.2.1, this.2.2.2.1, this.2.2.2.2⟩

theorem removes (h : Relocked s s1) (hremoves : Removes s1 d v) : Removes s d v := by
  rcases h.members v with ⟨htype, hvroot, _⟩
  rcases h.members d with ⟨hdir, _, _⟩
  constructor
  . rw [← hvroot, hremoves.vroot]
  . rw [← htype]
    apply hremoves.type
  . rw [← hdir, hremoves.dir]

theorem removesDir (h : Relocked s s1) (hremoves : RemovesDir s1 d v name) : RemovesDir s d v name := by
  rcases h.members v with ⟨htype, hvroot, hdata⟩
  rcases h.members d with ⟨_, _, hdir⟩
  constructor
  . apply hremoves.ne
  . rw [← htype, hremoves.type]
  . rw [← hvroot, hremoves.vroot]
  . apply hremoves.dots
  . rw [← hdata, ← hdir, ← h.nodes, hremoves.parent]
  . rw [← hdata, ← h.nodes]
    apply hremoves.empty

theorem findsTarget_iff (h : Relocked s s1) : s1.FindsTarget d v name ↔ s.FindsTarget d v name := by
  unfold St.FindsTarget
  rw [h.nodes, (h.members d).2.2, (h.members v).2.2]

end Relocked

section Panic

variable {s st : St} {d v len fuel : Nat} {name path : Name}

theorem wp_ramfs_remove_panic
    : wp (ramfs_remove d v name) (fun _ _ => True)
        (fun e _ => e = .panic "ramfs_remove: parent" →
          (s.vnodes v).type ≠ .VDIR ∧ (s.vnodes d).type = .VDIR ∧ ¬ s.FindsTarget d v name) s := by
  cases hd : (s.vnodes d).freed with
  | true =>
    unfold ramfs_remove
    rw [wp_bind, wp_getVnode]
    exact ⟨fun _ => by simp, fun hfreed => absurd (hd.symm.trans hfreed) (by simp)⟩
  | false =>
    cases hv : (s.vnodes v).freed with
    | true =>
      unfold ramfs_remove
      rw [wp_bind, wp_getVnode]
      refine ⟨fun _ => by simp, ?_⟩
      intro _
      rw [wp_bind, wp_getVnode]
      exact ⟨fun _ => by simp, fun hfreed => absurd (hv.symm.trans hfreed) (by simp)⟩
    | false =>
      apply wp_mono (wp_ramfs_remove (R := fun _ _ => True) (P := fun msg => msg = "ramfs_remove: parent" →
        (s.vnodes v).type ≠ .VDIR ∧ (s.vnodes d).type = .VDIR ∧ ¬ s.FindsTarget d v name) name hd hv
        (fun htype hdir hnot _ => ⟨htype, hdir, hnot⟩) (by simp) (fun _ => trivial)
        (fun _ _ _ _ _ => trivial))
      . intro _ _ _
        trivial
      . intro e s1 he heq
        apply he.2 _ heq rfl

theorem wp_ramfs_rmdir_panic
    : wp (ramfs_rmdir d v name len) (fun _ _ => True)
        (fun e _ => e = .panic "ramfs_rmdir: node" →
          ¬ (len = 2 ∧ name.take 2 = ['.', '.']) ∧
            (s.nodes (s.vnodes v).data).parent = (s.vnodes d).data ∧
            ((s.nodes (s.vnodes v).data).dentry = [] ∧ (s.nodes (s.vnodes v).data).wild = false) ∧
            ¬ s.FindsTarget d v name) s := by
  cases hd : (s.vnodes d).freed with
  | true =>
    unfold ramfs_rmdir
    rw [wp_bind, wp_getVnode]
    exact ⟨fun _ => by simp, fun hfreed => absurd (hd.symm.trans hfreed) (by simp)⟩
  | false =>
    cases hv : (s.vnodes v).freed with
    | true =>
      unfold ramfs_rmdir
      rw [wp_bind, wp_getVnode]
      refine ⟨fun _ => by simp, ?_⟩
      intro _
      rw [wp_bind, wp_getVnode]
      exact ⟨fun _ => by simp, fun hfreed => absurd (hv.symm.trans hfreed) (by simp)⟩
    | false =>
      apply wp_mono (wp_ramfs_rmdir (R := fun _ _ => True) (P := fun msg => msg = "ramfs_rmdir: node" →
        ¬ (len = 2 ∧ name.take 2 = ['.', '.']) ∧
          (s.nodes (s.vnodes v).data).parent = (s.vnodes d).data ∧
          ((s.nodes (s.vnodes v).data).dentry = [] ∧ (s.nodes (s.vnodes v).data).wild = false) ∧
          ¬ s.FindsTarget d v name) name len hd hv
        (fun hdots hparent hempty hnot _ => ⟨hdots, hparent, hempty, hnot⟩) (by simp) (by simp)
        (fun _ => trivial) (fun _ _ _ _ _ _ => trivial))
      . intro _ _ _
        trivial
      . intro e s1 he heq
        apply he.2 _ heq rfl

theorem wp_vfs_unlink_panic
    : wp (vfs_unlink path fuel) (fun _ _ => True)
        (fun e _ => e = .panic "ramfs_remove: parent" →
          ∃ nd s vn, namei path fuel st = .ok (none, nd) s ∧ nd.vn = some vn ∧ Removes s nd.vdir vn ∧
            ¬ s.FindsTarget nd.vdir vn nd.name) st := by
  unfold vfs_unlink
  apply wp_bind_run (Spares.walk.namei path fuel st) (fun e _ he heq => absurd heq he)
  intro r s1 hrun _
  rcases r with ⟨error, nd⟩
  cases error with
  | some e => apply (Spares.closeFailed nd.vdir nd.vn e).vacuous
  | none =>
  cases hvn : nd.vn with
  | none =>
    dsimp only
    rw [hvn]
    simp
  | some vn =>
    dsimp only
    rw [hvn]
    apply wp_bind_mono (Relocked.wp_acquire vn) (fun e _ he heq => absurd heq (he _))
    intro _ s2 hs2
    have hremove : ∀ {s3 : St}, Relocked s1 s3 → wp (do
        let v ← getVnode vn
        let error ← if v.vroot then pure (some Errno.EBUSY) else ramfs_remove nd.vdir vn nd.name
        vput nd.vdir
        vrele vn
        pure error) (fun _ _ => True)
        (fun e _ => e = .panic "ramfs_remove: parent" →
          ∃ nd s vn, namei path fuel st = .ok (none, nd) s ∧ nd.vn = some vn ∧ Removes s nd.vdir vn ∧
            ¬ s.FindsTarget nd.vdir vn nd.name) s3 := by
      intro s3 hs3
      rw [wp_bind, wp_getVnode]
      refine ⟨fun _ => by simp, ?_⟩
      intro _
      split
      . apply (Spares.closeBoth nd.vdir vn _).vacuous
      . next hvroot =>
        apply wp_bind_mono wp_ramfs_remove_panic
        . intro e s4 hs4 heq
          rcases hs4 heq with ⟨htype, hdir, hnot⟩
          rw [hs3.findsTarget_iff] at hnot
          refine ⟨nd, s1, vn, hrun, hvn, hs3.removes ⟨?_, htype, hdir⟩, hnot⟩
          simpa using hvroot
        . intro error s4 _
          apply (Spares.closeBoth nd.vdir vn _).vacuous
    split
    . apply wp_bind_mono (Relocked.wp_acquire nd.vdir) (fun e _ he heq => absurd heq (he _))
      intro _ s3 hs3
      apply hremove (hs2.trans hs3)
    . apply hremove hs2

theorem wp_vfs_rmdir_panic (hinv : Inv st)
    : wp (vfs_rmdir path fuel) (fun _ _ => True)
        (fun e _ => e = .panic "ramfs_rmdir: node" →
          ∃ nd s vn, namei path fuel st = .ok (none, nd) s ∧ nd.vn = some vn ∧
            RemovesDir s nd.vdir vn nd.name ∧ ¬ s.FindsTarget nd.vdir vn nd.name) st := by
  unfold vfs_rmdir
  have hlen : wp (namei path fuel) (fun r _ => r.2.len = compLen r.2.name) (fun _ _ => True) st := by
    apply wp_mono (wp_namei_last hinv path fuel)
    . intro r s1 hs1
      rcases hs1 with ⟨_, _, _, _, hname, hlen⟩
      rw [hlen, hname]
    . intro _ _ _
      trivial
  apply wp_bind_run (wp_conj (Spares.walk.namei path fuel st) hlen) (fun e _ he heq => absurd heq he)
  intro r s1 hrun hlen
  replace hlen := hlen.2
  rcases r with ⟨error, nd⟩
  cases error with
  | some e => apply (Spares.closeFailed nd.vdir nd.vn e).vacuous
  | none =>
  cases hvn : nd.vn with
  | none =>
    dsimp only
    rw [hvn]
    simp
  | some vn =>
    dsimp only
    rw [hvn]
    apply wp_bind_mono (Relocked.wp_acquire vn) (fun e _ he heq => absurd heq (he _))
    intro _ s2 hs2
    split
    . apply (Spares.closeBoth nd.vdir vn _).vacuous
    . next hne =>
      apply wp_bind_mono (Relocked.wp_acquire nd.vdir) (fun e _ he heq => absurd heq (he _))
      intro _ s3 hs3
      rw [wp_bind, wp_getVnode]
      refine ⟨fun _ => by simp, ?_⟩
      intro _
      split
      . apply (Spares.closeBoth nd.vdir vn _).vacuous
      . next htype =>
        rw [not_not] at htype
        split
        . apply (Spares.closeBoth nd.vdir vn _).vacuous
        . next hvroot =>
          apply wp_bind_mono wp_ramfs_rmdir_panic
          . intro e s4 hs4 heq
            rcases hs4 heq with ⟨hdots, hparent, hempty, hnot⟩
            have hs3 := hs2.trans hs3
            rw [hs3.findsTarget_iff] at hnot
            refine ⟨nd, s1, vn, hrun, hvn, hs3.removesDir ⟨hne, htype, ?_, ?_, hparent, hempty⟩, hnot⟩
            . simpa using hvroot
            . rw [← hlen]
              apply hdots
          . intro error s4 _
            apply (Spares.closeBoth nd.vdir vn _).vacuous

end Panic

section Agrees

variable {st s : St} {held : List (Nat × Loc)} {vl nl : List Nat} {d v fuel : Nat} {D V : Loc}
  {name path : Name}

theorem Walked.findsTarget_iff (h : Walked st s held vl nl) (hd : (d, D) ∈ held) (hv : (v, V) ∈ held)
    : s.FindsTarget d v name ↔
        ((st.nodes (D.node st)).dentry.find? fun de => de.name = name).map (·.node) = some (V.node st) := by
  have hstrcmp : (fun de : RamDentry => decide (strcmp de.name name = 0)) =
      fun de => decide (de.name = name) := by
    funext de
    rw [decide_eq_decide]
    unfold strcmp
    split
    . next heq => simp [heq]
    . next hne => simp [hne]
  unfold St.FindsTarget
  rw [(h.members hd).1, (h.members hv).1, h.same.dentry_eq, hstrcmp]

theorem Walked.removable (h : Walked st s held vl nl) (hd : (d, D) ∈ held) (hv : (v, V) ∈ held)
    (hremoves : Removes s d v ∨ RemovesDir s d v name) : Removable st D V name := by
  rcases h.members hd with ⟨hddata, _⟩
  rcases h.members hv with ⟨hvdata, htype, _, hvroot, _⟩
  cases hremoves with
  | inl hremoves =>
    refine ⟨?_, Or.inl ?_⟩
    . rw [← hvroot, hremoves.vroot]
    . rw [← htype]
      apply hremoves.type
  | inr hremoves =>
    have hparent := hremoves.parent
    have hempty := hremoves.empty
    rw [hvdata, hddata, h.same.parent_eq] at hparent
    rw [hvdata, h.same.dentry_eq, h.same.wild_eq] at hempty
    refine ⟨?_, Or.inr ⟨?_, ?_, ?_, hparent, hempty⟩⟩
    . rw [← hvroot, hremoves.vroot]
    . intro hDV
      rw [← hDV] at hv
      exact hremoves.ne (h.eq_of_loc_eq hd hv)
    . rw [← htype, hremoves.type]
    . intro hname
      apply hremoves.dots
      rw [hname]
      decide

theorem Walked.removes (h : Walked st s held vl nl) (hd : (d, D) ∈ held) (hv : (v, V) ∈ held)
    (hlen : compLen name = name.length) (hdir : D.type st = .VDIR) (hremovable : Removable st D V name)
    : Removes s d v ∨ RemovesDir s d v name := by
  rcases h.members hd with ⟨hddata, hdtype, _⟩
  rcases h.members hv with ⟨hvdata, htype, _, hvroot, _⟩
  have hroot := hremovable.vroot
  rw [← hvroot] at hroot
  rcases hremovable.entry with hleaf | ⟨hne, hVdir, hnotdots, hparent, hempty⟩
  . left
    refine ⟨hroot, ?_, ?_⟩
    . rw [htype]
      apply hleaf
    . rw [hdtype, hdir]
  . right
    constructor
    . intro heq
      rw [heq] at hd
      exact hne (h.loc_eq hd hv)
    . rw [htype, hVdir]
    . apply hroot
    . intro hdots
      rw [hlen] at hdots
      rw [List.take_of_length_le (by omega)] at hdots
      exact hnotdots hdots.2
    . rw [hvdata, hddata, h.same.parent_eq, hparent]
    . rw [hvdata, h.same.dentry_eq, h.same.wild_eq]
      apply hempty

theorem Ended.removable {e : Exit} {nd : Nameidata} (h : Ended st s e (none, nd))
    (hsym : nd.issymlink = false) (hvn : nd.vn = some v)
    (hremoves : Removes s nd.vdir v ∨ RemovesDir s nd.vdir v nd.name)
    : ∃ D V, e = .found D V ∧ Removable st D V nd.name ∧
        (s.FindsTarget nd.vdir v nd.name ↔
          ((st.nodes (D.node st)).dentry.find? fun de => de.name = nd.name).map (·.node) =
            some (V.node st)) := by
  have hsame : nd.vdir = v → False := by
    intro heq
    cases hremoves with
    | inl hremoves =>
      have htype := hremoves.type
      rw [← heq] at htype
      exact htype hremoves.dir
    | inr hremoves => exact hremoves.ne heq
  cases h with
  | found d w D V name len h =>
    rw [Option.some.injEq] at hvn
    dsimp only at hvn hremoves ⊢
    subst hvn
    have hd : (d, D) ∈ [(w, V), (d, D)] := List.mem_cons_of_mem _ List.mem_cons_self
    refine ⟨D, V, rfl, h.removable hd List.mem_cons_self hremoves, ?_⟩
    apply h.findsTarget_iff hd List.mem_cons_self
  | here d D name len h => exact (hsame (Option.some.inj hvn)).elim
  | tail d w D V name len h => exact (hsame (Option.some.inj hvn)).elim
  | link d w D V name len h => cases hsym

theorem removalAgrees_of_lastExact {own : Nat → Nat} (h : Grove none own st)
    (hexact : LastExact st path fuel) : RemovalAgrees st path fuel := by
  have hfinds : ∀ nd s vn, namei path fuel st = .ok (none, nd) s → nd.vn = some vn →
      Removes s nd.vdir vn ∨ RemovesDir s nd.vdir vn nd.name → s.FindsTarget nd.vdir vn nd.name := by
    intro nd s vn hrun hvn hremoves
    have hlast := wp_namei_last h.forest.inv path fuel
    rw [wp_of_ok hrun] at hlast
    rcases hlast with ⟨e, he, hended, hsym, hname, _⟩
    rcases hended.removable hsym hvn hremoves with ⟨D, V, rfl, hremovable, hiff⟩
    dsimp only at hname
    rw [hiff]
    rw [hname] at hremovable ⊢
    rw [hexact D V he hremovable]
    exact (found_entry h he hremovable).2.2
  constructor
  case unlink =>
    intro nd s vn hrun hvn hremoves
    apply hfinds nd s vn hrun hvn (Or.inl hremoves)
  case rmdir =>
    intro nd s vn hrun hvn hremoves
    apply hfinds nd s vn hrun hvn (Or.inr hremoves)
  case unlink_panic =>
    intro s hrun
    have hpanic := @wp_vfs_unlink_panic st fuel path
    rw [wp_of_error hrun] at hpanic
    rcases hpanic rfl with ⟨nd, s1, vn, hrun1, hvn, hremoves, hnot⟩
    exact hnot (hfinds nd s1 vn hrun1 hvn (Or.inl hremoves))
  case rmdir_panic =>
    intro s hrun
    have hpanic := @wp_vfs_rmdir_panic st fuel path h.forest.inv
    rw [wp_of_error hrun] at hpanic
    rcases hpanic rfl with ⟨nd, s1, vn, hrun1, hvn, hremoves, hnot⟩
    exact hnot (hfinds nd s1 vn hrun1 hvn (Or.inr hremoves))

theorem lastExact_of_removalAgrees {own : Nat → Nat} (h : Grove none own st) (hquiet : Quiet st)
    (hagrees : RemovalAgrees st path fuel) : LastExact st path fuel := by
  intro D V hfound hremovable
  rcases found_entry h hfound hremovable with ⟨hdir, hlen, hentry⟩
  rw [hentry]
  have hlast := wp_namei_last h.forest.inv path fuel
  cases hrun : namei path fuel st with
  | error e s1 =>
    rw [wp_of_error hrun] at hlast
    have hnone := hlast.2 hquiet
    rw [hfound] at hnone
    cases hnone
  | ok r s1 =>
    rw [wp_of_ok hrun] at hlast
    rcases hlast with ⟨e, he, hended, hsym, hname, _⟩
    rw [hfound, Option.some.injEq] at he
    subst he
    cases hended with
    | found d v D V name len hw =>
      dsimp only at hname
      subst hname
      have hd : (d, D) ∈ [(v, V), (d, D)] := List.mem_cons_of_mem _ List.mem_cons_self
      rw [← hw.findsTarget_iff hd List.mem_cons_self]
      rcases hw.removes hd List.mem_cons_self hlen hdir hremovable with hremoves | hremoves
      . apply hagrees.unlink _ s1 v hrun rfl hremoves
      . apply hagrees.rmdir _ s1 v hrun rfl hremoves

end Agrees

/--
Both calls look up by name what the walk has led to if and only if the first dentry whose name begins with
the last component has the node of the one whose name is the component. Only a walk in which nothing stops
it tells anything about the dentries.
-/
theorem KCall.removal_agrees_iff {junk : Junk} {st : St} (h : Reached Orderly junk st) (path : Name)
    (fuel : Nat)
    : (LastExact st path fuel → RemovalAgrees st path fuel) ∧
        (Quiet st → RemovalAgrees st path fuel → LastExact st path fuel) := by
  rcases h.grown with ⟨own, hown⟩
  constructor
  . apply removalAgrees_of_lastExact hown.grove
  . apply lastExact_of_removalAgrees hown.grove

@[irreducible]
def prefixFile : St :=
  after ((KCall.call (.vfs_open "/main.ccc".toList .VREG true)).run 1) rootMounted

theorem prefixFile_reached {C : St → Nat → KCall → Prop} (h : KCall.Reached C zeroed rootMounted)
    (hopen : C rootMounted 1 (.call (.vfs_open "/main.ccc".toList .VREG true)))
    : KCall.Reached C zeroed prefixFile := by
  unfold prefixFile
  apply h.after hopen
  decide +kernel

theorem KCall.removal_agrees_iff_prefixFile
    : (LastExact prefixFile "/main.c".toList 1 → RemovalAgrees prefixFile "/main.c".toList 1) ∧
        (Quiet prefixFile → RemovalAgrees prefixFile "/main.c".toList 1 →
          LastExact prefixFile "/main.c".toList 1) := by
  apply @KCall.removal_agrees_iff zeroed
  apply prefixFile_reached
  . exact rootMounted_orderly
  . trivial

theorem KCall.not_removal_agrees_prefixFile
    : KCall.Reached (fun _ _ _ => True) zeroed prefixFile ∧
        (∃ s, vfs_unlink "/main.c".toList 1 prefixFile = .error (.panic "ramfs_remove: parent") s) ∧
        ¬ RemovalAgrees prefixFile "/main.c".toList 1 := by
  have hpanic : stops (vfs_unlink "/main.c".toList 1) prefixFile (.panic "ramfs_remove: parent") = true := by
    decide +kernel
  refine ⟨?_, ⟨_, error_of_stops hpanic⟩, ?_⟩
  . apply prefixFile_reached
    . apply rootMounted_reached
      . trivial
      . trivial
    . trivial
  . intro h
    apply h.unlink_panic _ (error_of_stops hpanic)

end Fs
end Franklin
