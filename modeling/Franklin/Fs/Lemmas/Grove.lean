import Franklin.Fs.Mount
import Franklin.Fs.Lemmas.Fixed
import Franklin.Fs.Lemmas.Tree
import Franklin.Fs.Lemmas.Names
import Franklin.Fs.Lemmas.Unmount

/-!
This module contains that the directory trees of all mounted file systems stay consistent with each other
and with their mountpoints as long as nothing is unmounted.
-/

namespace Franklin
namespace Fs

def Live (own : Nat → Nat) (s : St) (v : Nat) : Prop :=
  s.hier.Root (s.vfss v).root ∧ own (s.vfss v).root = v

/--
The consistency of all file systems: `own n` is the file system of the ramnode `n`, and `pending` one that
`vfs_mount` has tied to its mountpoint but not made the root of yet.
-/
structure Grove (pending : Option Nat) (own : Nat → Nat) (s : St) : Prop where
  forest : Forest s
  beyond : ∀ v, s.nextVnode ≤ v → (s.vnodes v).freed = true
  roots : ∀ r, s.hier.Root r → own r < s.nextVfs ∧ (s.vfss (own r)).root = r
  rootfs : ∀ v, s.rootfs = some v →
    v < s.nextVfs ∧ (s.vfss v).rootfs = true ∧ (∀ mp, (s.vfss v).mountpoint ≠ .ref mp) ∧
      (pending ≠ some v → Live own s v)
  covered : ∀ w v, (s.vnodes w).freed = false → (s.vnodes w).mountedhere = some v →
    (s.vfss v).mountpoint = .ref w ∧ (s.vnodes w).type = .VDIR ∧ (s.vnodes w).vfs < v ∧
      v < s.nextVfs ∧ (pending ≠ some v → Live own s v)
  mountpoint : ∀ v mp, (s.vfss v).mountpoint = .ref mp → (s.vnodes mp).freed = false →
    pending = some v ∨ Live own s v →
    (s.vnodes mp).mountedhere = some v ∧ s.hier.Attached (s.vnodes mp).data
  rootvn : ∀ v, s.rootvn = some v → (s.vnodes v).freed = false →
    ∃ rf, (∀ mp, (s.vfss rf).mountpoint ≠ .ref mp) ∧ Live own s rf ∧ (s.vnodes v).data = (s.vfss rf).root
  entry : ∀ d n, n ∈ (s.hier.node d).entries → (s.nodes n).type = .VDIR → own n = own d
  vnode : ∀ v, (s.vnodes v).freed = false → (s.vnodes v).type = .VDIR →
    (s.vnodes v).vfs = own (s.vnodes v).data
  live : ∀ v, (s.vnodes v).freed = false → Live own s (s.vnodes v).vfs
  vroot : ∀ v, (s.vnodes v).freed = false → (s.vnodes v).type = .VDIR →
    (s.nodes (s.vnodes v).data).parent = (s.vnodes v).data → (s.vnodes v).vroot = true

structure Steady (s s' : St) : Prop where
  rootfs : s'.rootfs = s.rootfs
  rootvn : s'.rootvn = s.rootvn
  nextVfs : s'.nextVfs = s.nextVfs
  junk : s'.junk = s.junk
  vfss : ∀ v, (s'.vfss v).mountpoint = (s.vfss v).mountpoint ∧
    (s'.vfss v).root = (s.vfss v).root ∧ (s'.vfss v).rootfs = (s.vfss v).rootfs
  le : s.nextVnode ≤ s'.nextVnode
  node_le : s.nextNode ≤ s'.nextNode
  fixed : ∀ v, v < s.nextVnode → (s'.vnodes v).fixed = (s.vnodes v).fixed
  alive : ∀ v, v < s.nextVnode → (s'.vnodes v).freed = false → (s.vnodes v).freed = false
  node : ∀ n, n < s.nextNode →
    (s'.nodes n).type = (s.nodes n).type ∧ (s'.nodes n).parent = (s.nodes n).parent

namespace Steady

variable {s s1 s2 : St}

theorem refl (s : St) : Steady s s :=
  ⟨rfl, rfl, rfl, rfl, fun _ => ⟨rfl, rfl, rfl⟩, Nat.le_refl _, Nat.le_refl _, fun _ _ => rfl,
    fun _ _ h => h, fun _ _ => ⟨rfl, rfl⟩⟩

theorem trans (h : Steady s s1) (h1 : Steady s1 s2) : Steady s s2 where
  rootfs := h1.rootfs.trans h.rootfs
  rootvn := h1.rootvn.trans h.rootvn
  nextVfs := h1.nextVfs.trans h.nextVfs
  junk := h1.junk.trans h.junk
  vfss v := ⟨(h1.vfss v).1.trans (h.vfss v).1, (h1.vfss v).2.1.trans (h.vfss v).2.1,
    (h1.vfss v).2.2.trans (h.vfss v).2.2⟩
  le := Nat.le_trans h.le h1.le
  node_le := Nat.le_trans h.node_le h1.node_le
  fixed v hv := (h1.fixed v (Nat.lt_of_lt_of_le hv h.le)).trans (h.fixed v hv)
  alive v hv hfreed := h.alive v hv (h1.alive v (Nat.lt_of_lt_of_le hv h.le) hfreed)
  node n hn := by
    have hn1 := Nat.lt_of_lt_of_le hn h.node_le
    exact ⟨(h1.node n hn1).1.trans (h.node n hn).1, (h1.node n hn1).2.trans (h.node n hn).2⟩

variable {v : Nat} (h : Steady s s1) (hv : v < s.nextVnode)

include h hv

theorem vfs_eq : (s1.vnodes v).vfs = (s.vnodes v).vfs := by
  have := h.fixed v hv
  unfold Vnode.fixed at this
  simp only [Prod.mk.injEq] at this
  exact this.1

theorem mountedhere_eq : (s1.vnodes v).mountedhere = (s.vnodes v).mountedhere := by
  have := h.fixed v hv
  unfold Vnode.fixed at this
  simp only [Prod.mk.injEq] at this
  exact this.2.1

theorem type_eq : (s1.vnodes v).type = (s.vnodes v).type := by
  have := h.fixed v hv
  unfold Vnode.fixed at this
  simp only [Prod.mk.injEq] at this
  exact this.2.2.1

theorem vroot_eq : (s1.vnodes v).vroot = (s.vnodes v).vroot := by
  have := h.fixed v hv
  unfold Vnode.fixed at this
  simp only [Prod.mk.injEq] at this
  exact this.2.2.2.1

theorem data_eq : (s1.vnodes v).data = (s.vnodes v).data := by
  have := h.fixed v hv
  unfold Vnode.fixed at this
  simp only [Prod.mk.injEq] at this
  exact this.2.2.2.2

end Steady

namespace Grove

variable {pending : Option Nat} {own own' : Nat → Nat} {s s' : St} {v n : Nat}

theorem lt_of_alive (h : Grove pending own s) (hv : (s.vnodes v).freed = false) : v < s.nextVnode := by
  by_contra hle
  have := h.beyond v (by omega)
  rw [this] at hv
  cases hv

theorem data_lt (h : Grove pending own s) (hv : (s.vnodes v).freed = false)
    : (s.vnodes v).data < s.nextNode :=
  (h.forest.live _ v (h.forest.back v (h.lt_of_alive hv) hv)).1

structure Made (own : Nat → Nat) (s' : St) (v : Nat) : Prop where
  mountedhere : (s'.vnodes v).mountedhere = none
  vnode : (s'.vnodes v).type = .VDIR → (s'.vnodes v).vfs = own (s'.vnodes v).data
  live : Live own s' (s'.vnodes v).vfs
  vroot : (s'.vnodes v).type = .VDIR → (s'.nodes (s'.vnodes v).data).parent = (s'.vnodes v).data →
    (s'.vnodes v).vroot = true

theorem steady (h : Grove pending own s) (hs : Steady s s') (hforest : Forest s')
    (hbeyond : ∀ v, s'.nextVnode ≤ v → (s'.vnodes v).freed = true)
    (hroot : ∀ n, s'.hier.Root n ↔ s.hier.Root n)
    (hattached : ∀ mp, (s.vnodes mp).freed = false → (s.vnodes mp).mountedhere ≠ none →
      s.hier.Attached (s.vnodes mp).data → s'.hier.Attached (s.vnodes mp).data)
    (hown : ∀ n, n < s.nextNode → own' n = own n)
    (hentry : ∀ d n, n ∈ (s'.hier.node d).entries → (s'.nodes n).type = .VDIR → own' n = own' d)
    (hmade : ∀ v, s.nextVnode ≤ v → (s'.vnodes v).freed = false → Made own' s' v)
    : Grove pending own' s' := by
  have hlive : ∀ v, Live own' s' v ↔ Live own s v := by
    intro v
    unfold Live
    rw [(hs.vfss v).2.1, hroot]
    constructor
    . intro hv
      rw [hown _ hv.1.1] at hv
      apply hv
    . intro hv
      rw [hown _ hv.1.1]
      apply hv
  constructor
  case forest => apply hforest
  case beyond => apply hbeyond
  case roots =>
    intro r hr
    rw [hroot] at hr
    rw [hown r hr.1, hs.nextVfs, (hs.vfss _).2.1]
    apply h.roots r hr
  case rootfs =>
    intro v hv
    rw [hs.rootfs] at hv
    rw [hs.nextVfs, (hs.vfss v).1, (hs.vfss v).2.2, hlive]
    apply h.rootfs v hv
  case covered =>
    intro w v hfreed hhere
    rw [hlive]
    by_cases hold : w < s.nextVnode
    . rw [hs.mountedhere_eq hold] at hhere
      rw [(hs.vfss v).1, hs.type_eq hold, hs.vfs_eq hold, hs.nextVfs]
      apply h.covered w v (hs.alive w hold hfreed) hhere
    . rw [(hmade w (by omega) hfreed).mountedhere] at hhere
      cases hhere
  case mountpoint =>
    intro v mp hmp hfreed hv
    rw [(hs.vfss v).1] at hmp
    rw [hlive] at hv
    have hlt := h.forest.inv.mountpoint v mp hmp
    have halive := hs.alive mp hlt hfreed
    rcases h.mountpoint v mp hmp halive hv with ⟨hhere, hold⟩
    rw [hs.mountedhere_eq hlt, hs.data_eq hlt]
    refine ⟨hhere, hattached mp halive ?_ hold⟩
    rw [hhere]
    simp
  case rootvn =>
    intro v hv hfreed
    rw [hs.rootvn] at hv
    have hlt := h.forest.inv.rootvn v hv
    rcases h.rootvn v hv (hs.alive v hlt hfreed) with ⟨rf, hrf, hrflive, hdata⟩
    refine ⟨rf, ?_, (hlive rf).mpr hrflive, ?_⟩
    . rw [(hs.vfss rf).1]
      apply hrf
    . rw [hs.data_eq hlt, (hs.vfss rf).2.1, hdata]
  case entry => apply hentry
  case vnode =>
    intro v hfreed htype
    by_cases hold : v < s.nextVnode
    . have halive := hs.alive v hold hfreed
      rw [hs.type_eq hold] at htype
      rw [hs.vfs_eq hold, hs.data_eq hold, hown _ (h.data_lt halive)]
      apply h.vnode v halive htype
    . apply (hmade v (by omega) hfreed).vnode htype
  case live =>
    intro v hfreed
    by_cases hold : v < s.nextVnode
    . rw [hlive, hs.vfs_eq hold]
      apply h.live v (hs.alive v hold hfreed)
    . apply (hmade v (by omega) hfreed).live
  case vroot =>
    intro v hfreed
    by_cases hold : v < s.nextVnode
    . have halive := hs.alive v hold hfreed
      rw [hs.vroot_eq hold, hs.data_eq hold, hs.type_eq hold, (hs.node _ (h.data_lt halive)).2]
      apply h.vroot v halive
    . apply (hmade v (by omega) hfreed).vroot

theorem vnodes (h : Grove pending own s) {vnodes : Nat → Vnode} (hinv : Inv { s with vnodes })
    (hfixed : ∀ v, (vnodes v).fixed = (s.vnodes v).fixed ∧ (vnodes v).freed = (s.vnodes v).freed)
    : Grove pending own { s with vnodes } := by
  have hsteady : Steady s { s with vnodes } :=
    ⟨rfl, rfl, rfl, rfl, fun _ => ⟨rfl, rfl, rfl⟩, Nat.le_refl _, Nat.le_refl _, fun v _ => (hfixed v).1,
      fun v _ hv => (hfixed v).2 ▸ hv, fun _ _ => ⟨rfl, rfl⟩⟩
  apply h.steady hsteady
  . refine ⟨hinv, h.forest.wf, ?_, h.forest.live⟩
    intro v hlt hfreed
    rw [hsteady.data_eq hlt]
    apply h.forest.back v hlt (hsteady.alive v hlt hfreed)
  . intro v hle
    rw [← h.beyond v hle]
    exact (hfixed v).2
  . intro n
    rfl
  . intro mp _ _ hattached
    apply hattached
  . intro n _
    rfl
  . apply h.entry
  . intro v hle hfreed
    have := h.beyond v hle
    rw [← (hfixed v).2] at this
    exact absurd (this.symm.trans hfreed) (by simp)

theorem setVnode (h : Grove pending own s) (hv : (s.vnodes v).freed = false) {vn : Vnode}
    (hfixed : vn.fixed = (s.vnodes v).fixed) (hfreed : vn.freed = false) (hcount : 1 ≤ vn.refcount)
    : Grove pending own { s with vnodes := Function.update s.vnodes v vn } := by
  have hpart : ∀ w, (Function.update s.vnodes v vn w).fixed = (s.vnodes w).fixed ∧
      (Function.update s.vnodes v vn w).freed = (s.vnodes w).freed := by
    intro w
    by_cases hw : w = v
    . rw [hw, Function.update_self, hv]
      exact ⟨hfixed, hfreed⟩
    . rw [Function.update_of_ne hw]
      exact ⟨rfl, rfl⟩
  apply h.vnodes _ hpart
  constructor
  case linked =>
    intro n w hn
    rcases h.forest.inv.linked n w hn with ⟨hlt, hdata, hwfreed, htype⟩
    have hw := (hpart w).1
    unfold Vnode.fixed at hw
    simp only [Prod.mk.injEq] at hw
    refine ⟨hlt, hw.2.2.2.2.trans hdata, ?_, hw.2.2.1.trans htype⟩
    rw [← hwfreed]
    exact (hpart w).2
  case counted =>
    intro w hlt hwfreed
    dsimp only at hwfreed ⊢
    by_cases hw : w = v
    . rw [hw, Function.update_self]
      apply hcount
    . rw [Function.update_of_ne hw] at hwfreed ⊢
      apply h.forest.inv.counted w hlt hwfreed
  case mountpoint => apply h.forest.inv.mountpoint
  case rootvn => apply h.forest.inv.rootvn

end Grove

structure Stays (s s' : St) : Prop extends Steady s s' where
  attached : ∀ n, s.hier.Attached n → s'.hier.Attached n

namespace Stays

variable {s s1 s2 : St}

theorem refl (s : St) : Stays s s :=
  ⟨Steady.refl s, fun _ h => h⟩

theorem trans (h : Stays s s1) (h1 : Stays s1 s2) : Stays s s2 :=
  ⟨h.toSteady.trans h1.toSteady, fun n hn => h1.attached n (h.attached n hn)⟩

theorem vnodes {vnodes : Nat → Vnode}
    (hfixed : ∀ v, (vnodes v).fixed = (s.vnodes v).fixed ∧
      ((vnodes v).freed = false → (s.vnodes v).freed = false))
    : Stays s { s with vnodes } :=
  ⟨⟨rfl, rfl, rfl, rfl, fun _ => ⟨rfl, rfl, rfl⟩, Nat.le_refl _, Nat.le_refl _, fun v _ => (hfixed v).1,
    fun v _ hv => (hfixed v).2 hv, fun _ _ => ⟨rfl, rfl⟩⟩, fun _ hn => hn⟩

end Stays

def Calm (pending : Option Nat) (own : Nat → Nat) {α : Type} (x : Prog α) : Prop :=
  Keeps (Grove pending own) Stays x

namespace Calm

variable {pending : Option Nat} {own : Nat → Nat} {α β : Type} {v : Nat}

theorem pure (a : α) : Calm pending own (pure a : Prog α) :=
  Keeps.pure Stays.refl a

theorem throw (e : Stop) : Calm pending own (throw e : Prog α) :=
  Keeps.throw e

theorem bind {x : Prog α} {f : α → Prog β} (hx : Calm pending own x)
    (hf : ∀ a, Calm pending own (f a)) : Calm pending own (x >>= f) :=
  Keeps.bind (fun _ _ _ h h1 => h.trans h1) hx hf

theorem ite {c : Prop} [Decidable c] {x y : Prog α} (hx : Calm pending own x)
    (hy : Calm pending own y) : Calm pending own (if c then x else y) :=
  Keeps.ite hx hy

theorem setLock {s : St} {b : Bool} (h : Grove pending own s) (hv : (s.vnodes v).freed = false)
    : wp (setVnode v fun vn => { vn with lock := b })
        (fun _ s' => Grove pending own s' ∧ Stays s s') (fun _ _ => True) s := by
  rw [wp_setVnode]
  refine ⟨h.setVnode hv rfl hv (h.forest.inv.counted v (h.lt_of_alive hv) hv), Stays.vnodes ?_⟩
  intro w
  by_cases hw : w = v
  . rw [hw, Function.update_self]
    exact ⟨rfl, fun hfreed => hfreed⟩
  . rw [Function.update_of_ne hw]
    exact ⟨rfl, fun hfreed => hfreed⟩

theorem acquire : Calm pending own (acquire v) := by
  intro s hs
  unfold Fs.acquire
  rw [wp_bind, wp_getVnode]
  refine ⟨fun _ => trivial, ?_⟩
  intro hv
  split
  . trivial
  . apply setLock hs hv

theorem release : Calm pending own (release v) := by
  intro s hs
  unfold Fs.release
  rw [wp_bind, wp_getVnode]
  refine ⟨fun _ => trivial, ?_⟩
  intro hv
  apply setLock hs hv

theorem setList (b : Bool) {s : St} (h : Grove pending own s)
    : Grove pending own { s with vfslistLock := b } ∧ Stays s { s with vfslistLock := b } := by
  have hforest : Forest { s with vfslistLock := b } :=
    ⟨⟨h.forest.inv.linked, h.forest.inv.counted, h.forest.inv.mountpoint, h.forest.inv.rootvn⟩,
      h.forest.wf, h.forest.back, h.forest.live⟩
  have hsteady : Steady s { s with vfslistLock := b } :=
    ⟨rfl, rfl, rfl, rfl, fun _ => ⟨rfl, rfl, rfl⟩, Nat.le_refl _, Nat.le_refl _, fun _ _ => rfl,
      fun _ _ hv => hv, fun _ _ => ⟨rfl, rfl⟩⟩
  refine ⟨h.steady hsteady hforest h.beyond (fun _ => Iff.rfl) (fun _ _ _ hn => hn) (fun _ _ => rfl)
    h.entry ?_, hsteady, fun _ hn => hn⟩
  . intro v hle hfreed
    exact absurd ((h.beyond v hle).symm.trans hfreed) (by simp)

theorem acquireList : Calm pending own acquireList := by
  intro s hs
  rw [wp_acquireList]
  refine ⟨fun _ => trivial, ?_⟩
  intro _
  apply setList true hs

theorem releaseList : Calm pending own releaseList := by
  intro s hs
  rw [wp_releaseList]
  apply setList false hs

end Calm

theorem Grove.close {pending : Option Nat} {own : Nat → Nat} {s : St} {v : Nat} (h : Grove pending own s)
    (hv : (s.vnodes v).freed = false) : Grove pending own (s.close v) ∧ Stays s (s.close v) := by
  have hsame := Forest.close_same s v
  have hlt := h.lt_of_alive hv
  have hfixed : ∀ w, ((s.close v).vnodes w).fixed = (s.vnodes w).fixed ∧
      (((s.close v).vnodes w).freed = false → (s.vnodes w).freed = false) := by
    intro w
    rw [Forest.close_vnodes]
    split
    . next hw =>
      subst hw
      exact ⟨rfl, fun _ => hv⟩
    . exact ⟨rfl, fun hfreed => hfreed⟩
  have hnode : ∀ n, ((s.close v).nodes n).type = (s.nodes n).type ∧
      ((s.close v).nodes n).parent = (s.nodes n).parent := by
    intro n
    have htype := congrArg RamNode.type (Forest.close_nodes (s := s) (v := v) n)
    have hparent := congrArg RamNode.parent (Forest.close_nodes (s := s) (v := v) n)
    change ((s.close v).nodes n).type = _ at htype
    change ((s.close v).nodes n).parent = _ at hparent
    rw [htype, hparent]
    split
    . exact ⟨rfl, rfl⟩
    . exact ⟨rfl, rfl⟩
  have hsteady : Steady s (s.close v) := by
    refine ⟨?_, ?_, ?_, ?_, ?_, ?_, ?_, fun w _ => (hfixed w).1, fun w _ => (hfixed w).2,
      fun n _ => hnode n⟩
    . rw [hsame]
    . rw [hsame]
    . rw [hsame]
    . rw [hsame]
    . rw [hsame]
      exact fun _ => ⟨rfl, rfl, rfl⟩
    . rw [hsame]
    . rw [hsame]
  have hattached : ∀ n, s.hier.Attached n → (s.close v).hier.Attached n := by
    intro n hn
    rw [Forest.close_hier, Hier.attached_free_iff h.forest.close_freed]
    apply hn
  refine ⟨h.steady hsteady (h.forest.close hlt hv) ?_ ?_ ?_ (fun _ _ => rfl) ?_ ?_, hsteady, hattached⟩
  . intro w hle
    rw [hsame] at hle
    dsimp only at hle
    rw [Forest.close_vnodes, if_neg (by omega)]
    apply h.beyond w hle
  . intro n
    rw [Forest.close_hier, Hier.root_free h.forest.close_freed]
  . intro mp _ _
    apply hattached
  . intro d n hn htype
    rw [(hnode n).1] at htype
    rw [Forest.close_hier] at hn
    apply h.entry d n _ htype
    rw [← (Hier.static_free d).2.2.1]
    apply hn
  . intro w hle hfreed
    exact absurd ((h.beyond w hle).symm.trans ((hfixed w).2 hfreed)) (by simp)

namespace Calm

variable {pending : Option Nat} {own : Nat → Nat} {v : Nat}

theorem vfs_close : Calm pending own (vfs_close v) := by
  intro s hs
  cases hv : (s.vnodes v).freed with
  | true =>
    unfold Fs.vfs_close
    rw [wp_bind, wp_getVnode]
    exact ⟨fun _ => trivial, fun hfreed => absurd (hv.symm.trans hfreed) (by simp)⟩
  | false =>
    apply wp_mono (wp_vfs_close_iff (P := fun _ => True)
      (Q := fun _ s' => Grove pending own s' ∧ Stays s s') hv (hs.close hv))
    . intro _ s1 hs1
      apply hs1
    . simp

theorem vputOpt (vn : Option Nat) : Calm pending own (vputOpt vn) := by
  cases vn with
  | none => apply pure
  | some v => apply vfs_close

end Calm

structure Placed (own : Nat → Nat) (s : St) (L : Loc) : Prop where
  attached : s.hier.Attached (L.node s)
  type : L.type s = (s.nodes (L.node s)).type
  vfs : L.type s = .VDIR → L.vfs s = own (L.node s)
  live : Live own s (L.vfs s)
  alive : ∀ v, L = .old v → (s.vnodes v).freed = false
  unmade : ∀ vfs n, L = .new vfs n → (s.nodes n).vnode = none

namespace Placed

variable {pending : Option Nat} {own : Nat → Nat} {s : St} {L V D : Loc} {v n vfs : Nat} {name : Name}
  (h : Grove pending own s)

include h

theorem old (hv : (s.vnodes v).freed = false) (hattached : s.hier.Attached (s.vnodes v).data)
    : Placed own s (.old v) where
  attached := hattached
  type := h.forest.type_eq (h.lt_of_alive hv) hv
  vfs htype := h.vnode v hv htype
  live := h.live v hv
  alive w hw := by
    rw [Loc.old.injEq] at hw
    rw [← hw, hv]
  unmade vfs n hn := by simp at hn

theorem get {held : List Loc} (hheld : ∀ L ∈ held, Placed own s L) (hn : s.hier.Attached n)
    (hvfs : (s.nodes n).type = .VDIR → vfs = own n)
    (hlive : Live own s vfs) : Placed own s (Loc.get s held vfs n) := by
  unfold Loc.get
  split
  . next v hv =>
    rcases h.forest.inv.linked n v hv with ⟨_, hdata, hfreed, _⟩
    apply old h hfreed
    rw [hdata]
    apply hn
  . next hnone =>
    split
    . next L hfind => apply hheld L (List.mem_of_find?_eq_some hfind)
    . refine ⟨hn, rfl, hvfs, hlive, by simp, ?_⟩
      intro vfs' m hm
      rw [Loc.new.injEq] at hm
      rw [← hm.2, hnone]

theorem up {fuel : Nat} (hL : Placed own s L)
    : (∀ V, Resolve.up s fuel L = some (.root V) → Placed own s V) ∧
      ∀ V, Resolve.up s fuel L = some (.dir V) → Placed own s V := by
  induction fuel generalizing L with
  | zero => simp [Resolve.up]
  | succ fuel ih =>
    unfold Resolve.up
    split
    . simp only [Option.some.injEq, Resolve.Up.root.injEq, reduceCtorEq, false_imp_iff, implies_true,
        and_true]
      intro V hV
      rw [← hV]
      apply hL
    . split
      . simp only [Option.some.injEq, Resolve.Up.dir.injEq, reduceCtorEq, false_imp_iff, implies_true,
          true_and]
        intro V hV
        rw [← hV]
        apply hL
      . split
        . next mp hmp =>
          cases hfreed : (s.vnodes mp).freed with
          | true => simp
          | false =>
            rw [if_neg (by simp)]
            apply ih
            apply old h hfreed (h.mountpoint _ mp hmp hfreed (Or.inr hL.live)).2
        . simp

theorem cross {fuel : Nat} (hpending : pending = none) (hD : Placed own s D) (hL : Placed own s L)
    (hcross : Resolve.cross s D fuel L = some V)
    : Placed own s V ∧ (V.type s = .VDIR → V.mountedhere s = none) := by
  induction fuel generalizing L with
  | zero => simp [Resolve.cross] at hcross
  | succ fuel ih =>
    unfold Resolve.cross at hcross
    split at hcross
    . next hnone =>
      rw [Option.some.injEq] at hcross
      rw [← hcross]
      refine ⟨hL, ?_⟩
      intro htype
      rw [if_pos htype] at hnone
      apply hnone
    . next vfs hsome =>
      have hlive : Live own s vfs := by
        split at hsome
        . cases L with
          | old w =>
            rcases h.covered w vfs (hL.alive w rfl) hsome with ⟨_, _, _, _, hlive⟩
            rw [hpending] at hlive
            exact hlive (by simp)
          | new w m => cases hsome
        . cases hsome
      split at hcross
      . cases hcross
      apply ih _ hcross
      apply get h
      . intro L' hL'
        rw [List.mem_singleton] at hL'
        rw [hL']
        apply hD
      . apply Or.inl hlive.1
      . intro _
        exact hlive.2.symm
      . apply hlive

omit h in
theorem look_eq {len : Nat} (hlook : Resolve.look s L name len = some (.ok V))
    : strcmp name ['.'] = 0 ∧ V = L ∨
      strcmp name ['.'] ≠ 0 ∧ ∃ n, n ≠ L.node s ∧ V = Loc.get s [L] (L.vfs s) n ∧
        (n = (s.nodes (L.node s)).parent ∨ n ∈ (s.hier.node (L.node s)).entries) := by
  unfold Resolve.look at hlook
  dsimp only at hlook
  split at hlook
  . cases hlook
  split at hlook
  . simp at hlook
  . split at hlook
    . next hdot =>
      simp only [Option.some.injEq, Except.ok.injEq] at hlook
      exact Or.inl ⟨hdot, hlook.symm⟩
    . next hdot =>
      right
      refine ⟨hdot, ?_⟩
      split at hlook
      . split at hlook
        . simp at hlook
        . next hparent =>
          simp only [Option.some.injEq, Except.ok.injEq] at hlook
          exact ⟨_, fun h => hparent (Or.inl h), hlook.symm, Or.inl rfl⟩
      . split at hlook
        . next entry hfind =>
          split at hlook
          . simp at hlook
          . next hentry =>
            simp only [Option.some.injEq, Except.ok.injEq] at hlook
            exact ⟨_, fun h => hentry (Or.inl h), hlook.symm, Or.inr (Forest.mem_entries (List.mem_of_find?_eq_some hfind))⟩
        . split at hlook
          . simp at hlook
          . simp at hlook

theorem own_eq (hL : Placed own s L) (hne : n ≠ L.node s)
    (hn : n = (s.nodes (L.node s)).parent ∨ n ∈ (s.hier.node (L.node s)).entries)
    (hdir : L.type s = .VDIR) (htype : (s.nodes n).type = .VDIR) : own n = own (L.node s) := by
  cases hn with
  | inr hentry => apply h.entry _ _ hentry htype
  | inl hparent =>
    have hnode : (s.nodes (L.node s)).type = .VDIR := hL.type ▸ hdir
    cases hL.attached with
    | inl hroot => exact absurd (hparent.trans hroot.2.2.1) hne
    | inr hentry =>
      rcases hentry with ⟨m, hm⟩
      have hisDir : (s.hier.node (L.node s)).isDir = true := by
        simpa [St.hier_node, RamNode.hnode] using hnode
      have hm' := (h.forest.wf.parent m _ hm hisDir).1
      rw [St.hier_node] at hm'
      simp only [RamNode.hnode] at hm'
      rw [hparent, hm']
      exact (h.entry m _ hm hnode).symm

theorem look {len : Nat} (hL : Placed own s L) (hlook : Resolve.look s L name len = some (.ok V))
    : Placed own s V := by
  have hattached := h.forest.attached_look hL.attached hL.type hlook
  rcases look_eq hlook with ⟨_, rfl⟩ | ⟨_, n, hne, rfl, hn⟩
  . apply hL
  . have hdir : L.type s = .VDIR := by
      unfold Resolve.look at hlook
      dsimp only at hlook
      split at hlook
      . cases hlook
      split at hlook
      . simp at hlook
      . next hdir => simpa using hdir
    rw [Loc.node_get h.forest.inv] at hattached
    apply get h _ hattached _ hL.live
    . intro L' hL'
      rw [List.mem_singleton] at hL'
      rw [hL']
      apply hL
    . intro htype
      rw [hL.vfs hdir, own_eq h hL hne hn hdir htype]

end Placed

/--
The vnodes with which a walk ends. A directory that it has found is not covered, unless the walk could not
go up from it.
-/
inductive Exit.Placed (own : Nat → Nat) (s : St) : Exit → Prop where
  | found {D V : Loc} (hD : Fs.Placed own s D) (hV : Fs.Placed own s V)
      (huncovered : V.type s = .VDIR → V.mountedhere s = none ∨ ∃ v, D = .old v ∧ V = .old v)
      : Exit.Placed own s (.found D V)
  | here {D : Loc} (hD : Fs.Placed own s D) : Exit.Placed own s (.here D)
  | tail {D V : Loc} (hD : Fs.Placed own s D) (hV : Fs.Placed own s V) : Exit.Placed own s (.tail D V)
  | link {D V : Loc} {next : Name} (hD : Fs.Placed own s D) (hV : Fs.Placed own s V)
      : Exit.Placed own s (.link D V next)
  | missing {D : Loc} {name : Name} {len : Nat} (hD : Fs.Placed own s D) (hdir : D.type s = .VDIR)
      : Exit.Placed own s (.missing D name len)
  | notdir {D : Loc} (hD : Fs.Placed own s D) : Exit.Placed own s (.notdir D)

inductive Resolve.Round.Placed (own : Nat → Nat) (s : St) : Resolve.Round → Prop where
  | done {e : Exit} (he : e.Placed own s) : Round.Placed own s (.done e)
  | next {D V : Loc} {name : Name} (hD : Fs.Placed own s D) (hV : Fs.Placed own s V)
      : Round.Placed own s (.next D V name)

namespace Placed

variable {own : Nat → Nat} {s : St} {L V D : Loc} {L' : Option Loc} {name : Name} (h : Grove none own s)

theorem nextname {next : Name} (hD : Placed own s D) (hV : Placed own s V)
    (huncovered : V.type s = .VDIR → V.mountedhere s = none ∨ ∃ v, D = .old v ∧ V = .old v)
    : (Resolve.nextname D V next).Placed own s := by
  unfold Resolve.nextname
  split
  . exact .done (.found hD hV huncovered)
  . exact .next hD hV

include h

theorem component {R : Resolve.Round} (hL : Placed own s L)
    (hcomponent : Resolve.component s L name = some R) : R.Placed own s := by
  unfold Resolve.component at hcomponent
  dsimp only at hcomponent
  split at hcomponent
  . cases hcomponent
  . rw [Option.some.injEq] at hcomponent
    rw [← hcomponent]
    exact .done (.notdir hL)
  . next e hne hlook =>
    rw [Option.some.injEq] at hcomponent
    rw [← hcomponent]
    refine .done (.missing hL ?_)
    unfold Resolve.look at hlook
    dsimp only at hlook
    split at hlook
    . cases hlook
    split at hlook
    . simp only [Option.some.injEq, Except.error.injEq] at hlook
      exact absurd hlook.symm hne
    . next htype => simpa using htype
  . next V hlook =>
    cases hcross : Resolve.cross s L (s.nextVfs + 1) V with
    | none =>
      rw [hcross] at hcomponent
      cases hcomponent
    | some W =>
      rw [hcross] at hcomponent
      dsimp only at hcomponent
      rcases cross h rfl hL (look h hL hlook) hcross with ⟨hW, huncovered⟩
      split at hcomponent
      . rw [Option.some.injEq] at hcomponent
        rw [← hcomponent]
        exact .done (.link hL hW)
      . rw [Option.some.injEq] at hcomponent
        rw [← hcomponent]
        apply nextname hL hW
        intro htype
        exact Or.inl (huncovered htype)

omit h in
theorem up_root {fuel : Nat} (hup : Resolve.up s fuel L = some (.root V))
    : ∃ v, V = .old v ∧ s.rootvn = some v := by
  induction fuel generalizing L with
  | zero => cases hup
  | succ fuel ih =>
    unfold Resolve.up at hup
    split at hup
    . next hroot =>
      simp only [Option.some.injEq, Resolve.Up.root.injEq] at hup
      rw [← hup]
      cases L with
      | old v => exact ⟨v, rfl, of_decide_eq_true hroot⟩
      | new vfs n => cases hroot
    . split at hup
      . simp at hup
      . split at hup
        . split at hup
          . cases hup
          . apply ih hup
        . cases hup

theorem round {prev : Option Loc} {R : Resolve.Round} (hprev : ∀ P, prev = some P → Placed own s P)
    (hL : Placed own s L) (hround : Resolve.round s prev L name = some R) : R.Placed own s := by
  unfold Resolve.round at hround
  split at hround
  . cases prev with
    | none =>
      simp only [Option.some.injEq] at hround
      rw [← hround]
      exact .done (.here hL)
    | some P =>
      cases P with
      | old v =>
        simp only [Option.some.injEq] at hround
        rw [← hround]
        exact .done (.tail (hprev _ rfl) hL)
      | new vfs n =>
        dsimp only at hround
        split at hround
        . rw [Option.some.injEq] at hround
          rw [← hround]
          exact .done (.tail hL hL)
        . cases hround
  . split at hround
    . cases hup : Resolve.up s (s.nextVfs + 1) L with
      | none =>
        rw [hup] at hround
        cases hround
      | some U =>
        rw [hup] at hround
        cases U with
        | root V =>
          simp only [Option.some.injEq] at hround
          rw [← hround]
          have hV := (up h hL).1 V hup
          rcases up_root hup with ⟨v, hv, _⟩
          apply nextname hV hV
          intro _
          exact Or.inr ⟨v, hv, hv⟩
        | dir V => apply component h ((up h hL).2 V hup) hround
    . apply component h hL hround

theorem lookup {fuel : Nat} {prev : Option Loc} {e : Exit} (hprev : ∀ P, prev = some P → Placed own s P)
    (hL : Placed own s L) (hlookup : Resolve.lookup s fuel prev L name = some e) : e.Placed own s := by
  induction fuel generalizing prev L name with
  | zero => cases hlookup
  | succ fuel ih =>
    unfold Resolve.lookup at hlookup
    cases hround : Resolve.round s prev L name with
    | none =>
      rw [hround] at hlookup
      cases hlookup
    | some R =>
      rw [hround] at hlookup
      have hR := round h hprev hL hround
      cases hR with
      | done he =>
        simp only [Option.some.injEq] at hlookup
        rw [← hlookup]
        apply he
      | next hD hV =>
        apply ih _ hV hlookup
        intro P hP
        rw [Option.some.injEq] at hP
        rw [← hP]
        apply hD

theorem start (hL : ∀ D, L' = some D → Placed own s D) (hstart : Resolve.start s name L' = some V)
    : Placed own s V := by
  unfold Resolve.start at hstart
  split at hstart
  . cases hrootfs : s.rootfs with
    | none =>
      rw [hrootfs] at hstart
      cases hstart
    | some rf =>
      rw [hrootfs] at hstart
      dsimp only at hstart
      split at hstart
      . cases hstart
      rw [Option.some.injEq] at hstart
      rw [← hstart]
      have hlive := (h.rootfs rf hrootfs).2.2.2 (by simp)
      apply get h (by simp) (Or.inl hlive.1) _ hlive
      intro _
      exact hlive.2.symm
  . apply hL V hstart

theorem namei {fuel : Nat} {L' : Option Loc} {e : Exit} (hL : ∀ D, L' = some D → Placed own s D)
    (hnamei : Resolve.namei s fuel name L' = some e) : e.Placed own s := by
  induction fuel generalizing name L' with
  | zero => cases hnamei
  | succ fuel ih =>
    unfold Resolve.namei at hnamei
    cases hstart : Resolve.start s name L' with
    | none =>
      rw [hstart] at hnamei
      cases hnamei
    | some V =>
      rw [hstart] at hnamei
      dsimp only at hnamei
      cases hlookup : Resolve.lookup s ((skipSlashes name).length + 1) none V (skipSlashes name) with
      | none =>
        rw [hlookup] at hnamei
        cases hnamei
      | some e' =>
        rw [hlookup] at hnamei
        have he' := lookup h (by simp) (start h hL hstart) hlookup
        cases he' with
        | link hD hW =>
          dsimp only at hnamei
          split at hnamei
          . cases hnamei
          . apply ih _ hnamei
            intro P hP
            rw [Option.some.injEq] at hP
            rw [← hP]
            apply hD
        | found hD hW huncovered =>
          simp only [Option.some.injEq] at hnamei
          rw [← hnamei]
          exact .found hD hW huncovered
        | here hD =>
          simp only [Option.some.injEq] at hnamei
          rw [← hnamei]
          exact .here hD
        | tail hD hW =>
          simp only [Option.some.injEq] at hnamei
          rw [← hnamei]
          exact .tail hD hW
        | missing hD hdir =>
          simp only [Option.some.injEq] at hnamei
          rw [← hnamei]
          exact .missing hD hdir
        | notdir hD =>
          simp only [Option.some.injEq] at hnamei
          rw [← hnamei]
          exact .notdir hD

theorem resolve {fuel : Nat} {e : Exit} (hresolve : Fs.resolve s name fuel = some e) : e.Placed own s :=
  namei h (by simp) hresolve

theorem secure (hL : Placed own s L) : Secure s (L.node s) :=
  h.forest.secure hL.attached

end Placed

theorem Walked.steady {st s : St} {held : List (Nat × Loc)} {vl nl : List Nat}
    (h : Walked st s held vl nl) : Steady st s := by
  refine ⟨h.same.rootfs, h.same.rootvn, h.same.nextVfs, h.same.junk, ?_, h.next_le, ?_, ?_, ?_, ?_⟩
  . rw [h.same.vfss]
    exact fun _ => ⟨rfl, rfl, rfl⟩
  . rw [h.same.nextNode]
  . intro v hv
    rw [h.old v hv]
    rfl
  . intro v hv hfreed
    rw [h.old v hv] at hfreed
    apply hfreed
  . intro n _
    exact ⟨h.same.type_eq n, h.same.parent_eq n⟩

theorem Grove.walked {own : Nat → Nat} {st s : St} {held : List (Nat × Loc)} {vl nl : List Nat}
    (h : Grove none own st) (hw : Walked st s held vl nl) (hsame : SameMounts st s)
    (hheld : ∀ v L, (v, L) ∈ held → Placed own st L) : Grove none own s ∧ Stays st s := by
  have hsteady := hw.steady
  have hfree := hw.hier_freed h.forest.wf
  have hattached : ∀ n, st.hier.Attached n → s.hier.Attached n := by
    intro n hn
    rw [hw.hier, Hier.attached_free_iff hfree]
    apply hn
  have hbeyond : ∀ v, s.nextVnode ≤ v → (s.vnodes v).freed = true := by
    intro v hle
    apply hsame.freed v (Or.inr hle)
    apply h.beyond v
    have := hsame.le
    omega
  refine ⟨h.steady hsteady ?_ hbeyond ?_ ?_ (fun _ _ => rfl) ?_ ?_, hsteady, hattached⟩
  . apply hw.forest h.forest
    intro v vfs n hmem
    have hplaced := hheld v _ hmem
    refine ⟨hplaced.attached.lt_next h.forest.wf, ?_⟩
    by_contra hfreed
    rw [Bool.not_eq_false] at hfreed
    apply hw.not_attached_of_freed h.forest.wf hfreed hplaced.attached
  . intro n
    rw [hw.hier, Hier.root_free hfree]
  . intro mp _ _
    apply hattached
  . intro d n hn htype
    rw [hw.same.type_eq] at htype
    rw [hw.hier, (Hier.static_free d).2.2.1] at hn
    apply h.entry d n hn htype
  . intro v hle hfreed
    have hlt : v < s.nextVnode := by
      by_contra hge
      have := hbeyond v (by omega)
      rw [this] at hfreed
      cases hfreed
    have hpos : 0 < refs held v := by
      by_contra hzero
      have := hw.dropped v hle hlt (by omega)
      rw [this] at hfreed
      cases hfreed
    rcases refs_pos_iff.mp hpos with ⟨L, hL⟩
    have hplaced := hheld v L hL
    rcases hw.members hL with ⟨hdata, htype, hvfs, hvroot, hhere⟩
    rcases hw.heldNew v L hL hle with ⟨_, vfs, n, rfl, _⟩
    constructor
    case mountedhere => rw [hhere]; rfl
    case vnode =>
      rw [htype, hvfs, hdata]
      apply hplaced.vfs
    case live =>
      unfold Live
      rw [hvfs, hw.same.vfss, hw.hier, Hier.root_free hfree]
      apply hplaced.live
    case vroot =>
      rw [hvroot, hdata, htype, hw.same.parent_eq]
      intro hdir hparent
      unfold Loc.vroot
      simp only [Loc.type, Loc.node] at hdir hparent ⊢
      simp [hdir, hparent]

section Static

variable {s : St} {n m d : Nat}

theorem St.static_updNode {f : RamNode → RamNode}
    (hf : (f (s.nodes n)).type = (s.nodes n).type ∧ (f (s.nodes n)).parent = (s.nodes n).parent)
    : ((s.updNode n f).nodes m).type = (s.nodes m).type ∧
        ((s.updNode n f).nodes m).parent = (s.nodes m).parent := by
  by_cases hm : m = n
  . rw [hm, St.updNode_nodes_self]
    apply hf
  . rw [St.updNode_nodes_of_ne hm]
    exact ⟨rfl, rfl⟩

theorem static_of_unchained {node node' : RamNode} (h : node'.unchained = node.unchained)
    : node'.type = node.type ∧ node'.parent = node.parent := by
  have htype := congrArg RamNode.type h
  have hparent := congrArg RamNode.parent h
  exact ⟨htype, hparent⟩

theorem St.static_newFile (vfs : Nat) (name : Name) (type : VType) (link : Name) (hm : m ≠ s.nextNode)
    : ((s.newFile vfs d name type link).nodes m).type = (s.nodes m).type ∧
        ((s.newFile vfs d name type link).nodes m).parent = (s.nodes m).parent := by
  have hattach := St.static_updNode (s := (s.addNode vfs (some d) type link).addLink s.nextNode) (n := d)
    (m := m) (f := fun node =>
      { node with
        dentry := { name, node := s.nextNode, seq := node.lastseq } :: node.dentry
        lastseq := node.lastseq + 1
        linkcount := node.linkcount + 1
        ramlock := false }) ⟨rfl, rfl⟩
  have hlink := St.static_updNode (s := s.addNode vfs (some d) type link) (n := s.nextNode) (m := m)
    (f := fun node => { node with linkcount := node.linkcount + 1, ramlock := false }) ⟨rfl, rfl⟩
  have hnode := static_of_unchained (s.addNode_unchained vfs (some d) type link hm)
  exact ⟨hattach.1.trans (hlink.1.trans hnode.1), hattach.2.trans (hlink.2.trans hnode.2)⟩

theorem St.static_hardLink (name : Name)
    : ((s.hardLink d n name).nodes m).type = (s.nodes m).type ∧
        ((s.hardLink d n name).nodes m).parent = (s.nodes m).parent := by
  have hattach := St.static_updNode (s := s.addLink n) (n := d) (m := m) (f := fun node =>
    { node with
      dentry := { name, node := n, seq := node.lastseq } :: node.dentry
      lastseq := node.lastseq + 1
      linkcount := node.linkcount + 1
      ramlock := false }) ⟨rfl, rfl⟩
  have hlink := St.static_updNode (s := s) (n := n) (m := m) (f := fun node =>
    { node with linkcount := node.linkcount + 1, ramlock := false }) ⟨rfl, rfl⟩
  exact ⟨hattach.1.trans hlink.1, hattach.2.trans hlink.2⟩

theorem St.static_dropLinks (k : Int)
    : ((s.dropLinks n k).nodes m).type = (s.nodes m).type ∧
        ((s.dropLinks n k).nodes m).parent = (s.nodes m).parent :=
  St.static_updNode ⟨rfl, rfl⟩

theorem St.static_detach (de : RamDentry)
    : ((s.detach d de).nodes m).type = (s.nodes m).type ∧
        ((s.detach d de).nodes m).parent = (s.nodes m).parent :=
  St.static_updNode ⟨rfl, rfl⟩

theorem St.static_unlinkFile (de : RamDentry)
    : ((s.unlinkFile d de).nodes m).type = (s.nodes m).type ∧
        ((s.unlinkFile d de).nodes m).parent = (s.nodes m).parent := by
  unfold St.unlinkFile
  rw [(St.static_dropLinks 1).1, (St.static_dropLinks 1).2, (St.static_detach de).1,
    (St.static_detach de).2]
  apply static_of_unchained
  apply St.unchain_unchained

theorem St.static_unlinkDir (de : RamDentry)
    : ((s.unlinkDir d de).nodes m).type = (s.nodes m).type ∧
        ((s.unlinkDir d de).nodes m).parent = (s.nodes m).parent := by
  unfold St.unlinkDir
  rw [(St.static_dropLinks 1).1, (St.static_dropLinks 1).2, (St.static_detach de).1,
    (St.static_detach de).2]
  have hunchain := static_of_unchained (St.unchain_unchained (s := s.dropLinks de.node 1) (n := de.node) m)
  have hdrop := St.static_dropLinks (s := s) (n := de.node) (m := m) 1
  exact ⟨hunchain.1.trans hdrop.1, hunchain.2.trans hdrop.2⟩

end Static

structure SameFrame (s s' : St) : Prop where
  rootfs : s'.rootfs = s.rootfs
  nextVfs : s'.nextVfs = s.nextVfs
  junk : s'.junk = s.junk
  vfss : ∀ v, (s'.vfss v).root = (s.vfss v).root ∧ (s'.vfss v).rootfs = (s.vfss v).rootfs

namespace Grove

variable {own own' : Nat → Nat} {s s' : St} {v n d : Nat} (h : Grove none own s)

include h

theorem sameVnodes (hs : SameVnodes s s') (hframe : SameFrame s s')
    (hnode : ∀ n, n < s.nextNode →
      (s'.nodes n).type = (s.nodes n).type ∧ (s'.nodes n).parent = (s.nodes n).parent)
    (hforest : Forest s') (hroot : ∀ n, s'.hier.Root n ↔ s.hier.Root n)
    (hattached : ∀ mp, (s.vnodes mp).freed = false → (s.vnodes mp).mountedhere ≠ none →
      s.hier.Attached (s.vnodes mp).data → s'.hier.Attached (s.vnodes mp).data)
    (hown : ∀ n, n < s.nextNode → own' n = own n)
    (hentry : ∀ d n, n ∈ (s'.hier.node d).entries → (s'.nodes n).type = .VDIR → own' n = own' d)
    : Grove none own' s' ∧ Steady s s' := by
  have hsteady : Steady s s' := by
    refine ⟨hframe.rootfs, hs.rootvn, hframe.nextVfs, hframe.junk,
      fun v => ⟨hs.mountpoint v, hframe.vfss v⟩, ?_, hs.nextNode, ?_, ?_, hnode⟩
    . rw [hs.nextVnode]
    . intro v _
      rw [hs.vnodes]
    . intro v _ hfreed
      rw [hs.vnodes] at hfreed
      apply hfreed
  have hbeyond : ∀ v, s'.nextVnode ≤ v → (s'.vnodes v).freed = true := by
    rw [hs.nextVnode, hs.vnodes]
    apply h.beyond
  refine ⟨h.steady hsteady hforest hbeyond hroot hattached hown hentry ?_, hsteady⟩
  intro v hle hfreed
  rw [hs.vnodes] at hfreed
  exact absurd ((h.beyond v hle).symm.trans hfreed) (by simp)

theorem newFile (vfs : Nat) (name : Name) (type : VType) (link : Name) (hd : s.hier.Attached d)
    (hdir : (s.nodes d).type = .VDIR)
    : Grove none (Function.update own s.nextNode (own d)) (s.newFile vfs d name type link) ∧
        Stays s (s.newFile vfs d name type link) := by
  have hlt : d < s.nextNode := hd.lt_next h.forest.wf
  have hhier := s.hier_newFile vfs name type link (d := d) (by omega)
  have hattached : ∀ n, s.hier.Attached n → (s.newFile vfs d name type link).hier.Attached n := by
    intro n hn
    have := hn.lt_next h.forest.wf
    rw [hhier, Hier.attached_create h.forest.wf hd]
    . apply hn
    . rw [St.hier_next] at this ⊢
      omega
  have hsame : ∀ v, ((s.newFile vfs d name type link).vfss v).root = (s.vfss v).root ∧
      ((s.newFile vfs d name type link).vfss v).rootfs = (s.vfss v).rootfs := by
    intro v
    unfold St.newFile St.attach St.addLink
    rw [St.addNode_eq]
    simp only [St.updNode]
    by_cases hv : v = vfs
    . rw [hv, Function.update_self]
      exact ⟨rfl, rfl⟩
    . rw [Function.update_of_ne hv]
      exact ⟨rfl, rfl⟩
  have hframe : SameFrame s (s.newFile vfs d name type link) := by
    refine ⟨?_, ?_, ?_, hsame⟩
    . unfold St.newFile St.attach St.addLink
      rw [St.addNode_eq]
      rfl
    . unfold St.newFile St.attach St.addLink
      rw [St.addNode_eq]
      rfl
    . unfold St.newFile St.attach St.addLink
      rw [St.addNode_eq]
      rfl
  have hold : ∀ e n, n ∈ (s.hier.node e).entries → (s.nodes n).type = .VDIR →
      Function.update own s.nextNode (own d) n = own e := by
    intro e n hn htype
    have := h.forest.wf.bound e n hn
    rw [St.hier_next] at this
    rw [Function.update_of_ne (by omega)]
    apply h.entry e n hn htype
  suffices hgrove : Grove none (Function.update own s.nextNode (own d)) (s.newFile vfs d name type link) ∧
      Steady s (s.newFile vfs d name type link) from ⟨hgrove.1, hgrove.2, hattached⟩
  apply h.sameVnodes (SameVnodes.newFile h.forest.fresh vfs name type link) hframe
    (fun m hm => St.static_newFile vfs name type link (by omega))
    (h.forest.newFile vfs name type link hd hdir)
  . intro n
    rw [hhier]
    by_cases hn : n = s.nextNode
    . subst hn
      constructor
      . intro hroot
        have := hroot.2.2.1
        simp only [Hier.create, St.hier_next, if_pos] at this
        omega
      . intro hroot
        have := hroot.1
        rw [St.hier_next] at this
        omega
    . apply Hier.root_create hn
  . intro mp _ _
    apply hattached
  . intro n hn
    rw [Function.update_of_ne (by omega)]
  . intro e n hn htype
    rw [hhier, Hier.entries_create h.forest.wf hd] at hn
    have hnew : n = s.nextNode ∨ (s.nodes n).type = .VDIR := by
      by_cases heq : n = s.nextNode
      . exact Or.inl heq
      . rw [(St.static_newFile vfs name type link heq).1] at htype
        exact Or.inr htype
    split at hn
    . next hed =>
      subst hed
      rw [Function.update_of_ne (show e ≠ s.nextNode by omega)]
      rw [Multiset.mem_cons] at hn
      cases hn with
      | inl hn =>
        rw [hn, St.hier_next, Function.update_self]
      | inr hn =>
        cases hnew with
        | inl hnew =>
          rw [hnew, Function.update_self]
        | inr hnew => apply hold e n hn hnew
    . next hed =>
      have he := Hier.lt_next_of_mem h.forest.wf hn
      have hb := h.forest.wf.bound e n hn
      rw [St.hier_next] at he hb
      rw [Function.update_of_ne (show e ≠ s.nextNode by omega)]
      cases hnew with
      | inl hnew => omega
      | inr hnew => apply hold e n hn hnew

theorem hardLink (name : Name) (hd : s.hier.Attached d) (hdir : (s.nodes d).type = .VDIR)
    (hn : s.hier.Attached n) (hleaf : (s.nodes n).type ≠ .VDIR)
    : Grove none own (s.hardLink d n name) ∧ Stays s (s.hardLink d n name) := by
  have hne : d ≠ n := by
    intro heq
    rw [heq] at hdir
    exact hleaf hdir
  have hhier := St.hier_hardLink (s := s) name hne
  have hattached : ∀ m, s.hier.Attached m → (s.hardLink d n name).hier.Attached m := by
    intro m hm
    rw [hhier, Hier.attached_link hn]
    apply hm
  suffices hgrove : Grove none own (s.hardLink d n name) ∧ Steady s (s.hardLink d n name) from
    ⟨hgrove.1, hgrove.2, hattached⟩
  apply h.sameVnodes (SameVnodes.hardLink name) ⟨rfl, rfl, rfl, fun _ => ⟨rfl, rfl⟩⟩
    (fun m _ => St.static_hardLink name) (h.forest.hardLink name hd hdir hn hleaf)
  . intro m
    rw [hhier]
    apply Hier.root_of_static (fun m => Hier.static_link m) rfl
  . intro mp _ _
    apply hattached
  . intro m _
    rfl
  . intro e m hm htype
    rw [(St.static_hardLink name).1] at htype
    rw [hhier, Hier.entries_link] at hm
    split at hm
    . next hed =>
      rw [hed]
      rw [Multiset.mem_cons] at hm
      cases hm with
      | inl hm =>
        rw [hm] at htype
        exact absurd htype hleaf
      | inr hm => apply h.entry d m hm htype
    . apply h.entry e m hm htype

theorem unlinked {k : Int} {x : Nat} (hs : SameVnodes s s') (hframe : SameFrame s s')
    (hnode : ∀ n, (s'.nodes n).type = (s.nodes n).type ∧ (s'.nodes n).parent = (s.nodes n).parent)
    (hforest : Forest s') (hhier : s'.hier = s.hier.unlink d x k)
    (hfree : ∀ mp, (s.vnodes mp).freed = false → (s.vnodes mp).mountedhere ≠ none →
      (s.vnodes mp).data ≠ x)
    : Grove none own s' := by
  refine (h.sameVnodes hs hframe (fun m _ => hnode m) hforest ?_ ?_ (fun _ _ => rfl) ?_).1
  . intro m
    rw [hhier]
    apply Hier.root_of_static (fun m => Hier.static_unlink m) rfl
  . intro mp hfreed hhere hattached
    rw [hhier, Hier.attached_unlink_of_ne (hfree mp hfreed hhere)]
    apply hattached
  . intro e m hm htype
    rw [(hnode m).1] at htype
    rw [hhier, Hier.entries_unlink] at hm
    split at hm
    . next hed =>
      rw [hed]
      apply h.entry d m (Multiset.mem_of_mem_erase hm) htype
    . apply h.entry e m hm htype

theorem unlinkFile {de : RamDentry} (hde : de ∈ (s.nodes d).dentry)
    (hleaf : (s.nodes de.node).type ≠ .VDIR) : Grove none own (s.unlinkFile d de) := by
  have hframe : SameFrame s (s.unlinkFile d de) := by
    unfold St.unlinkFile St.dropLinks St.detach
    rw [(OnlyNodes.refl s).unchain]
    exact ⟨rfl, rfl, rfl, fun _ => ⟨rfl, rfl⟩⟩
  apply h.unlinked (SameVnodes.unlinkFile de) hframe (fun m => St.static_unlinkFile de)
    (h.forest.unlinkFile hde hleaf)
    (St.hier_unlinkFile hde (Hier.ne_of_mem h.forest.wf (Forest.mem_entries hde)))
  intro mp hfreed hhere heq
  rcases Option.ne_none_iff_exists'.mp hhere with ⟨v, hv⟩
  have hdir := (h.covered mp v hfreed hv).2.1
  rw [h.forest.type_eq (h.lt_of_alive hfreed) hfreed, heq] at hdir
  exact hleaf hdir

theorem unlinkDir {de : RamDentry} (hde : de ∈ (s.nodes d).dentry) (hv : (s.vnodes v).freed = false)
    (hnode : de.node = (s.vnodes v).data) (hhere : (s.vnodes v).mountedhere = none)
    (hdir : (s.nodes de.node).type = .VDIR) (hempty : (s.nodes de.node).dentry = [])
    : Grove none own (s.unlinkDir d de) := by
  have hframe : SameFrame s (s.unlinkDir d de) := by
    unfold St.unlinkDir St.dropLinks St.detach
    rw [(OnlyNodes.refl _).unchain]
    exact ⟨rfl, rfl, rfl, fun _ => ⟨rfl, rfl⟩⟩
  apply h.unlinked (SameVnodes.unlinkDir de) hframe (fun m => St.static_unlinkDir de)
    (h.forest.unlinkDir hde hdir hempty)
    (St.hier_unlinkDir hde (Hier.ne_of_mem h.forest.wf (Forest.mem_entries hde)))
  intro mp hfreed hmp heq
  have hmpback := h.forest.back mp (h.lt_of_alive hfreed) hfreed
  have hvback := h.forest.back v (h.lt_of_alive hv) hv
  rw [heq, hnode, hvback, Option.some.injEq] at hmpback
  rw [← hmpback] at hmp
  exact hmp hhere

theorem vnew {vfs : Nat} (hnone : (s.nodes n).vnode = none) (hlock : (s.nodes n).ramlock = false)
    (hn : s.hier.Attached n) (hvfs : (s.nodes n).type = .VDIR → vfs = own n) (hlive : Live own s vfs)
    : Grove none own (s.vnew vfs n) ∧ Stays s (s.vnew vfs n) := by
  have hsame : SameMounts s (s.vnew vfs n) := by
    refine ⟨rfl, rfl, rfl, fun _ => rfl, fun _ => rfl, Nat.le_succ _, Nat.le_refl _, ?_, ?_⟩
    . intro w hw
      unfold St.vnew
      dsimp only
      rw [Function.update_of_ne (Nat.ne_of_lt hw)]
    . intro w hw hfreed
      unfold St.vnew at hw ⊢
      dsimp only at hw ⊢
      rw [Function.update_of_ne (by omega)]
      apply hfreed
  apply h.walked (Forest.walked_vnew h.forest.inv vfs (hn.freed_eq h.forest.wf) hnone hlock) hsame
  intro w L hL
  rw [List.mem_singleton, Prod.mk.injEq] at hL
  rw [hL.2]
  refine ⟨hn, rfl, hvfs, hlive, by simp, ?_⟩
  intro vfs' m hm
  rw [Loc.new.injEq] at hm
  rw [← hm.2, hnone]

end Grove

theorem Grove.setHere {pending pending' here : Option Nat} {own : Nat → Nat} {s : St} {mp : Nat}
    (h : Grove pending own s) (hrootfs : ∀ v, s.rootfs = some v → pending' ≠ some v → Live own s v)
    (hcovered : ∀ v, here = some v → (s.vfss v).mountpoint = .ref mp ∧ (s.vnodes mp).type = .VDIR ∧
      (s.vnodes mp).vfs < v ∧ v < s.nextVfs ∧ (pending' ≠ some v → Live own s v))
    (hother : ∀ w v, w ≠ mp → (s.vnodes w).freed = false → (s.vnodes w).mountedhere = some v →
      pending' ≠ some v → Live own s v)
    (hmountpoint : ∀ v w, (s.vfss v).mountpoint = .ref w → (s.vnodes w).freed = false →
      pending' = some v ∨ Live own s v →
      (if w = mp then here else (s.vnodes w).mountedhere) = some v ∧ s.hier.Attached (s.vnodes w).data)
    : Grove pending' own
        { s with vnodes := Function.update s.vnodes mp { s.vnodes mp with mountedhere := here } } := by
  generalize hvnodes : Function.update s.vnodes mp { s.vnodes mp with mountedhere := here } = vnodes
  have hhere : ∀ w, (vnodes w).mountedhere = if w = mp then here else (s.vnodes w).mountedhere := by
    intro w
    rw [← hvnodes]
    by_cases hw : w = mp
    . rw [hw, Function.update_self, if_pos rfl]
    . rw [Function.update_of_ne hw, if_neg hw]
  have hsame : ∀ w, (vnodes w).freed = (s.vnodes w).freed ∧ (vnodes w).data = (s.vnodes w).data ∧
      (vnodes w).type = (s.vnodes w).type ∧ (vnodes w).vfs = (s.vnodes w).vfs ∧
      (vnodes w).vroot = (s.vnodes w).vroot ∧ (vnodes w).refcount = (s.vnodes w).refcount := by
    intro w
    rw [← hvnodes]
    by_cases hw : w = mp
    . rw [hw, Function.update_self]
      exact ⟨rfl, rfl, rfl, rfl, rfl, rfl⟩
    . rw [Function.update_of_ne hw]
      exact ⟨rfl, rfl, rfl, rfl, rfl, rfl⟩
  constructor
  case forest =>
    constructor
    case inv =>
      constructor
      case linked =>
        intro n w hn
        dsimp only
        rw [(hsame w).1, (hsame w).2.1, (hsame w).2.2.1]
        apply h.forest.inv.linked n w hn
      case counted =>
        intro w hlt hfreed
        dsimp only at hfreed ⊢
        rw [(hsame w).1] at hfreed
        rw [(hsame w).2.2.2.2.2]
        apply h.forest.inv.counted w hlt hfreed
      case mountpoint => apply h.forest.inv.mountpoint
      case rootvn => apply h.forest.inv.rootvn
    case wf => apply h.forest.wf
    case back =>
      intro w hlt hfreed
      dsimp only at hfreed ⊢
      rw [(hsame w).1] at hfreed
      rw [(hsame w).2.1]
      apply h.forest.back w hlt hfreed
    case live => apply h.forest.live
  case beyond =>
    intro w hle
    dsimp only
    rw [(hsame w).1]
    apply h.beyond w hle
  case roots => apply h.roots
  case rootfs =>
    intro v hv
    rcases h.rootfs v hv with ⟨hlt, hflag, hnone, _⟩
    exact ⟨hlt, hflag, hnone, hrootfs v hv⟩
  case covered =>
    intro w v hfreed hw
    dsimp only at hfreed hw ⊢
    rw [(hsame w).1] at hfreed
    rw [(hsame w).2.2.1, (hsame w).2.2.2.1]
    rw [hhere] at hw
    split at hw
    . next hwmp =>
      rw [hwmp]
      apply hcovered v hw
    . next hwmp =>
      rcases h.covered w v hfreed hw with ⟨hpoint, htype, hlt, hnext, _⟩
      exact ⟨hpoint, htype, hlt, hnext, hother w v hwmp hfreed hw⟩
  case mountpoint =>
    intro v w hw hfreed hv
    dsimp only at hfreed ⊢
    rw [(hsame w).1] at hfreed
    rw [(hsame w).2.1, hhere]
    apply hmountpoint v w hw hfreed hv
  case rootvn =>
    intro v hv hfreed
    dsimp only at hfreed ⊢
    rw [(hsame v).1] at hfreed
    rw [(hsame v).2.1]
    apply h.rootvn v hv hfreed
  case entry => apply h.entry
  case vnode =>
    intro v hfreed htype
    dsimp only at hfreed htype ⊢
    rw [(hsame v).1] at hfreed
    rw [(hsame v).2.2.1] at htype
    rw [(hsame v).2.2.2.1, (hsame v).2.1]
    apply h.vnode v hfreed htype
  case live =>
    intro v hfreed
    dsimp only at hfreed ⊢
    rw [(hsame v).1] at hfreed
    rw [(hsame v).2.2.2.1]
    apply h.live v hfreed
  case vroot =>
    intro v hfreed
    dsimp only at hfreed ⊢
    rw [(hsame v).1] at hfreed
    rw [(hsame v).2.2.2.2.1, (hsame v).2.1, (hsame v).2.2.1]
    apply h.vroot v hfreed

section Uncover

variable {own : Nat → Nat} {s s' : St} {u mp : Nat}

theorem Lists.own_of_follows (h : Lists own s) {p : Ptr} {v n : Nat} (hn : Follows s p n)
    (hp : ∀ m, p = .ref m → m < s.nextNode ∧ own m = v) : n < s.nextNode ∧ own n = v := by
  induction hn with
  | here m => apply hp m rfl
  | next hn ih =>
    apply ih
    intro k hk
    rcases h.next _ k hk with ⟨hlt, hown⟩
    rw [hown]
    exact ⟨hlt, (hp _ rfl).2⟩

theorem Lists.own_of_listed (h : Lists own s) {v n : Nat} (hn : Listed s v n)
    : n < s.nextNode ∧ own n = v :=
  h.own_of_follows hn (h.head v)

theorem Lists.root_listed (h : Lists own s) {v : Nat} (hv : Live own s v)
    (hend : (s.vfss v).nodes = .null ∨ ∃ n, Listed s v n ∧ (s.nodes n).next = .null)
    : Listed s v (s.vfss v).root := by
  cases hend with
  | inl hnull =>
    rcases h.nonempty _ hv.1.1 with ⟨m, hm⟩
    rw [hv.2, hnull] at hm
    cases hm
  | inr hend =>
    rcases hend with ⟨n, hn, hnull⟩
    rcases h.own_of_listed hn with ⟨hlt, hown⟩
    cases h.last n hlt with
    | inl hnext =>
      rcases hnext with ⟨m, hm⟩
      rw [hnull] at hm
      cases hm
    | inr hlast =>
      have hroot := hlast.2.2.2
      rw [hown] at hroot
      rw [← hroot]
      apply hn

variable (hunused : Unused s u) (htear : Tearing (Listed s u) s s')
  (hgone : ∀ n, Listed s u n → (s'.nodes n).dentry = [] ∧ (s'.nodes n).freed = true)

include hunused htear hgone

theorem Unused.pruned : Hier.Pruned s.hier s'.hier (Listed s u) := by
  constructor
  case next =>
    rw [St.hier_next, St.hier_next, htear.frame.nextNode]
  case out =>
    intro n hn
    rw [St.hier_node, St.hier_node, htear.out n hn]
  case gone =>
    intro n hn
    rw [St.hier_node]
    refine ⟨?_, (hgone n hn).2⟩
    unfold RamNode.hnode
    dsimp only
    rw [(hgone n hn).1]
    rfl
  case closed =>
    intro d n hn
    rw [St.hier_node] at hn
    simp only [RamNode.hnode, Multiset.mem_coe, List.mem_map] at hn
    rcases hn with ⟨de, hde, rfl⟩
    apply hunused.dentry d de hde

omit htear hgone in
theorem Grove.not_listed (h : Grove none own s) {v : Nat} (hv : (s.vnodes v).freed = false)
    : (s.vnodes v).vfs ≠ u ∧ ¬ Listed s u (s.vnodes v).data :=
  hunused.vnode v (h.lt_of_alive hv) hv

theorem Grove.not_live_torn (hroot : Listed s u (s.vfss u).root) : ¬ Live own s' u := by
  intro hlive
  have hroot' : s'.hier.Root (s.vfss u).root := by
    have := hlive.1
    rw [htear.frame] at this ⊢
    exact this
  exact ((hunused.pruned htear hgone).root_iff.mp hroot').2 hroot

theorem Grove.live_torn (hlists : Lists own s) {v : Nat} (hv : Live own s v) (hvu : v ≠ u) : Live own s' v := by
  have hne : ¬ Listed s u (s.vfss v).root := by
    intro hlisted
    apply hvu
    rw [← hv.2, (hlists.own_of_listed hlisted).2]
  have hroot' : s'.hier.Root (s.vfss v).root :=
    (hunused.pruned htear hgone).root_iff.mpr ⟨hv.1, hne⟩
  rw [htear.frame] at hroot' ⊢
  exact ⟨hroot', hv.2⟩

theorem Grove.live_of_torn {v : Nat} (hv : Live own s' v) : Live own s v := by
  have hroot' : s'.hier.Root (s.vfss v).root := by
    have := hv.1
    rw [htear.frame] at this ⊢
    exact this
  have hown := hv.2
  rw [htear.frame] at hown
  exact ⟨((hunused.pruned htear hgone).root_iff.mp hroot').1, hown⟩

theorem Forest.torn (h : Grove none own s) : Forest s' := by
  have hnone : ∀ n v, (s'.nodes n).vnode = some v → ¬ Listed s u n := by
    intro n v hn hlisted
    cases hold : (s.nodes n).vnode with
    | none =>
      rw [htear.vnode n hold] at hn
      cases hn
    | some w =>
      rcases h.forest.inv.linked n w hold with ⟨_, hdata, hfreed, _⟩
      apply (h.not_listed hunused hfreed).2
      rw [hdata]
      apply hlisted
  have hwf := (hunused.pruned htear hgone).wf h.forest.wf
  rw [htear.frame] at hwf ⊢
  constructor
  case inv =>
    refine ⟨?_, h.forest.inv.counted, h.forest.inv.mountpoint, h.forest.inv.rootvn⟩
    intro n v hn
    dsimp only at hn ⊢
    have hout := htear.out n (hnone n v hn)
    rw [hout] at hn ⊢
    apply h.forest.inv.linked n v hn
  case wf => exact hwf
  case back =>
    intro v hlt hfreed
    dsimp only
    rw [htear.out _ (h.not_listed hunused hfreed).2]
    apply h.forest.back v hlt hfreed
  case live =>
    intro n v hn
    dsimp only at hn ⊢
    have hout := htear.out n (hnone n v hn)
    rw [hout] at hn ⊢
    apply h.forest.live n v hn

theorem Grove.torn (h : Grove none own s) (hlists : Lists own s) (hlive : Live own s u)
    (hmp : (s.vfss u).mountpoint = .ref mp) : Grove (some u) own s' := by
  have hpruned := hunused.pruned htear hgone
  have hforest := Forest.torn hunused htear hgone h
  have hleft : ∀ {v}, Live own s v → v ≠ u → Live own s' v := Grove.live_torn hunused htear hgone hlists
  have hright : ∀ {v}, Live own s' v → Live own s v := Grove.live_of_torn hunused htear hgone
  rw [htear.frame] at hpruned hforest hleft hright ⊢
  constructor
  case forest => exact hforest
  case beyond => apply h.beyond
  case roots =>
    intro r hr
    apply h.roots r (hpruned.root_iff.mp hr).1
  case rootfs =>
    intro v hv
    rcases h.rootfs v hv with ⟨hlt, hrootfs, hnone, hvlive⟩
    refine ⟨hlt, hrootfs, hnone, ?_⟩
    intro hpending
    apply hleft (hvlive (by simp))
    intro heq
    rw [heq] at hpending
    exact hpending rfl
  case covered =>
    intro w v hfreed hw
    rcases h.covered w v hfreed hw with ⟨hpoint, htype, hlt, hnext, hvlive⟩
    refine ⟨hpoint, htype, hlt, hnext, ?_⟩
    intro hpending
    apply hleft (hvlive (by simp))
    intro heq
    rw [heq] at hpending
    exact hpending rfl
  case mountpoint =>
    intro v w hw hfreed hv
    have hvlive : Live own s v := by
      cases hv with
      | inl hpending =>
        rw [← Option.some.inj hpending]
        exact hlive
      | inr hv => exact hright hv
    rcases h.mountpoint v w hw hfreed (Or.inr hvlive) with ⟨hhere, hattached⟩
    exact ⟨hhere, hpruned.attached_iff.mpr ⟨hattached, (h.not_listed hunused hfreed).2⟩⟩
  case rootvn =>
    intro v hv hfreed
    rcases h.rootvn v hv hfreed with ⟨rf, hrf, hrflive, hdata⟩
    refine ⟨rf, hrf, hleft hrflive ?_, hdata⟩
    intro heq
    rw [heq] at hrf
    exact hrf mp hmp
  case entry =>
    intro d n hn htype
    dsimp only at htype
    rw [htear.type] at htype
    apply h.entry d n (hpruned.mem_iff.mp hn).1 htype
  case vnode => apply h.vnode
  case live =>
    intro v hfreed
    apply hleft (h.live v hfreed) (h.not_listed hunused hfreed).1
  case vroot =>
    intro v hfreed
    dsimp only at hfreed ⊢
    rw [htear.out _ (h.not_listed hunused hfreed).2]
    apply h.vroot v hfreed

theorem Grove.uncover (h : Grove none own s) (hlists : Lists own s) (hlive : Live own s u)
    (hroot : Listed s u (s.vfss u).root) (hflag : (s.vfss u).rootfs = false)
    (hmp : (s.vfss u).mountpoint = .ref mp) (halive : (s.vnodes mp).freed = false)
    : Grove none own
        { s' with vnodes := Function.update s'.vnodes mp { s'.vnodes mp with mountedhere := none } } := by
  have htorn := Grove.torn hunused htear hgone h hlists hlive hmp
  have hdead : ¬ Live own s' u := Grove.not_live_torn hunused htear hgone hroot
  have hvfss : s'.vfss = s.vfss := by rw [htear.frame]
  have hvnodes : s'.vnodes = s.vnodes := by rw [htear.frame]
  rw [← hvfss] at hflag hmp
  rw [← hvnodes] at halive
  have hhere := (htorn.mountpoint u mp hmp halive (Or.inl rfl)).1
  apply htorn.setHere
  case hrootfs =>
    intro v hv _
    rcases htorn.rootfs v hv with ⟨_, hrootfs, _, hvlive⟩
    apply hvlive
    intro heq
    rw [← Option.some.inj heq, hflag] at hrootfs
    cases hrootfs
  case hcovered =>
    intro v hv
    cases hv
  case hother =>
    intro w v hne hfreed hw _
    rcases htorn.covered w v hfreed hw with ⟨hpoint, _, _, _, hvlive⟩
    apply hvlive
    intro heq
    rw [← Option.some.inj heq, hmp, Ptr.ref.injEq] at hpoint
    exact hne hpoint.symm
  case hmountpoint =>
    intro v w hw hfreed hv
    have hv := hv.resolve_left (by simp)
    rcases htorn.mountpoint v w hw hfreed (Or.inr hv) with ⟨hwhere, hattached⟩
    rw [if_neg]
    . exact ⟨hwhere, hattached⟩
    . intro heq
      rw [heq, hhere, Option.some.injEq] at hwhere
      rw [← hwhere] at hv
      exact hdead hv

end Uncover

section Mount

variable {own : Nat → Nat} {s : St} {v mp : Nat}

structure Unborn (own : Nat → Nat) (s : St) (v : Nat) : Prop where
  last : v + 1 = s.nextVfs
  own : ∀ n, n < s.nextNode → own n ≠ v
  mountpoint : ∀ mp, (s.vfss v).mountpoint ≠ .ref mp
  nodes : ∀ n, (s.vfss v).nodes ≠ .ref n

theorem Unborn.not_live (h : Unborn own s v) : ¬ Live own s v := by
  intro hv
  exact h.own _ hv.1.1 hv.2

theorem Lists.lt_of_live (h : Lists own s) {u : Nat} (hu : Live own s u) : u < s.nextVfs := by
  rw [← hu.2]
  apply h.lt _ hu.1.1

theorem Grove.setVfs (h : Grove none own s) {vfss : Nat → Vfs} {nextVfs : Nat} (hle : s.nextVfs ≤ nextVfs)
    (hlive : ∀ u, Live own { s with vfss, nextVfs } u → Live own s u)
    (hsame : ∀ u, Live own s u → (vfss u).mountpoint = (s.vfss u).mountpoint ∧
      (vfss u).root = (s.vfss u).root ∧ (vfss u).rootfs = (s.vfss u).rootfs)
    (hmountpoint : ∀ u w, (vfss u).mountpoint = .ref w → w < s.nextVnode)
    : Grove none own { s with vfss, nextVfs } := by
  have hkeep : ∀ u, Live own s u → Live own { s with vfss, nextVfs } u := by
    intro u hu
    unfold Live
    dsimp only
    rw [(hsame u hu).2.1]
    exact hu
  constructor
  case forest =>
    exact ⟨⟨h.forest.inv.linked, h.forest.inv.counted, hmountpoint, h.forest.inv.rootvn⟩, h.forest.wf,
      h.forest.back, h.forest.live⟩
  case beyond => apply h.beyond
  case roots =>
    intro r hr
    rcases h.roots r hr with ⟨hlt, hroot⟩
    have hrlive : Live own s (own r) := by
      unfold Live
      rw [hroot]
      exact ⟨hr, rfl⟩
    dsimp only
    rw [(hsame _ hrlive).2.1]
    exact ⟨by omega, hroot⟩
  case rootfs =>
    intro u hu
    rcases h.rootfs u hu with ⟨hlt, hflag, hnone, hulive⟩
    have hulive := hulive (by simp)
    dsimp only
    rw [(hsame u hulive).1, (hsame u hulive).2.2]
    exact ⟨by omega, hflag, hnone, fun _ => hkeep u hulive⟩
  case covered =>
    intro w u hfreed hw
    rcases h.covered w u hfreed hw with ⟨hpoint, htype, hlt, hnext, hulive⟩
    have hulive := hulive (by simp)
    dsimp only
    rw [(hsame u hulive).1]
    exact ⟨hpoint, htype, hlt, by omega, fun _ => hkeep u hulive⟩
  case mountpoint =>
    intro u w hw hfreed hu
    have hulive := hlive u (hu.resolve_left (by simp))
    dsimp only at hw
    rw [(hsame u hulive).1] at hw
    apply h.mountpoint u w hw hfreed (Or.inr hulive)
  case rootvn =>
    intro w hw hfreed
    rcases h.rootvn w hw hfreed with ⟨rf, hrf, hrflive, hdata⟩
    refine ⟨rf, ?_, hkeep rf hrflive, ?_⟩
    . dsimp only
      rw [(hsame rf hrflive).1]
      apply hrf
    . dsimp only
      rw [(hsame rf hrflive).2.1]
      apply hdata
  case entry => apply h.entry
  case vnode => apply h.vnode
  case live =>
    intro w hfreed
    apply hkeep _ (h.live w hfreed)
  case vroot => apply h.vroot

theorem Grove.newVfs (h : Grove none own s) (hlists : Lists own s) (rootfs : Bool)
    : Grove none own
        { s with
          vfss := Function.update s.vfss s.nextVfs
            { next := none, mountpoint := .wild, rootfs, root := 0, nodes := .null }
          nextVfs := s.nextVfs + 1 } := by
  apply h.setVfs (by omega)
  . intro u hu
    have hown := hlists.lt _ hu.1.1
    rw [hu.2] at hown
    unfold Live at hu ⊢
    dsimp only at hu
    rw [Function.update_of_ne (by omega)] at hu
    exact hu
  . intro u hu
    have := hlists.lt_of_live hu
    rw [Function.update_of_ne (by omega)]
    exact ⟨rfl, rfl, rfl⟩
  . intro u w hw
    by_cases hu : u = s.nextVfs
    . rw [hu, Function.update_self] at hw
      cases hw
    . rw [Function.update_of_ne hu] at hw
      apply h.forest.inv.mountpoint u w hw

theorem Grove.setMountpoint (h : Grove none own s) (hlists : Lists own s) (hv : Unborn own s v)
    (hfreed : (s.vnodes mp).freed = false) (htype : (s.vnodes mp).type = .VDIR)
    (hhere : (s.vnodes mp).mountedhere = none) (hattached : s.hier.Attached (s.vnodes mp).data)
    : Grove (some v) own
        { s with
          vfss := Function.update s.vfss v { s.vfss v with mountpoint := .ref mp }
          vnodes := Function.update s.vnodes mp { s.vnodes mp with mountedhere := some v } } := by
  have hne : ∀ u, Live own s u → u ≠ v := by
    intro u hu heq
    rw [heq] at hu
    exact hv.not_live hu
  have hset : Grove none own
      { s with vfss := Function.update s.vfss v { s.vfss v with mountpoint := .ref mp } } := by
    apply h.setVfs (Nat.le_refl _)
    . intro u hu
      unfold Live at hu ⊢
      dsimp only at hu
      by_cases huv : u = v
      . rw [huv, Function.update_self] at hu
        rw [huv]
        exact hu
      . rw [Function.update_of_ne huv] at hu
        exact hu
    . intro u hu
      rw [Function.update_of_ne (hne u hu)]
      exact ⟨rfl, rfl, rfl⟩
    . intro u w hw
      by_cases huv : u = v
      . rw [huv, Function.update_self, Ptr.ref.injEq] at hw
        rw [← hw]
        apply h.lt_of_alive hfreed
      . rw [Function.update_of_ne huv] at hw
        apply h.forest.inv.mountpoint u w hw
  have hlast := hv.last
  apply hset.setHere
  case hrootfs =>
    intro u hu _
    apply (hset.rootfs u hu).2.2.2 (by simp)
  case hcovered =>
    intro u hu
    have hlt := hlists.lt_of_live (h.live mp hfreed)
    have hmpne := hne _ (h.live mp hfreed)
    rw [← Option.some.inj hu]
    dsimp only
    rw [Function.update_self]
    exact ⟨rfl, htype, by omega, by omega, fun hpending => absurd rfl hpending⟩
  case hother =>
    intro w u _ hwfreed hw _
    apply (hset.covered w u hwfreed hw).2.2.2.2 (by simp)
  case hmountpoint =>
    intro u w hw hwfreed hu
    by_cases huv : u = v
    . dsimp only at hw
      rw [huv, Function.update_self, Ptr.ref.injEq] at hw
      rw [← hw, if_pos rfl, huv]
      exact ⟨rfl, hattached⟩
    . have hu := hu.resolve_left fun hpending => huv (Option.some.inj hpending).symm
      rcases hset.mountpoint u w hw hwfreed (Or.inr hu) with ⟨hwhere, hwattached⟩
      rw [if_neg]
      . exact ⟨hwhere, hwattached⟩
      . intro heq
        dsimp only at hwhere
        rw [heq, hhere] at hwhere
        cases hwhere

theorem Grove.setRootfs (h : Grove none own s) (hv : Unborn own s v)
    : Grove (some v) own
        { s with
          vfss := Function.update s.vfss v { s.vfss v with rootfs := true }
          rootfs := some v } := by
  have hsame : ∀ u, (Function.update s.vfss v { s.vfss v with rootfs := true } u).root = (s.vfss u).root ∧
      (Function.update s.vfss v { s.vfss v with rootfs := true } u).mountpoint = (s.vfss u).mountpoint := by
    intro u
    by_cases hu : u = v
    . rw [hu, Function.update_self]
      exact ⟨rfl, rfl⟩
    . rw [Function.update_of_ne hu]
      exact ⟨rfl, rfl⟩
  have hset : Grove none own
      { s with vfss := Function.update s.vfss v { s.vfss v with rootfs := true } } := by
    apply h.setVfs (Nat.le_refl _)
    . intro u hu
      unfold Live at hu ⊢
      dsimp only at hu
      rw [(hsame u).1] at hu
      exact hu
    . intro u hu
      rw [Function.update_of_ne]
      . exact ⟨rfl, rfl, rfl⟩
      . rintro rfl
        exact hv.not_live hu
    . intro u w hw
      rw [(hsame u).2] at hw
      apply h.forest.inv.mountpoint u w hw
  have hlast := hv.last
  constructor
  case forest =>
    exact ⟨⟨hset.forest.inv.linked, hset.forest.inv.counted, hset.forest.inv.mountpoint,
      hset.forest.inv.rootvn⟩, hset.forest.wf, hset.forest.back, hset.forest.live⟩
  case beyond => apply hset.beyond
  case roots => apply hset.roots
  case rootfs =>
    intro u hu
    rw [← Option.some.inj hu]
    dsimp only
    rw [(hsame v).2, Function.update_self]
    exact ⟨by omega, rfl, hv.mountpoint, fun hpending => absurd rfl hpending⟩
  case covered =>
    intro w u hfreed hw
    rcases hset.covered w u hfreed hw with ⟨hpoint, hdir, hvfs, hlt, hulive⟩
    exact ⟨hpoint, hdir, hvfs, hlt, fun _ => hulive (by simp)⟩
  case mountpoint =>
    intro u w hw hfreed hu
    apply hset.mountpoint u w hw hfreed
    cases hu with
    | inl hpending =>
      dsimp only at hw
      rw [(hsame u).2, ← Option.some.inj hpending] at hw
      exact absurd hw (hv.mountpoint w)
    | inr hu => exact Or.inr hu
  case rootvn => apply hset.rootvn
  case entry => apply hset.entry
  case vnode => apply hset.vnode
  case live => apply hset.live
  case vroot => apply hset.vroot

theorem Grove.setRootvn (h : Grove none own s) {rf : Nat} (hrf : s.rootfs = some rf)
    (hv : v < s.nextVnode) (hdata : (s.vnodes v).data = (s.vfss rf).root)
    : Grove none own { s with rootvn := some v } := by
  constructor
  case forest => apply h.forest.setRootvn hv
  case beyond => apply h.beyond
  case roots => apply h.roots
  case rootfs => apply h.rootfs
  case covered => apply h.covered
  case mountpoint => apply h.mountpoint
  case rootvn =>
    intro w hw _
    rw [← Option.some.inj hw]
    rcases h.rootfs rf hrf with ⟨_, _, hnone, hlive⟩
    exact ⟨rf, hnone, hlive (by simp), hdata⟩
  case entry => apply h.entry
  case vnode => apply h.vnode
  case live => apply h.live
  case vroot => apply h.vroot

theorem St.hier_addRoot_root (v r : Nat) : (s.addRoot v).hier.Root r ↔ r = s.nextNode ∨ s.hier.Root r := by
  rw [St.hier_addRoot]
  by_cases hr : r = s.nextNode
  . rw [hr]
    have hnext := s.hier.root_node_next
    rw [St.hier_next] at hnext
    unfold Hier.Root
    rw [hnext]
    simp [Hier.root, St.hier_next]
  . have hnode := Hier.root_node_of_ne (g := s.hier) (m := r) hr
    unfold Hier.Root
    rw [hnode]
    have hlt : r < s.hier.root.next ↔ r < s.hier.next := by
      change r < s.nextNode + 1 ↔ r < s.nextNode
      omega
    rw [hlt]
    simp [hr]

theorem St.addRoot_vfss {u : Nat} (hu : u ≠ v) : (s.addRoot v).vfss u = s.vfss u := by
  unfold St.addRoot
  dsimp only
  rw [Function.update_of_ne hu]

theorem St.addRoot_root : ((s.addRoot v).vfss v).root = s.nextNode := by
  unfold St.addRoot
  dsimp only
  rw [Function.update_self]

theorem St.addRoot_kept (v u : Nat) : ((s.addRoot v).vfss u).mountpoint = (s.vfss u).mountpoint ∧
    ((s.addRoot v).vfss u).rootfs = (s.vfss u).rootfs := by
  by_cases hu : u = v
  . unfold St.addRoot
    dsimp only
    rw [hu, Function.update_self]
    exact ⟨rfl, rfl⟩
  . rw [St.addRoot_vfss hu]
    exact ⟨rfl, rfl⟩

theorem St.addRoot_nodes {n : Nat} (hn : n < s.nextNode) : (s.addRoot v).nodes n = s.nodes n := by
  unfold St.addRoot
  dsimp only
  rw [Function.update_of_ne (by omega)]

theorem Live.of_addRoot : Live (Function.update own s.nextNode v) (s.addRoot v) v := by
  unfold Live
  rw [St.addRoot_root, St.hier_addRoot_root, Function.update_self]
  exact ⟨Or.inl rfl, rfl⟩

theorem live_addRoot_iff {u : Nat} (hu : u ≠ v)
    : Live (Function.update own s.nextNode v) (s.addRoot v) u ↔ Live own s u := by
  have hne : s.hier.Root (s.vfss u).root → (s.vfss u).root ≠ s.nextNode := fun hroot => Nat.ne_of_lt hroot.1
  unfold Live
  rw [St.addRoot_vfss hu, St.hier_addRoot_root]
  constructor
  . rintro ⟨hroot, hown⟩
    cases hroot with
    | inl heq =>
      rw [heq, Function.update_self] at hown
      exact absurd hown.symm hu
    | inr hroot =>
      rw [Function.update_of_ne (hne hroot)] at hown
      exact ⟨hroot, hown⟩
  . rintro ⟨hroot, hown⟩
    rw [Function.update_of_ne (hne hroot)]
    exact ⟨Or.inr hroot, hown⟩

theorem Live.addRoot {u : Nat} (hu : some v ≠ some u → Live own s u)
    : Live (Function.update own s.nextNode v) (s.addRoot v) u := by
  by_cases huv : u = v
  . rw [huv]
    apply Live.of_addRoot
  . apply (live_addRoot_iff huv).mpr
    apply hu
    intro heq
    exact huv (Option.some.inj heq).symm

theorem Grove.addRoot (h : Grove (some v) own s) (hv : v < s.nextVfs) (hown : ∀ n, n < s.nextNode → own n ≠ v)
    : Grove none (Function.update own s.nextNode v) (s.addRoot v) := by
  have hwf := h.forest.wf
  have hold : ∀ n, n < s.nextNode → Function.update own s.nextNode v n = own n := by
    intro n hn
    rw [Function.update_of_ne (by omega)]
  constructor
  case forest => apply h.forest.addRoot
  case beyond => apply h.beyond
  case roots =>
    intro r hr
    rw [St.hier_addRoot_root] at hr
    cases hr with
    | inl hr =>
      rw [hr, Function.update_self]
      exact ⟨hv, St.addRoot_root⟩
    | inr hr =>
      rw [hold r hr.1, St.addRoot_vfss (hown r hr.1)]
      apply h.roots r hr
  case rootfs =>
    intro u hu
    rcases h.rootfs u hu with ⟨hult, hflag, hnone, hulive⟩
    rw [(St.addRoot_kept v u).1, (St.addRoot_kept v u).2]
    exact ⟨hult, hflag, hnone, fun _ => Live.addRoot hulive⟩
  case covered =>
    intro w u hwfreed hw
    rcases h.covered w u hwfreed hw with ⟨hpoint, hdir, hvfs, hnext, hulive⟩
    rw [(St.addRoot_kept v u).1]
    exact ⟨hpoint, hdir, hvfs, hnext, fun _ => Live.addRoot hulive⟩
  case mountpoint =>
    intro u w hw hwfreed hu
    rw [(St.addRoot_kept v u).1] at hw
    have hwhere : (s.vnodes w).mountedhere = some u ∧ s.hier.Attached (s.vnodes w).data := by
      apply h.mountpoint u w hw hwfreed
      by_cases huv : u = v
      . rw [huv]
        exact Or.inl rfl
      . exact Or.inr ((live_addRoot_iff huv).mp (hu.resolve_left (by simp)))
    refine ⟨hwhere.1, ?_⟩
    rw [St.hier_addRoot]
    have hlt := hwhere.2.lt_next hwf
    apply (Hier.attached_root _ hwf).mpr hwhere.2
    change (s.vnodes w).data ≠ s.nextNode
    rw [St.hier_next] at hlt
    omega
  case rootvn =>
    intro w hw hwfreed
    rcases h.rootvn w hw hwfreed with ⟨rf, hrf, hrflive, hdata⟩
    have hne : rf ≠ v := by
      intro heq
      apply hown _ hrflive.1.1
      rw [hrflive.2, heq]
    refine ⟨rf, ?_, Live.addRoot fun _ => hrflive, ?_⟩
    . rw [(St.addRoot_kept v rf).1]
      apply hrf
    . rw [St.addRoot_vfss hne]
      apply hdata
  case entry =>
    intro d n hn hdir
    rw [St.hier_addRoot] at hn
    have hd : d ≠ s.nextNode := by
      intro heq
      have hnext := s.hier.root_node_next
      rw [St.hier_next] at hnext
      rw [heq, hnext] at hn
      cases hn
    rw [Hier.root_node_of_ne (by apply hd)] at hn
    have hnlt := hwf.bound d n hn
    rw [St.hier_next] at hnlt
    have hdlt : d < s.nextNode := by
      by_contra hge
      have hempty := hwf.beyond d (by rw [St.hier_next]; omega)
      rw [hempty] at hn
      cases hn
    rw [St.addRoot_nodes hnlt] at hdir
    rw [hold n hnlt, hold d hdlt]
    apply h.entry d n hn hdir
  case vnode =>
    intro w hwfreed hdir
    have hdata := hold _ (h.data_lt hwfreed)
    exact (h.vnode w hwfreed hdir).trans hdata.symm
  case live =>
    intro w hwfreed
    apply Live.addRoot
    intro _
    apply h.live w hwfreed
  case vroot =>
    intro w hwfreed
    have := h.vroot w hwfreed
    rw [← St.addRoot_nodes (v := v) (h.data_lt hwfreed)] at this
    apply this

end Mount

end Fs
end Franklin
