import Franklin.Fs.Lemmas.Returns

/-!
This module contains which of the calls of `vfs.c` that fail keep a reference. Every reference that a walk
takes is an entry in a list of vnodes, and giving it back erases the entry.
-/

namespace Franklin
namespace Fs

structure Balanced (st s : St) : Prop where
  old : ∀ v, v < st.nextVnode → (s.vnodes v).refcount ≤ (st.vnodes v).refcount
  new : ∀ v, st.nextVnode ≤ v → v < s.nextVnode → (s.vnodes v).freed = true

def Call.NoLeak (st : St) (fuel : Nat) (call : Call) : Prop :=
  ∀ e vn s, call.run fuel st = .ok (some e, vn) s → Balanced st s

/--
The walk ends behind a trailing `/` in `D`, while the vnode `V` (of a directory, a file or a link) that was found in
`D` is kept.
-/
def Strays (st : St) (path : Name) (fuel : Nat) : Prop :=
  ∃ D V, resolve st path fuel = some (.tail D V) ∧ D ≠ V

def St.mounting (s : St) : St :=
  after newVfs { s with vfslistLock := true }

def Call.Leaks (st : St) (fuel : Nat) : Call → Prop
  | vfs_mkdir path | vfs_rmdir path | vfs_unlink path => Strays st path fuel
  | vfs_symlink path _ => ∃ L name len, resolve st path fuel = some (.missing L name len)
  | vfs_link path target =>
    (∃ e, resolve st target fuel = some e ∧ e.vn = none) ∨
      (∃ D V, resolve st target fuel = some (.tail D V) ∧ D ≠ V ∧ D.type st = .VDIR) ∨
      ∃ e V s nd s', resolve st target fuel = some e ∧ e.vn = some V ∧ V.type st ≠ .VDIR ∧
        vfs_link.find target fuel st = .ok () s ∧ namei path fuel s = .ok (some .ENOTDIR, nd) s'
  | vfs_mount path fstype => st.vfslistLock = false ∧ strcmp ['r', 'a', 'm', 'f', 's'] fstype = 0 ∧
    ∃ D V, resolve st.mounting path fuel = some (.tail D V) ∧ D ≠ V ∧
      (D.type st ≠ .VDIR ∨ D.mountedhere st ≠ none)
  | vfs_unmount path => ∃ e V, resolve st path fuel = some e ∧ e.vn = some V ∧
    (V.vroot st = false ∨ (st.vfss (V.vfs st)).rootfs = true)
  | _ => False

structure Owes (st s : St) (held : List Nat) : Prop where
  le : st.nextVnode ≤ s.nextVnode
  old : ∀ v, v < st.nextVnode → (s.vnodes v).refcount ≤ (st.vnodes v).refcount + held.count v
  new : ∀ v, st.nextVnode ≤ v → v < s.nextVnode → (s.vnodes v).freed = false →
    1 ≤ (s.vnodes v).refcount ∧ (s.vnodes v).refcount ≤ held.count v

namespace Owes

variable {st s s' : St} {held : List Nat} {v w : Nat}

theorem balanced (h : Owes st s []) : Balanced st s where
  old v hv := by
    have := h.old v hv
    rw [List.count_nil] at this
    omega
  new v hle hlt := by
    by_contra hfreed
    have := h.new v hle hlt (by simpa using hfreed)
    rw [List.count_nil] at this
    omega

theorem congr (h : Owes st s held) (hvnodes : s'.vnodes = s.vnodes) (hnext : s'.nextVnode = s.nextVnode)
    : Owes st s' held where
  le := by
    rw [hnext]
    apply h.le
  old := by
    rw [hvnodes]
    apply h.old
  new := by
    rw [hvnodes, hnext]
    apply h.new

theorem wp_acquire (h : Owes st s held) (v : Nat)
    : wp (acquire v) (fun _ s' => Owes st s' held) (fun _ _ => True) s := by
  have hlock : ∀ w, (Function.update s.vnodes v { s.vnodes v with lock := true } w).refcount =
      (s.vnodes w).refcount ∧
      (Function.update s.vnodes v { s.vnodes v with lock := true } w).freed = (s.vnodes w).freed := by
    intro w
    by_cases hw : w = v
    . rw [hw, Function.update_self]
      exact ⟨rfl, rfl⟩
    . rw [Function.update_of_ne hw]
      exact ⟨rfl, rfl⟩
  unfold acquire
  rw [wp_bind, wp_getVnode]
  refine ⟨fun _ => trivial, ?_⟩
  intro _
  split
  . trivial
  . rw [wp_setVnode]
    constructor
    . apply h.le
    . intro w hw
      rw [(hlock w).1]
      apply h.old w hw
    . intro w hle hlt hfreed
      rw [(hlock w).2] at hfreed
      rw [(hlock w).1]
      apply h.new w hle hlt hfreed

theorem wp_close (h : Owes st s held) (v : Nat)
    : wp (vfs_close v) (fun _ s' => Owes st s' (held.erase v)) (fun _ _ => True) s := by
  cases hv : (s.vnodes v).freed with
  | true =>
    unfold vfs_close
    rw [wp_bind, wp_getVnode]
    exact ⟨fun _ => trivial, fun hfreed => absurd (hv.symm.trans hfreed) (by simp)⟩
  | false =>
    apply wp_mono (wp_vfs_close_iff (P := fun _ => True) (Q := fun _ s' => s' = s.close v) hv rfl)
    . intro _ s1 hs1
      subst hs1
      have hnext : (s.close v).nextVnode = s.nextVnode := by rw [Forest.close_same]
      constructor
      . rw [hnext]
        apply h.le
      . intro w hw
        have hold := h.old w hw
        rw [Forest.close_vnodes]
        by_cases heq : w = v
        . rw [if_pos heq, heq, List.count_erase_self]
          dsimp only
          rw [heq] at hold
          omega
        . rw [if_neg heq, List.count_erase_of_ne heq]
          apply hold
      . intro w hle hlt hfreed
        rw [hnext] at hlt
        rw [Forest.close_vnodes] at hfreed ⊢
        by_cases heq : w = v
        . rw [if_pos heq] at hfreed ⊢
          rw [heq, List.count_erase_self]
          dsimp only at hfreed ⊢
          rw [heq] at hle hlt
          have hnew := h.new v hle hlt hv
          simp only [hv, Bool.false_or, decide_eq_false_iff_not] at hfreed
          omega
        . rw [if_neg heq] at hfreed ⊢
          rw [List.count_erase_of_ne heq]
          apply h.new w hle hlt hfreed
    . simp

theorem wp_vputOpt (h : Owes st s held) (vn : Option Nat)
    : wp (vputOpt vn) (fun _ s' => Owes st s' (vn.elim held held.erase)) (fun _ _ => True) s := by
  cases vn with
  | none => apply h
  | some v => apply h.wp_close

theorem wp_closeBoth {α : Type} (h : Owes st s [w, v]) (a : α)
    : wp (do
          vput v
          vrele w
          pure a) (fun _ s' => Balanced st s') (fun _ _ => True) s := by
  apply wp_bind_of (h.wp_close v)
  intro _ s1 hs1
  apply wp_bind_of (hs1.wp_close w)
  intro _ s2 hs2
  have hnil : ([w, v].erase v).erase w = [] := by
    by_cases heq : w = v
    . simp [heq]
    . simp [heq]
  rw [hnil] at hs2
  exact hs2.balanced

theorem wp_closeRest {α : Type} (h : Owes st s [v]) (vn : Option Nat) (a : α)
    : wp (do
          vput v
          vputOpt vn
          pure a) (fun _ s' => Balanced st s') (fun _ _ => True) s := by
  apply wp_bind_of (h.wp_close v)
  intro _ s1 hs1
  apply wp_bind_of (hs1.wp_vputOpt vn)
  intro _ s2 hs2
  have hnil : vn.elim ([v].erase v) ([v].erase v).erase = [] := by
    cases vn with
    | none => simp
    | some w => simp
  rw [hnil] at hs2
  exact hs2.balanced

theorem wp_closeFailed (h : Owes st s [v]) (vn : Option Nat) (e : Errno)
    : wp (do
          vputOpt vn
          vput v
          pure (some e : Code)) (fun _ s' => Balanced st s') (fun _ _ => True) s := by
  apply wp_bind_of (h.wp_vputOpt vn)
  intro _ s1 hs1
  apply wp_bind_of (hs1.wp_close v)
  intro _ s2 hs2
  have hnil : (vn.elim [v] [v].erase).erase v = [] := by
    cases vn with
    | none => simp
    | some w =>
      by_cases heq : v = w
      . simp [heq]
      . simp [heq]
  rw [hnil] at hs2
  exact hs2.balanced

end Owes

section Walk

variable {st s : St} {held : List (Nat × Loc)} {vl nl : List Nat} {path : Name} {fuel : Nat}

theorem Walked.owes (h : Walked st s held vl nl) : Owes st s (held.map Prod.fst) := by
  constructor
  . apply h.next_le
  . intro v hv
    rw [h.old v hv, count_map_fst]
  . intro v hle hlt hfreed
    rw [count_map_fst]
    by_cases hrefs : refs held v = 0
    . rw [h.dropped v hle hlt hrefs] at hfreed
      cases hfreed
    . rcases refs_pos_iff.mp (by omega : 0 < refs held v) with ⟨L, hL⟩
      rcases h.heldNew v L hL hle with ⟨_, vfs, n, _, heq, _⟩
      rw [heq]
      simp only [freshVnode]
      omega

theorem Ended.exists_vn {s : St} {e : Exit} {V : Loc} {error : Code} {nd : Nameidata} (h : Ended st s e (error, nd))
    (hsym : nd.issymlink = false) (hV : e.vn = some V) : error = none ∧ ∃ vn, nd.vn = some vn := by
  cases h with
  | found d v D V name len h => exact ⟨rfl, v, rfl⟩
  | here d D name len h => exact ⟨rfl, d, rfl⟩
  | tail d v D V name len h => exact ⟨rfl, d, rfl⟩
  | link d v D V name len h => cases hsym
  | missing d D name len h => cases hV
  | notdir d D vn name len h => cases hV

theorem Ended.pair {s : St} {e : Exit} {nd : Nameidata} {vn : Nat} (h : Ended st s e (none, nd))
    (hsym : nd.issymlink = false) (hvn : nd.vn = some vn)
    : ∃ V D x X, e.vn = some V ∧ e.vdir = D ∧ Walked st s [(nd.vdir, D), (x, X)] [] [] ∧
        (vn, V) ∈ [(nd.vdir, D), (x, X)] := by
  cases h with
  | found d v D V name len h =>
    rw [← Option.some.inj hvn]
    exact ⟨V, D, v, V, rfl, rfl, h.perm (List.Perm.swap _ _ _), by simp⟩
  | here d D name len h =>
    rw [← Option.some.inj hvn]
    exact ⟨D, D, d, D, rfl, rfl, h, by simp⟩
  | tail d v D V name len h =>
    rw [← Option.some.inj hvn]
    exact ⟨D, D, v, V, rfl, rfl, h, by simp⟩
  | link d v D V name len h => cases hsym

structure Left (st s : St) (path : Name) (fuel : Nat) (r : Code × Nameidata) : Prop where
  code : r.1 = none ∨ r.1 = some .ENOENT ∨ r.1 = some .ENOTDIR
  failed : ∀ e, r.1 = some e → Owes st s [r.2.vdir]
  done : r.1 = none → ∃ vn, r.2.vn = some vn ∧ (¬ Strays st path fuel → Owes st s [vn, r.2.vdir])
  missing : r.1 = some .ENOENT → ∃ L name len, resolve st path fuel = some (.missing L name len)

theorem wp_namei_left (hinv : Inv st) (path : Name) (fuel : Nat)
    : wp (namei path fuel) (fun r s => Left st s path fuel r) (fun _ _ => True) st := by
  apply wp_mono (wp_namei hinv path fuel)
  . intro r s hs
    rcases hs with ⟨e, he, hended, hsym⟩
    cases hended with
    | found d v D V name len h => exact ⟨by simp, by simp, fun _ => ⟨v, rfl, fun _ => h.owes⟩, by simp⟩
    | here d D name len h => exact ⟨by simp, by simp, fun _ => ⟨d, rfl, fun _ => h.owes⟩, by simp⟩
    | tail d v D V name len h =>
      refine ⟨by simp, by simp, fun _ => ⟨d, rfl, ?_⟩, by simp⟩
      intro hnot
      have hsame : D = V := by
        by_contra hne
        exact hnot ⟨D, V, he, hne⟩
      subst hsame
      have hdv : d = v := h.eq_of_loc_eq List.mem_cons_self (List.mem_cons_of_mem _ List.mem_cons_self)
      rw [← hdv] at h
      apply h.owes
    | link d v D V name len h => simp at hsym
    | missing d D name len h => exact ⟨by simp, fun _ _ => h.owes, by simp, fun _ => ⟨D, name, len, he⟩⟩
    | notdir d D vn name len h => exact ⟨by simp, fun _ _ => h.owes, by simp, by simp⟩
  . simp

end Walk

section NoLeak

variable {st s : St} {fuel d v len : Nat} {path name target : Name} {type : VType} (hinv : Inv st)

theorem wp_ramfs_remove_failed
    : wp (ramfs_remove d v name) (fun r s' => r ≠ none → s' = s) (fun _ _ => True) s := by
  cases hd : (s.vnodes d).freed with
  | true =>
    unfold ramfs_remove
    rw [wp_bind, wp_getVnode]
    exact ⟨fun _ => trivial, fun hfreed => absurd (hd.symm.trans hfreed) (by simp)⟩
  | false =>
    cases hv : (s.vnodes v).freed with
    | true =>
      unfold ramfs_remove
      rw [wp_bind, wp_getVnode]
      refine ⟨fun _ => trivial, ?_⟩
      intro _
      rw [wp_bind, wp_getVnode]
      exact ⟨fun _ => trivial, fun hfreed => absurd (hv.symm.trans hfreed) (by simp)⟩
    | false =>
      apply wp_mono (wp_ramfs_remove (P := fun _ => True) (R := fun r s' => r ≠ none → s' = s) name hd hv
        (fun _ _ _ => trivial) (fun _ _ _ _ _ => trivial) (fun _ _ => rfl)
        (fun _ _ _ _ _ hne => absurd rfl hne))
      . intro r s1 hs1
        apply hs1
      . simp

theorem wp_ramfs_rmdir_failed
    : wp (ramfs_rmdir d v name len) (fun r s' => r ≠ none → s' = s) (fun _ _ => True) s := by
  cases hd : (s.vnodes d).freed with
  | true =>
    unfold ramfs_rmdir
    rw [wp_bind, wp_getVnode]
    exact ⟨fun _ => trivial, fun hfreed => absurd (hd.symm.trans hfreed) (by simp)⟩
  | false =>
    cases hv : (s.vnodes v).freed with
    | true =>
      unfold ramfs_rmdir
      rw [wp_bind, wp_getVnode]
      refine ⟨fun _ => trivial, ?_⟩
      intro _
      rw [wp_bind, wp_getVnode]
      exact ⟨fun _ => trivial, fun hfreed => absurd (hv.symm.trans hfreed) (by simp)⟩
    | false =>
      apply wp_mono (wp_ramfs_rmdir (P := fun _ => True) (R := fun r s' => r ≠ none → s' = s) name len hd hv
        (fun _ _ _ _ => trivial) (fun _ _ => trivial) (fun _ _ _ _ _ => trivial) (fun _ _ => rfl)
        (fun _ _ _ _ _ _ hne => absurd rfl hne))
      . intro r s1 hs1
        apply hs1
      . simp

theorem Owes.wp_closed {x : Prog Code} (h : Owes st s [v, d])
    (hx : wp x (fun r s' => r ≠ none → s' = s) (fun _ _ => True) s)
    : wp (do
          let error ← x
          vput d
          vrele v
          pure error) (fun r s' => ∀ e, r = some e → Balanced st s') (fun _ _ => True) s := by
  apply wp_bind_of hx
  intro error s1 hs1
  cases error with
  | none =>
    apply wp_bind_of wp_trivial
    intro _ s2 _
    apply wp_bind_of wp_trivial
    intro _ s3 _
    simp
  | some e =>
    rw [hs1 (by simp)]
    apply wp_mono (h.wp_closeBoth _)
    . intro r s2 hs2 e' _
      apply hs2
    . simp

include hinv

theorem wp_open_noLeak (create : Bool)
    : wp (vfs_open path type create fuel) (fun r s' => ∀ e, r.1 = some e → Balanced st s')
        (fun _ _ => True) st := by
  cases create with
  | false =>
    unfold vfs_open
    apply wp_bind_of (wp_namei_left hinv path fuel)
    intro r s1 hs1
    rcases r with ⟨error, nd⟩
    simp only [Bool.false_eq_true, if_false]
    cases error with
    | none =>
      apply wp_bind_of wp_trivial
      intro _ s2 _
      simp
    | some e =>
      apply wp_bind_of ((hs1.failed e rfl).wp_close nd.vdir)
      intro _ s2 hs2 _ _
      rw [List.erase_cons_head] at hs2
      exact hs2.balanced
  | true =>
    by_cases hmissing : ∃ L name len, resolve st path fuel = some (.missing L name len)
    . rcases hmissing with ⟨L, name, len, hresolve⟩
      apply wp_mono (wp_open_missing hinv hresolve)
      . intro r s1 hnone e he
        rw [hnone] at he
        cases he
      . simp
    . unfold vfs_open
      apply wp_bind_of (wp_namei_left hinv path fuel)
      intro r s1 hs1
      rcases r with ⟨error, nd⟩
      have herror : error ≠ some .ENOENT := fun h => hmissing (hs1.missing h)
      simp only [if_true]
      rw [if_pos herror]
      cases error with
      | none =>
        apply wp_bind_of wp_trivial
        intro _ s2 _
        apply wp_bind_of wp_trivial
        intro _ s3 _
        simp
      | some e =>
        apply wp_mono ((hs1.failed e rfl).wp_closeRest nd.vn _)
        . intro r s2 hs2 _ _
          exact hs2
        . simp

theorem wp_mkdir_noLeak (hstray : ¬ Strays st path fuel)
    : wp (vfs_mkdir path fuel) (fun r s' => ∀ e, r.1 = some e → Balanced st s')
        (fun _ _ => True) st := by
  by_cases hmissing : ∃ L name len, resolve st path fuel = some (.missing L name len)
  . rcases hmissing with ⟨L, name, len, hresolve⟩
    apply wp_mono (wp_mkdir_missing hinv hresolve)
    . intro r s1 hnone e he
      rw [hnone] at he
      cases he
    . simp
  . unfold vfs_mkdir
    split
    . intro _ _
      exact (Walked.init st).owes.balanced
    . apply wp_bind_of (wp_namei_left hinv path fuel)
      intro r s1 hs1
      rcases r with ⟨error, nd⟩
      have herror : error ≠ some .ENOENT := fun h => hmissing (hs1.missing h)
      dsimp only
      rw [if_pos herror]
      cases error with
      | none =>
        rcases hs1.done rfl with ⟨vn, hvn, hs1⟩
        dsimp only at hvn
        rw [hvn]
        apply wp_mono ((hs1 hstray).wp_closeBoth (some Errno.EEXIST, none))
        . intro r s2 hs2 _ _
          exact hs2
        . simp
      | some e =>
        apply wp_mono ((hs1.failed e rfl).wp_closeRest nd.vn _)
        . intro r s2 hs2 _ _
          exact hs2
        . simp

theorem wp_rmdir_noLeak (hstray : ¬ Strays st path fuel)
    : wp (vfs_rmdir path fuel) (fun r s' => ∀ e, r = some e → Balanced st s') (fun _ _ => True) st := by
  unfold vfs_rmdir
  apply wp_bind_of (wp_namei_left hinv path fuel)
  intro r s1 hs1
  rcases r with ⟨error, nd⟩
  cases error with
  | some e =>
    apply wp_mono ((hs1.failed e rfl).wp_closeFailed nd.vn e)
    . intro r s2 hs2 _ _
      exact hs2
    . simp
  | none =>
    rcases hs1.done rfl with ⟨vn, hvn, hs1⟩
    specialize hs1 hstray
    dsimp only at hvn hs1 ⊢
    rw [hvn]
    apply wp_bind_of (hs1.wp_acquire vn)
    intro _ s2 hs2
    have hclose : ∀ {s : St} (e : Errno), Owes st s [vn, nd.vdir] → wp (do
        vput nd.vdir
        vrele vn
        pure (some e : Code)) (fun r s' => ∀ e, r = some e → Balanced st s') (fun _ _ => True) s := by
      intro s e hs
      apply wp_mono (hs.wp_closeBoth _)
      . intro r s3 hs3 _ _
        exact hs3
      . simp
    split
    . apply hclose _ hs2
    . apply wp_bind_of (hs2.wp_acquire nd.vdir)
      intro _ s3 hs3
      rw [wp_bind, wp_getVnode]
      refine ⟨fun _ => trivial, ?_⟩
      intro _
      split
      . apply hclose _ hs3
      . split
        . apply hclose _ hs3
        . apply hs3.wp_closed
          apply wp_ramfs_rmdir_failed

theorem wp_unlink_noLeak (hstray : ¬ Strays st path fuel)
    : wp (vfs_unlink path fuel) (fun r s' => ∀ e, r = some e → Balanced st s') (fun _ _ => True) st := by
  unfold vfs_unlink
  apply wp_bind_of (wp_namei_left hinv path fuel)
  intro r s1 hs1
  rcases r with ⟨error, nd⟩
  cases error with
  | some e =>
    apply wp_mono ((hs1.failed e rfl).wp_closeFailed nd.vn e)
    . intro r s2 hs2 _ _
      exact hs2
    . simp
  | none =>
    rcases hs1.done rfl with ⟨vn, hvn, hs1⟩
    specialize hs1 hstray
    dsimp only at hvn hs1 ⊢
    rw [hvn]
    apply wp_bind_of (hs1.wp_acquire vn)
    intro _ s2 hs2
    have hremove : ∀ {s : St}, Owes st s [vn, nd.vdir] → wp (do
        let v ← getVnode vn
        let error ← if v.vroot then pure (some Errno.EBUSY) else ramfs_remove nd.vdir vn nd.name
        vput nd.vdir
        vrele vn
        pure error) (fun r s' => ∀ e, r = some e → Balanced st s') (fun _ _ => True) s := by
      intro s hs
      rw [wp_bind, wp_getVnode]
      refine ⟨fun _ => trivial, ?_⟩
      intro _
      split
      . apply wp_mono (hs.wp_closeBoth _)
        . intro r s3 hs3 _ _
          exact hs3
        . simp
      . apply hs.wp_closed
        apply wp_ramfs_remove_failed
    split
    . apply wp_bind_of (hs2.wp_acquire nd.vdir)
      intro _ s3 hs3
      apply hremove hs3
    . apply hremove hs2

theorem wp_symlink_noLeak (hmissing : ¬ ∃ L name len, resolve st path fuel = some (.missing L name len))
    : wp (vfs_symlink path target fuel) (fun r s' => ∀ e, r = some e → Balanced st s')
        (fun _ _ => True) st := by
  unfold vfs_symlink
  apply wp_bind_of (wp_namei_left hinv path fuel)
  intro r s1 hs1
  rcases r with ⟨error, nd⟩
  have herror : error ≠ some .ENOENT := fun h => hmissing (hs1.missing h)
  dsimp only
  rw [if_pos herror]
  cases error with
  | none =>
    apply wp_bind_of wp_trivial
    intro _ s2 _
    apply wp_bind_of wp_trivial
    intro _ s3 _
    simp
  | some e =>
    apply wp_mono ((hs1.failed e rfl).wp_closeRest nd.vn _)
    . intro r s2 hs2 _ _
      exact hs2
    . simp

theorem wp_link_noLeak (hleaks : ¬ Call.Leaks st fuel (.vfs_link path target))
    : wp (vfs_link path target fuel) (fun r s' => ∀ e, r = some e → Balanced st s') (fun _ _ => True)
        st := by
  unfold Call.Leaks at hleaks
  rw [not_or, not_or] at hleaks
  rcases hleaks with ⟨hfound, htail, hnotdir⟩
  unfold vfs_link
  apply wp_bind_run (wp_conj (wp_namei_left hinv target fuel) (wp_mono (wp_namei hinv target fuel) (fun _ _ h => h)
    (fun _ _ _ => trivial)))
  . simp
  . intro r s1 hrun hs1
    rcases hs1 with ⟨hleft, e, he, hended, hsym⟩
    rcases r with ⟨error, nd⟩
    cases error with
    | some e' =>
      exfalso
      apply hfound
      refine ⟨e, he, ?_⟩
      cases hended with
      | missing d D name len h => rfl
      | notdir d D vn name len h => rfl
    | none =>
      cases hvn : nd.vn with
      | none =>
        rcases hleft.done rfl with ⟨vn, hsome, _⟩
        dsimp only at hsome
        rw [hvn] at hsome
        cases hsome
      | some vn =>
        rcases hended.pair hsym hvn with ⟨V, D, x, X, hV, _, hw, hmem⟩
        rcases hleft.done rfl with ⟨vn', hvn', howes⟩
        have hsame : vn' = vn := Option.some.inj (hvn'.symm.trans hvn)
        subst hsame
        dsimp only
        rw [hvn]
        by_cases hdir : V.type st = .VDIR
        . have hstray : ¬ Strays st target fuel := by
            rintro ⟨D, W, hresolve, hne⟩
            rw [he, Option.some.injEq] at hresolve
            subst hresolve
            have hDV : D = V := Option.some.inj hV
            rw [← hDV] at hdir
            exact htail ⟨D, W, he, hne, hdir⟩
          have hacquire : wp (acquire vn')
              (fun _ s' => Walked st s' [(nd.vdir, D), (x, X)] [vn'] [] ∧ Owes st s' [vn', nd.vdir])
              (fun _ _ => True) s1 :=
            wp_conj (hw.wp_acquire hmem (by simp)) ((howes hstray).wp_acquire vn')
          apply wp_bind_of hacquire
          intro _ s2 hs2
          rw [wp_bind, hs2.1.wp_getVnode hmem, (hs2.1.members hmem).2.1, if_pos hdir]
          apply wp_mono (hs2.2.wp_closeBoth _)
          . intro r s3 hs3 _ _
            exact hs3
          . simp
        . apply wp_bind_run (hw.wp_acquire (E := fun _ _ => True) hmem (by simp))
          . simp
          . intro _ s2 hacquire hs2
            rw [wp_bind, hs2.wp_getVnode hmem, (hs2.members hmem).2.1, if_neg hdir]
            apply wp_bind_run (hs2.wp_vput hinv)
            . simp
            . intro _ s3 hvput hs3
              have hfind : vfs_link.find target fuel st = .ok () s3 := by
                unfold vfs_link.find
                rw [bind_of_ok hrun]
                dsimp only
                rw [hvn]
                dsimp only
                rw [bind_of_ok hacquire, hvput]
              apply wp_bind_run (wp_namei_left (hs3.inv hinv) path fuel)
              . simp
              . intro r s4 hname hs4
                rcases r with ⟨error, nd'⟩
                dsimp only
                split
                . next hne =>
                  intro e' he'
                  rcases hs4.code with hnone | hmissing | hfile
                  . rw [show error = none from hnone] at he'
                    cases he'
                  . exact absurd hmissing hne
                  . dsimp only at hfile
                    rw [hfile] at hname
                    exact absurd ⟨e, V, s3, nd', s4, he, hV, hdir, hfind, hname⟩ hnotdir
                . apply wp_bind_of wp_trivial
                  intro _ s5 _
                  apply wp_bind_of wp_ramfs_link_none
                  intro error s6 herror
                  apply wp_bind_of wp_trivial
                  intro _ s7 _
                  apply wp_bind_of wp_trivial
                  intro _ s8 _
                  apply wp_bind_of wp_trivial
                  intro _ s9 _
                  rw [herror]
                  simp

omit hinv in
theorem wp_finish_none : wp (vfs_mount.finish v) (fun r _ => r = none) (fun _ _ => True) s := by
  unfold vfs_mount.finish
  apply wp_bind_of wp_trivial
  intro _ s1 _
  apply wp_bind_of wp_trivial
  intro _ s2 _
  apply wp_bind_of wp_trivial
  intro _ s3 _
  have hmount : wp (ramfs_mount v) (fun r _ => r = none) (fun _ _ => True) s3 := by
    unfold ramfs_mount
    apply wp_bind_of wp_trivial
    intro _ s4 _
    apply wp_bind_of wp_trivial
    intro _ s5 _
    apply wp_bind_of wp_trivial
    intro _ s6 _
    apply wp_bind_of wp_trivial
    intro _ s7 _
    apply wp_bind_of wp_trivial
    intro _ s8 _
    rfl
  apply wp_bind_of hmount
  intro error s4 herror
  apply wp_bind_of wp_trivial
  intro _ s5 _
  exact herror

omit hinv in
theorem Owes.wp_fail2 {nd : Nameidata} {held : List Nat} (h : Owes st s held) (e : Errno)
    (hheld : held = [nd.vdir] ∨ ∃ vn, nd.vn = some vn ∧ held = [vn, nd.vdir])
    : wp (vfs_mount.fail2 e nd) (fun _ s' => Balanced st s') (fun _ _ => True) s := by
  unfold vfs_mount.fail2
  apply wp_bind_of (h.wp_vputOpt nd.vn)
  intro _ s1 hs1
  apply wp_bind_of (hs1.wp_close nd.vdir)
  intro _ s2 hs2
  have hnil : (nd.vn.elim held held.erase).erase nd.vdir = [] := by
    rcases hheld with rfl | ⟨vn, hvn, rfl⟩
    . cases nd.vn with
      | none => simp
      | some w =>
        by_cases heq : nd.vdir = w
        . simp [heq]
        . simp [heq]
    . rw [hvn]
      simp
  rw [hnil] at hs2
  rw [wp_bind, wp_releaseList, wp_pure]
  apply Owes.balanced
  exact hs2.congr rfl rfl

omit hinv in
theorem Loc.type_mounting (L : Loc) : L.type st.mounting = L.type st := by
  cases L <;> rfl

omit hinv in
theorem Loc.mountedhere_mounting (L : Loc) : L.mountedhere st.mounting = L.mountedhere st := by
  cases L <;> rfl

theorem Inv.mounting : Inv st.mounting where
  linked := hinv.linked
  counted := hinv.counted
  mountpoint := by
    intro vfs v hmp
    change (Function.update st.vfss st.nextVfs _ vfs).mountpoint = .ref v at hmp
    by_cases hvfs : vfs = st.nextVfs
    . rw [hvfs, Function.update_self] at hmp
      cases hmp
    . rw [Function.update_of_ne hvfs] at hmp
      apply hinv.mountpoint vfs v hmp
  rootvn := hinv.rootvn

theorem wp_mount_noLeak {fstype : Name} (hleaks : ¬ Call.Leaks st fuel (.vfs_mount path fstype))
    : wp (vfs_mount (some path) fstype fuel) (fun r s' => ∀ e, r = some e → Balanced st s')
        (fun _ _ => True) st := by
  unfold vfs_mount
  rw [wp_bind, wp_acquireList]
  refine ⟨fun _ => trivial, ?_⟩
  intro hlock
  split
  . rw [wp_bind, wp_releaseList, wp_pure]
    intro e _
    apply Owes.balanced
    exact (Walked.init st).owes.congr rfl rfl
  . next hfstype =>
    rw [not_not] at hfstype
    rw [wp_bind, wp_newVfs]
    change wp _ _ _ st.mounting
    dsimp only
    have hinv' : Inv st.mounting := hinv.mounting
    have hboth := wp_conj (wp_namei_left hinv' path fuel) (wp_mono (wp_namei hinv' path fuel)
      (fun _ _ h => h) (fun _ _ _ => trivial))
    apply wp_bind_of hboth
    intro r s1 hs1
    rcases hs1 with ⟨hleft, e, he, hended, hsym⟩
    have hfail : ∀ {s : St} {held : List Nat} {nd : Nameidata} (e : Errno), Owes st.mounting s held →
        (held = [nd.vdir] ∨ ∃ vn, nd.vn = some vn ∧ held = [vn, nd.vdir]) →
        wp (vfs_mount.fail2 e nd) (fun r s' => ∀ e, r = some e → Balanced st s') (fun _ _ => True) s := by
      intro s held nd e hs hheld
      apply wp_mono (hs.wp_fail2 e hheld)
      . intro r s2 hs2 _ _
        exact ⟨hs2.old, hs2.new⟩
      . simp
    rcases r with ⟨error, nd⟩
    cases error with
    | some e' => apply hfail e' (hleft.failed e' rfl) (Or.inl rfl)
    | none =>
      rcases hleft.done rfl with ⟨vn, hvn, howes⟩
      rcases hended.pair hsym hvn with ⟨V, D, x, X, hV, _, hw, hmem⟩
      dsimp only at hvn howes ⊢
      rw [hvn]
      have hacquire : wp (acquire vn)
          (fun _ s' => Walked st.mounting s' [(nd.vdir, D), (x, X)] [vn] [] ∧
            (¬ Strays st.mounting path fuel → Owes st.mounting s' [vn, nd.vdir]))
          (fun _ _ => True) s1 := by
        apply wp_conj (hw.wp_acquire hmem (by simp))
        by_cases hstray : Strays st.mounting path fuel
        . apply wp_mono wp_trivial
          . intro _ s2 _ hnot
            exact absurd hstray hnot
          . simp
        . apply wp_mono ((howes hstray).wp_acquire vn)
          . intro _ s2 hs2 _
            exact hs2
          . simp
      apply wp_bind_of hacquire
      intro _ s2 hs2
      rcases hs2 with ⟨hw2, howes2⟩
      rcases hw2.members hmem with ⟨_, htype, _, _, hhere⟩
      rw [Loc.type_mounting] at htype
      rw [Loc.mountedhere_mounting] at hhere
      have hstray : V.type st ≠ .VDIR ∨ V.mountedhere st ≠ none → ¬ Strays st.mounting path fuel := by
        rintro hbad ⟨D', W, hresolve, hne⟩
        apply hleaks
        rw [he, Option.some.injEq] at hresolve
        subst hresolve
        have hDV : D' = V := Option.some.inj hV
        rw [← hDV] at hbad
        exact ⟨hlock, hfstype, D', W, he, hne, hbad⟩
      rw [wp_bind, hw2.wp_getVnode hmem, htype, hhere]
      split
      . next hdir => apply hfail _ (howes2 (hstray (Or.inl hdir))) (Or.inr ⟨vn, hvn, rfl⟩)
      . split
        . next hcovered => apply hfail _ (howes2 (hstray (Or.inr hcovered))) (Or.inr ⟨vn, hvn, rfl⟩)
        . apply wp_bind_of wp_trivial
          intro _ s3 _
          apply wp_bind_of wp_trivial
          intro _ s4 _
          apply wp_bind_of wp_trivial
          intro _ s5 _
          apply wp_bind_of wp_trivial
          intro _ s6 _
          apply wp_mono wp_finish_none
          . intro r s7 hr e' he'
            rw [hr] at he'
            cases he'
          . simp

theorem wp_unmount_noLeak (hleaks : ¬ Call.Leaks st fuel (.vfs_unmount path))
    : wp (vfs_unmount path fuel) (fun r s' => ∀ e, r = some e → Balanced st s') (fun _ _ => True) st := by
  unfold vfs_unmount
  have hboth := wp_conj (wp_namei_left hinv path fuel) (wp_mono (wp_namei hinv path fuel)
    (fun _ _ h => h) (fun _ _ _ => trivial))
  apply wp_bind_of hboth
  intro r s1 hs1
  rcases hs1 with ⟨hleft, e, he, hended, hsym⟩
  rcases r with ⟨error, nd⟩
  cases error with
  | some e' =>
    apply wp_mono ((hleft.failed e' rfl).wp_closeFailed nd.vn e')
    . intro r s2 hs2 _ _
      exact hs2
    . simp
  | none =>
    rcases hleft.done rfl with ⟨vn, hvn, _⟩
    rcases hended.pair hsym hvn with ⟨V, D, x, X, hV, _, hw, hmem⟩
    rcases hw.members hmem with ⟨_, _, hvfs, hvroot, _⟩
    dsimp only at hvn ⊢
    rw [hvn]
    dsimp only
    rw [wp_bind, hw.wp_getVnode hmem, wp_bind, wp_getVfs, hvfs, hvroot, hw.same.vfss]
    apply wp_bind_of wp_trivial
    intro _ s2 _
    have hvrootV : V.vroot st = true := by
      by_contra hnot
      exact hleaks ⟨e, V, he, hV, Or.inl (by simpa using hnot)⟩
    have hflag : (st.vfss (V.vfs st)).rootfs = false := by
      by_contra hnot
      exact hleaks ⟨e, V, he, hV, Or.inr (by simpa using hnot)⟩
    rw [hvrootV, hflag]
    simp only [Bool.not_true, Bool.false_eq_true, if_false]
    apply wp_bind_of wp_trivial
    intro _ s3 _
    apply wp_bind_of wp_trivial
    intro _ s4 _
    cases (st.vfss (V.vfs st)).mountpoint with
    | null => trivial
    | wild => trivial
    | ref mp =>
      apply wp_bind_of wp_trivial
      intro _ s5 _
      apply wp_bind_of wp_trivial
      intro _ s6 _
      apply wp_bind_of wp_trivial
      intro _ s7 _
      apply wp_bind_of wp_trivial
      intro _ s8 _
      simp

end NoLeak

def Leaked (st s : St) (v : Nat) : Prop :=
  (v < st.nextVnode ∧ (st.vnodes v).refcount < (s.vnodes v).refcount) ∨
    (st.nextVnode ≤ v ∧ v < s.nextVnode ∧ (s.vnodes v).freed = false)

theorem Leaked.not_balanced {st s : St} {v : Nat} (h : Leaked st s v) : ¬ Balanced st s := by
  intro hbalanced
  rcases h with ⟨hlt, hcount⟩ | ⟨hle, hlt, hfreed⟩
  . have := hbalanced.old v hlt
    omega
  . rw [hbalanced.new v hle hlt] at hfreed
    cases hfreed

section Leak

variable {st s s' : St} {held : List (Nat × Loc)} {vl nl : List Nat} {d v w fuel : Nat} {D V : Loc}
  {path target : Name} {e : Exit}

theorem Walked.leaked (h : Walked st s held vl nl) (hv : (v, V) ∈ held) : Leaked st s v := by
  by_cases hlt : v < st.nextVnode
  . left
    refine ⟨hlt, ?_⟩
    rw [h.old v hlt]
    have := refs_pos_iff.mpr ⟨V, hv⟩
    dsimp only
    omega
  . exact Or.inr ⟨by omega, h.lt_nextVnode hv, h.freed_eq_false hv⟩

theorem Leaked.close (h : Leaked st s v) (hne : v ≠ w) : Leaked st (s.close w) v := by
  have hnext : (s.close w).nextVnode = s.nextVnode := by rw [Forest.close_same]
  unfold Leaked
  rw [Forest.close_vnodes, if_neg hne, hnext]
  apply h

theorem Leaked.walked (h : Leaked st s v) (hle : st.nextVnode ≤ s.nextVnode)
    (hw : Walked s s' held vl nl) : Leaked st s' v := by
  have hlt : v < s.nextVnode := by
    rcases h with ⟨hlt, _⟩ | ⟨_, hlt, _⟩
    . omega
    . apply hlt
  unfold Leaked
  rw [hw.old v hlt]
  dsimp only
  rcases h with ⟨hold, hcount⟩ | ⟨hnew, _, hfreed⟩
  . left
    omega
  . right
    have := hw.next_le
    exact ⟨hnew, by omega, hfreed⟩

theorem wp_namei_at (hinv : Inv st) (hquiet : Quiet st) (hresolve : resolve st path fuel = some e)
    : wp (namei path fuel) (fun r s => Ended st s e r ∧ r.2.issymlink = false) (fun _ _ => False) st := by
  apply wp_mono (wp_namei hinv path fuel)
  . intro r s1 hs1
    rcases hs1 with ⟨e', he', hended⟩
    rw [hresolve, Option.some.injEq] at he'
    rw [he']
    apply hended
  . intro e' s1 hs1
    have hnone := hs1.2 hquiet
    rw [hresolve] at hnone
    cases hnone

variable (hinv : Inv st) (hquiet : Quiet st)

include hinv hquiet

theorem wp_vput_quiet (h : Walked st s ((v, V) :: held) vl [])
    : wp (vput v) (fun _ s' => Walked st s' held (vl.filter (· ≠ v)) []) (fun _ _ => False) s := by
  apply wp_mono (h.wp_vput hinv)
  . intro _ s1 hs1
    exact hs1
  . intro e' s1 hs1
    exact hs1.2 hquiet

theorem Walked.wp_closeTail {α : Type} (h : Walked st s [(d, D), (v, V)] vl []) (hold : ∃ w, D = .old w)
    (hne : D ≠ V) (hsecure : Secure st (D.node st)) (a : α)
    : wp (do
          vput d
          vrele d
          pure a) (fun r s' => r = a ∧ Leaked st s' v) (fun _ _ => False) s := by
  rcases hold with ⟨w, rfl⟩
  have hd := h.old_held List.mem_cons_self
  subst hd
  have hmem : (v, V) ∈ [(d, Loc.old d), (v, V)] := List.mem_cons_of_mem _ List.mem_cons_self
  have hvd : v ≠ d := by
    intro heq
    subst heq
    exact hne (h.loc_eq List.mem_cons_self hmem)
  have hlt : d < st.nextVnode := by
    by_contra hge
    rcases h.heldNew d _ List.mem_cons_self (by omega) with ⟨_, vfs, n, hnew, _⟩
    cases hnew
  apply wp_bind_of (wp_vput_quiet hinv hquiet h)
  intro _ s1 hs1
  have hfreed : (s1.vnodes d).freed = false := by
    rw [hs1.old d hlt]
    exact (h.heldOld d _ List.mem_cons_self hlt).2.1
  have hdata : Secure st (s1.vnodes d).data := by
    rw [hs1.old d hlt]
    exact hsecure
  apply wp_bind_of (hs1.wp_close_secure hquiet hfreed hdata)
  intro _ s2 hs2
  refine ⟨rfl, ?_⟩
  rw [hs2.1]
  exact (hs1.leaked List.mem_cons_self).close hvd

end Leak

theorem Grown.inv {st : St} (h : Grown st) : Inv st := by
  rcases h with ⟨own, hown⟩
  exact hown.grove.forest.inv

theorem Grown.mounting {st : St} (h : Grown st) (hlock : st.vfslistLock = false) : Grown st.mounting := by
  rcases h with ⟨own, hown⟩
  have hlist := Settled.acquireList st hown
  rw [wp_acquireList] at hlist
  have hvfs := (hlist.2 hlock).1.wp_newVfs
  rw [wp_newVfs] at hvfs
  exact ⟨own, hvfs.1⟩

section Strays

variable {st s s' : St} {held : List (Nat × Loc)} {vl nl : List Nat} {d v w fuel : Nat} {D V : Loc}
  {path target : Name} {e : Exit} (hgrown : Grown st) (hquiet : Quiet st)

include hgrown hquiet

theorem wp_namei_strays (hstray : Strays st path fuel)
    : wp (namei path fuel) (fun r s => ∃ d D v V name len, r = (none, ⟨d, some d, name, len, false⟩) ∧
        Walked st s [(d, D), (v, V)] [] [] ∧ (∃ w, D = .old w) ∧ D ≠ V ∧ Secure st (D.node st) ∧
        resolve st path fuel = some (.tail D V)) (fun _ _ => False) st := by
  rcases hstray with ⟨D, V, hresolve, hne⟩
  rcases hgrown with ⟨own, hown⟩
  have hplaced := Placed.resolve hown.grove hresolve
  apply wp_mono (wp_namei_at hown.grove.forest.inv hquiet hresolve)
  . intro r s1 hs1
    rcases hs1 with ⟨hended, hsym⟩
    cases hended with
    | tail d v D V name len h =>
      cases hplaced with
      | tail hD hV =>
      refine ⟨d, D, v, V, name, len, rfl, h, ?_, hne, hD.secure hown.grove, hresolve⟩
      cases Resolve.namei_tail hresolve with
      | inl hold => apply hold
      | inr heq => exact absurd heq hne
  . intro e' s1 hs1
    exact hs1

theorem wp_mkdir_leaks (hstray : Strays st path fuel)
    : wp (vfs_mkdir path fuel) (fun r s' => r.1 ≠ none ∧ ∃ v, Leaked st s' v) (fun _ _ => False) st := by
  unfold vfs_mkdir
  split
  . next hnil =>
    rcases hstray with ⟨D, V, hresolve, _⟩
    subst hnil
    cases fuel <;> cases hresolve
  . apply wp_bind_of (wp_namei_strays hgrown hquiet hstray)
    intro r s1 hs1
    rcases hs1 with ⟨d, D, v, V, name, len, rfl, hw, hold, hne, hsecure, _⟩
    simp only [ne_eq, reduceCtorEq, not_false_eq_true, if_true]
    apply wp_mono (hw.wp_closeTail hgrown.inv hquiet hold hne hsecure (some Errno.EEXIST, none))
    . intro r s2 hs2
      rw [hs2.1]
      exact ⟨by simp, v, hs2.2⟩
    . intro e' s2 hs2
      exact hs2

theorem wp_rmdir_leaks (hstray : Strays st path fuel)
    : wp (vfs_rmdir path fuel) (fun r s' => r ≠ none ∧ ∃ v, Leaked st s' v) (fun _ _ => False) st := by
  unfold vfs_rmdir
  apply wp_bind_of (wp_namei_strays hgrown hquiet hstray)
  intro r s1 hs1
  rcases hs1 with ⟨d, D, v, V, name, len, rfl, hw, hold, hne, hsecure, _⟩
  dsimp only
  apply wp_bind_of (hw.wp_acquire List.mem_cons_self (by simp))
  intro _ s2 hs2
  rw [if_pos rfl]
  apply wp_mono (hs2.wp_closeTail hgrown.inv hquiet hold hne hsecure (some Errno.EINVAL))
  . intro r s3 hs3
    rw [hs3.1]
    exact ⟨by simp, v, hs3.2⟩
  . intro e' s3 hs3
    exact hs3

theorem wp_unlink_leaks (hstray : Strays st path fuel)
    : wp (vfs_unlink path fuel) (fun r s' => r ≠ none ∧ ∃ v, Leaked st s' v) (fun _ _ => False) st := by
  unfold vfs_unlink
  apply wp_bind_of (wp_namei_strays hgrown hquiet hstray)
  intro r s1 hs1
  rcases hs1 with ⟨d, D, v, V, name, len, rfl, hw, hold, hne, hsecure, _⟩
  dsimp only
  apply wp_bind_of (hw.wp_acquire List.mem_cons_self (by simp))
  intro _ s2 hs2
  have hclose : ∀ e : Errno, wp (do
      vput d
      vrele d
      pure (some e : Code)) (fun r s' => r ≠ none ∧ ∃ v, Leaked st s' v) (fun _ _ => False) s2 := by
    intro e
    apply wp_mono (hs2.wp_closeTail hgrown.inv hquiet hold hne hsecure (some e))
    . intro r s3 hs3
      rw [hs3.1]
      exact ⟨by simp, v, hs3.2⟩
    . intro e' s3 hs3
      exact hs3
  rw [if_neg (by simp), wp_bind, hs2.wp_getVnode List.mem_cons_self]
  split
  . apply hclose
  . -- the directory is its own parent for `ramfs_remove`
    unfold ramfs_remove
    rw [bind_assoc, wp_bind, hs2.wp_getVnode List.mem_cons_self, bind_assoc, wp_bind,
      hs2.wp_getVnode List.mem_cons_self]
    split
    . apply hclose
    . apply hclose

theorem wp_unmount_leaks (hleaks : Call.Leaks st fuel (.vfs_unmount path))
    : wp (vfs_unmount path fuel) (fun r s' => r ≠ none ∧ ∃ v, Leaked st s' v) (fun _ _ => False) st := by
  rcases hleaks with ⟨e, V, hresolve, hV, hcheck⟩
  unfold vfs_unmount
  apply wp_bind_of (wp_namei_at hgrown.inv hquiet hresolve)
  intro r s1 hs1
  rcases hs1 with ⟨hended, hsym⟩
  rcases r with ⟨error, nd⟩
  rcases hended.exists_vn hsym hV with ⟨rfl, vn, hvn⟩
  rcases hended.pair hsym hvn with ⟨V', D, x, X, hV', _, hw, hmem⟩
  rw [hV, Option.some.injEq] at hV'
  subst hV'
  have hfront : ∃ y Y, Walked st s1 [(vn, V), (y, Y)] [] [] := by
    simp only [List.mem_cons, List.not_mem_nil, or_false] at hmem
    rcases hmem with heq | heq
    . rw [← heq] at hw
      exact ⟨x, X, hw⟩
    . rw [← heq] at hw
      exact ⟨nd.vdir, D, hw.perm (List.Perm.swap _ _ _)⟩
  rcases hfront with ⟨y, Y, hw⟩
  rcases hw.members List.mem_cons_self with ⟨_, _, hvfs, hvroot, _⟩
  dsimp only
  rw [hvn]
  dsimp only
  rw [wp_bind, hw.wp_getVnode List.mem_cons_self, wp_bind, wp_getVfs, hvfs, hvroot, hw.same.vfss]
  apply wp_bind_of (hw.wp_acquire List.mem_cons_self (by simp))
  intro _ s2 hs2
  have hclose : wp (do
      vrele vn
      pure (some Errno.EINVAL : Code)) (fun r s' => r ≠ none ∧ ∃ v, Leaked st s' v) (fun _ _ => False)
      s2 := by
    apply wp_bind_of (wp_vput_quiet hgrown.inv hquiet hs2)
    intro _ s3 hs3
    exact ⟨by simp, y, hs3.leaked List.mem_cons_self⟩
  rcases hcheck with hroot | hflag
  . rw [hroot]
    apply hclose
  . rw [hflag]
    split
    . apply hclose
    . apply hclose

theorem wp_symlink_leaks (hnodes : ∀ v, (st.vfss v).nodes.Sound st) {L : Loc} {name : Name} {len : Nat}
    (hresolve : resolve st path fuel = some (.missing L name len))
    : wp (vfs_symlink path target fuel) (fun r s' => r ≠ none ∧ ∃ v, Leaked st s' v) (fun _ _ => False)
        st := by
  unfold vfs_symlink ramfs_symlink
  apply wp_bind_of (wp_namei_at hgrown.inv hquiet hresolve)
  intro r s1 hs1
  rcases hs1 with ⟨hended, _⟩
  cases hended with
  | missing d D name len hw =>
    simp only [ne_eq, not_true_eq_false, if_false, bind_assoc, pure_bind]
    apply wp_bind_of (hw.wp_acquire List.mem_cons_self (by simp))
    intro _ s2 hs2
    have hfreed := hs2.freed_eq_false List.mem_cons_self
    have hdir : (s2.vnodes d).type = .VDIR := by
      rw [(hs2.members List.mem_cons_self).2.1]
      exact (resolve_missing hresolve).type_eq
    apply wp_bind_of (wp_ramfs_alloc_file_ready (hs2.ready hquiet (hquiet.ready hnodes)) hfreed hdir (by simp))
    intro r s3 hs3
    rcases hs3 with ⟨_, hready, hs3⟩
    rcases s2.withFile_vnodes (s2.vnodes d).vfs (s2.vnodes d).data (strldup name len) .VLNK
      ((some target).getD []) with ⟨hnext, halive, _, hsame⟩
    rw [← hs3] at hnext halive hsame
    have hlt := hs2.lt_nextVnode List.mem_cons_self
    have hfreed3 : (s3.vnodes d).freed = false := by
      rw [hsame d (by omega), hfreed]
    have hsecure : Secure s3 (s3.vnodes d).data := by
      rcases hgrown with ⟨own, hown⟩
      cases Placed.resolve hown.grove hresolve with
      | missing hD _ =>
      have hnode := hD.attached.lt_next hown.grove.forest.wf
      rw [St.hier_next] at hnode
      rw [hsame d (by omega), (hs2.members List.mem_cons_self).1, hs3]
      apply St.withFile_secure (hs2.secure (hD.secure hown.grove))
      rw [hs2.same.nextNode]
      omega
    apply wp_bind_of (wp_close_eq hfreed3 (hready.ramlock _) hsecure)
    intro _ s4 hs4
    refine ⟨by simp, s2.nextVnode, ?_⟩
    have hleaked : Leaked st s3 s2.nextVnode := by
      right
      rw [hnext]
      exact ⟨hs2.next_le, Nat.lt_succ_self _, halive⟩
    rw [hs4]
    apply hleaked.close
    omega

theorem wp_link_leaks (hleaks : Call.Leaks st fuel (.vfs_link path target))
    : wp (vfs_link path target fuel) (fun r s' => r ≠ none ∧ ∃ v, Leaked st s' v) (fun _ _ => False)
        st := by
  unfold vfs_link
  rcases hleaks with ⟨e, hresolve, hnone⟩ | ⟨D, V, hresolve, hne, hdir⟩ |
    ⟨e, V, s, nd', s', hresolve, hV, hdir, hfind, hname⟩
  . apply wp_bind_of (wp_namei_at hgrown.inv hquiet hresolve)
    intro r s1 hs1
    rcases hs1 with ⟨hended, _⟩
    cases hended with
    | missing d D name len h => exact ⟨by simp, d, h.leaked List.mem_cons_self⟩
    | notdir d D vn name len h => exact ⟨by simp, d, h.leaked List.mem_cons_self⟩
    | found d v D V name len h => cases hnone
    | here d D name len h => cases hnone
    | tail d v D V name len h => cases hnone
    | link d v D V name len h => cases hnone
  . apply wp_bind_of (wp_namei_strays hgrown hquiet ⟨D, V, hresolve, hne⟩)
    intro r s1 hs1
    rcases hs1 with ⟨d, D', v, V', name, len, rfl, hw, hold, hne', hsecure, hresolve'⟩
    rw [hresolve, Option.some.injEq, Exit.tail.injEq] at hresolve'
    rw [hresolve'.1] at hdir
    dsimp only
    apply wp_bind_of (hw.wp_acquire List.mem_cons_self (by simp))
    intro _ s2 hs2
    rw [wp_bind, hs2.wp_getVnode List.mem_cons_self, (hs2.members List.mem_cons_self).2.1, if_pos hdir]
    apply wp_mono (hs2.wp_closeTail hgrown.inv hquiet hold hne' hsecure (some Errno.EISDIR))
    . intro r s3 hs3
      rw [hs3.1]
      exact ⟨by simp, v, hs3.2⟩
    . intro e' s3 hs3
      exact hs3
  . apply wp_bind_run (wp_namei_at hgrown.inv hquiet hresolve) (fun _ _ h => h)
    intro r s1 hrun hs1
    rcases hs1 with ⟨hended, hsym⟩
    rcases r with ⟨error, nd⟩
    rcases hended.exists_vn hsym hV with ⟨rfl, vn, hvn⟩
    rcases hended.pair hsym hvn with ⟨V', D, x, X, hV', _, hw, hmem⟩
    rw [hV, Option.some.injEq] at hV'
    subst hV'
    dsimp only
    rw [hvn]
    apply wp_bind_run (hw.wp_acquire (E := fun _ _ => False) hmem (by simp)) (fun _ _ h => h)
    intro _ s2 hacquire hs2
    rw [wp_bind, hs2.wp_getVnode hmem, (hs2.members hmem).2.1, if_neg hdir]
    apply wp_bind_run (wp_vput_quiet hgrown.inv hquiet hs2) (fun _ _ h => h)
    intro _ s3 hvput hs3
    have hsame : s3 = s := by
      have hfind' : vfs_link.find target fuel st = .ok () s3 := by
        unfold vfs_link.find
        rw [bind_of_ok hrun]
        dsimp only
        rw [hvn]
        dsimp only
        rw [bind_of_ok hacquire, hvput]
      rw [hfind, EStateM.Result.ok.injEq] at hfind'
      exact hfind'.2.symm
    subst hsame
    have hnamei := wp_namei (hs3.inv hgrown.inv) path fuel
    rw [wp_of_ok hname] at hnamei
    rcases hnamei with ⟨_, _, hended', _⟩
    rw [wp_bind, wp_of_ok hname]
    refine ⟨by simp, x, ?_⟩
    have hleaked : Leaked st s3 x := hs3.leaked List.mem_cons_self
    cases hended' with
    | notdir d D vn name len h => exact hleaked.walked hs3.next_le h

theorem wp_mount_leaks {fstype : Name} (hleaks : Call.Leaks st fuel (.vfs_mount path fstype))
    : wp (vfs_mount (some path) fstype fuel) (fun r s' => r ≠ none ∧ ∃ v, Leaked st s' v)
        (fun _ _ => False) st := by
  rcases hleaks with ⟨hlock, hfstype, D, V, hresolve, hne, hbad⟩
  have hquiet' : Quiet st.mounting := ⟨hquiet.lock, hquiet.refcount, hquiet.ramlock, hquiet.idle⟩
  unfold vfs_mount
  rw [wp_bind, wp_acquireList]
  refine ⟨by simp [hlock], ?_⟩
  intro _
  rw [if_neg (by simp [hfstype]), wp_bind, wp_newVfs]
  change wp _ _ _ st.mounting
  apply wp_bind_of (wp_namei_strays (hgrown.mounting hlock) hquiet' ⟨D, V, hresolve, hne⟩)
  intro r s1 hs1
  rcases hs1 with ⟨d, D', v, V', name, len, rfl, hw, hold, hne', hsecure, hresolve'⟩
  rw [hresolve, Option.some.injEq, Exit.tail.injEq] at hresolve'
  rw [hresolve'.1] at hbad
  dsimp only
  apply wp_bind_of (hw.wp_acquire List.mem_cons_self (by simp))
  intro _ s2 hs2
  have hfail : ∀ e : Errno, wp (vfs_mount.fail2 e ⟨d, some d, name, len, false⟩)
      (fun r s' => r ≠ none ∧ ∃ v, Leaked st s' v) (fun _ _ => False) s2 := by
    intro e
    have hclose := hs2.wp_closeTail hgrown.inv.mounting hquiet' hold hne' hsecure ()
    unfold vfs_mount.fail2
    rw [wp_bind] at hclose
    change wp (do
      vput d
      vput d
      releaseList
      pure (some e : Code)) _ _ s2
    apply wp_bind_of hclose
    intro _ s3 hs3
    rw [wp_bind] at hs3
    apply wp_bind_of hs3
    intro _ s4 hs4
    rw [wp_bind, wp_releaseList, wp_pure]
    exact ⟨by simp, v, hs4.2⟩
  rcases hs2.members List.mem_cons_self with ⟨_, htype, _, _, hhere⟩
  rw [Loc.type_mounting] at htype
  rw [Loc.mountedhere_mounting] at hhere
  rw [wp_bind, hs2.wp_getVnode List.mem_cons_self, htype, hhere]
  split
  . apply hfail
  . next hdir =>
    rw [not_not] at hdir
    rw [if_pos (hbad.resolve_left (by simp [hdir]))]
    apply hfail

end Strays

/--
The failures that keep a reference are the ones in `Leaks`. Only a call that nothing stops tells anything
about its references.
-/
theorem Call.leaks_iff {st : St} (hinv : Inv st) (fuel : Nat) (call : Call)
    : (¬ call.Leaks st fuel → call.NoLeak st fuel) ∧
        (Grown st → Quiet st → (∀ v, (st.vfss v).nodes.Sound st) → call.NoLeak st fuel →
          ¬ call.Leaks st fuel) := by
  constructor
  . intro hleaks
    have hcode : ∀ {x : Prog Code}, wp x (fun r s' => ∀ e, r = some e → Balanced st s') (fun _ _ => True) st →
        wp (do
          let error ← x
          pure (error, (none : Option Nat))) (fun r s' => ∀ e, r.1 = some e → Balanced st s')
          (fun _ _ => True) st := by
      intro x hx
      rw [wp_bind]
      apply hx
    have hrun : wp (call.run fuel) (fun r s' => ∀ e, r.1 = some e → Balanced st s') (fun _ _ => True) st := by
      cases call with
      | vfs_open path type create => apply wp_open_noLeak hinv
      | vfs_mkdir path => apply wp_mkdir_noLeak hinv hleaks
      | vfs_rmdir path => apply hcode (wp_rmdir_noLeak hinv hleaks)
      | vfs_unlink path => apply hcode (wp_unlink_noLeak hinv hleaks)
      | vfs_link path target => apply hcode (wp_link_noLeak hinv hleaks)
      | vfs_symlink path target => apply hcode (wp_symlink_noLeak hinv hleaks)
      | vfs_mount path fstype => apply hcode (wp_mount_noLeak hinv hleaks)
      | vfs_unmount path => apply hcode (wp_unmount_noLeak hinv hleaks)
      | vfs_close v =>
        unfold run
        apply wp_bind_of wp_trivial
        intro _ s1 _
        simp
    intro e vn s hok
    rw [wp_of_ok hok] at hrun
    apply hrun e rfl
  . intro hgrown hquiet hnodes hnoleak hleaks
    have hcode : ∀ {x : Prog Code}, wp x (fun r s' => r ≠ none ∧ ∃ v, Leaked st s' v) (fun _ _ => False) st →
        wp (do
          let error ← x
          pure (error, (none : Option Nat))) (fun r s' => r.1 ≠ none ∧ ∃ v, Leaked st s' v)
          (fun _ _ => False) st := by
      intro x hx
      rw [wp_bind]
      apply hx
    have hrun : wp (call.run fuel) (fun r s' => r.1 ≠ none ∧ ∃ v, Leaked st s' v) (fun _ _ => False) st := by
      cases call with
      | vfs_open path type create => exact hleaks.elim
      | vfs_mkdir path => apply wp_mkdir_leaks hgrown hquiet hleaks
      | vfs_rmdir path => apply hcode (wp_rmdir_leaks hgrown hquiet hleaks)
      | vfs_unlink path => apply hcode (wp_unlink_leaks hgrown hquiet hleaks)
      | vfs_link path target => apply hcode (wp_link_leaks hgrown hquiet hleaks)
      | vfs_symlink path target =>
        rcases hleaks with ⟨L, name, len, hresolve⟩
        apply hcode (wp_symlink_leaks hgrown hquiet hnodes hresolve)
      | vfs_mount path fstype => apply hcode (wp_mount_leaks hgrown hquiet hleaks)
      | vfs_unmount path => apply hcode (wp_unmount_leaks hgrown hquiet hleaks)
      | vfs_close v => exact hleaks.elim
    rcases ok_of_wp hrun with ⟨r, s, hok, hne, v, hv⟩
    rcases r with ⟨error, vn⟩
    rcases Option.ne_none_iff_exists.mp hne with ⟨e, he⟩
    dsimp only at he
    subst he
    exact hv.not_balanced (hnoleak e vn s hok)

theorem Call.leaks_iff_madeDir
    : Call.NoLeak madeDir 1 (.vfs_unlink "/a".toList) ∧ ¬ Call.NoLeak madeDir 1 (.vfs_unlink "/a/".toList) := by
  have hgrown : Grown madeDir := madeDir_reached.grown
  have hfound : resolve madeDir "/a".toList 1 = some (.found (.old 0) (.old 1)) := by decide +kernel
  have htail : resolve madeDir "/a/".toList 1 = some (.tail (.old 0) (.old 1)) := by decide +kernel
  have hnodes : ∀ v, (madeDir.vfss v).nodes.Sound madeDir := by
    intro v
    unfold madeDir
    rw [rootMounted_eq]
    match v with
    | 0 => decide +kernel
    | v + 1 => trivial
  constructor
  . apply (Call.leaks_iff hgrown.inv 1 _).1
    rintro ⟨D, V, hresolve, _⟩
    rw [hfound] at hresolve
    cases hresolve
  . intro hnoleak
    apply (Call.leaks_iff hgrown.inv 1 _).2 hgrown Quiet.madeDir hnodes hnoleak
    exact ⟨_, _, htail, by decide⟩

theorem Call.leaks_unmount_booted
    : ∃ s, (Call.vfs_unmount "/".toList).run 1 (booted zeroed) = .ok (some .EINVAL, none) s ∧
        ((booted zeroed).vnodes 0).refcount = 1 ∧ (s.vnodes 0).refcount = 2 ∧
        ¬ Call.NoLeak (booted zeroed) 1 (.vfs_unmount "/".toList) := by
  have hresult : result ((Call.vfs_unmount "/".toList).run 1) (booted zeroed) = some (some .EINVAL, none) := by
    decide +kernel
  have hrun := ok_of_result hresult
  have hafter : ((after ((Call.vfs_unmount "/".toList).run 1) (booted zeroed)).vnodes 0).refcount = 2 := by
    decide +kernel
  have hbefore : ((booted zeroed).vnodes 0).refcount = 1 := by decide +kernel
  refine ⟨_, hrun, hbefore, hafter, ?_⟩
  intro h
  have hbalanced := (h .EINVAL none _ hrun).old 0 (by decide +kernel)
  rw [hafter, hbefore] at hbalanced
  exact absurd hbalanced (by decide)

end Fs
end Franklin
