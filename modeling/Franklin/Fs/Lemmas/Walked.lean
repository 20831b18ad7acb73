import Franklin.Fs.Resolve

/-!
This module contains what a path walk does to the file system: it takes references, makes vnodes for
ramnodes that have none and gives all of this back in the end. Everything else stays as it is.
-/

namespace Franklin
namespace Fs

section Primitives

variable {α : Type} {E : Stop → St → Prop} {s : St}

@[simp]
theorem wp_getSt {Q : St → St → Prop} : wp getSt Q E s ↔ Q s s := by
  rfl

@[simp]
theorem wp_getNode {Q : RamNode → St → Prop} (n : Nat)
    : wp (getNode n) Q E s ↔ Q (s.nodes n) s := by
  rfl

@[simp]
theorem wp_getVfs {Q : Vfs → St → Prop} (vfs : Nat)
    : wp (getVfs vfs) Q E s ↔ Q (s.vfss vfs) s := by
  rfl

@[simp]
theorem wp_setVnode {Q : Unit → St → Prop} (v : Nat) (f : Vnode → Vnode)
    : wp (setVnode v f) Q E s ↔
        Q () { s with vnodes := Function.update s.vnodes v (f (s.vnodes v)) } := by
  rfl

@[simp]
theorem wp_setNode {Q : Unit → St → Prop} (n : Nat) (f : RamNode → RamNode)
    : wp (setNode n f) Q E s ↔
        Q () { s with nodes := Function.update s.nodes n (f (s.nodes n)) } := by
  rfl

@[simp]
theorem wp_setVfs {Q : Unit → St → Prop} (vfs : Nat) (f : Vfs → Vfs)
    : wp (setVfs vfs f) Q E s ↔
        Q () { s with vfss := Function.update s.vfss vfs (f (s.vfss vfs)) } := by
  rfl

theorem wp_deref {Q : Unit → St → Prop} {n : Nat}
    : wp (deref n) Q E s ↔
        ((s.nodes n).freed = true → E .fault s) ∧ ((s.nodes n).freed = false → Q () s) := by
  unfold deref
  rw [wp_bind, wp_getNode]
  cases (s.nodes n).freed <;> simp

theorem wp_deref_same {n : Nat} (h : (s.nodes n).freed = true → E .fault s)
    : wp (deref n) (fun _ s' => s' = s) E s := by
  rw [wp_deref]
  exact ⟨h, fun _ => rfl⟩

theorem wp_getVnode {Q : Vnode → St → Prop} {v : Nat}
    : wp (getVnode v) Q E s ↔
        ((s.vnodes v).freed = true → E .fault s) ∧
          ((s.vnodes v).freed = false → Q (s.vnodes v) s) := by
  unfold wp getVnode
  cases (s.vnodes v).freed <;> simp

end Primitives

section Free

variable {s : St} {v : Nat} {Q : Unit → St → Prop} {E : Stop → St → Prop}
  (hfreed : (s.vnodes v).freed = false)

include hfreed

theorem wp_acquire_free (hlock : (s.vnodes v).lock = false)
    : wp (acquire v) Q E s ↔
        Q () { s with vnodes := Function.update s.vnodes v { s.vnodes v with lock := true } } := by
  unfold acquire
  rw [wp_bind, wp_getVnode]
  simp [hfreed, hlock]

theorem wp_release_alive
    : wp (release v) Q E s ↔
        Q () { s with vnodes := Function.update s.vnodes v { s.vnodes v with lock := false } } := by
  unfold release
  rw [wp_bind, wp_getVnode]
  simp [hfreed]

theorem wp_vref_locked_alive (hmax : (s.vnodes v).refcount ≠ 2 ^ 31 - 1)
    : wp (vref_locked v) Q E s ↔
        Q () { s with
          vnodes := Function.update s.vnodes v
            { s.vnodes v with refcount := (s.vnodes v).refcount + 1 } } := by
  unfold vref_locked
  rw [wp_bind, wp_getVnode, if_neg hmax]
  simp [hfreed]

end Free

/--
The consistency of vnodes and ramnodes. A vnode that is not freed has a reference.
-/
structure Inv (st : St) : Prop where
  linked : ∀ n v, (st.nodes n).vnode = some v →
    v < st.nextVnode ∧ (st.vnodes v).data = n ∧ (st.vnodes v).freed = false ∧
      (st.vnodes v).type = (st.nodes n).type
  counted : ∀ v, v < st.nextVnode → (st.vnodes v).freed = false → 1 ≤ (st.vnodes v).refcount
  mountpoint : ∀ vfs v, (st.vfss vfs).mountpoint = .ref v → v < st.nextVnode
  rootvn : ∀ v, st.rootvn = some v → v < st.nextVnode

theorem Inv.memory {st : St} (h : Inv st) (junk : Junk) : Inv { st with junk } :=
  ⟨h.linked, h.counted, h.mountpoint, h.rootvn⟩

/--
No lock is held, no counter is at its limit, and a ramnode that has neither a vnode nor a link is freed.
-/
structure Quiet (st : St) : Prop where
  lock : ∀ v, v < st.nextVnode → (st.vnodes v).freed = false → (st.vnodes v).lock = false
  refcount : ∀ v, v < st.nextVnode → (st.vnodes v).refcount + 4 < 2 ^ 31 - 1
  ramlock : ∀ n, (st.nodes n).ramlock = false
  idle : ∀ n, (st.nodes n).vnode = none → (st.nodes n).linkcount = 0 → (st.nodes n).freed = true

def FlagsClear (st : St) : Prop :=
  ∀ n, st.junk.vroot n = false

/--
What another walk in the same state may read where it has not written: `FOLLOW` and the flags `VROOT` of new vnodes.
-/
structure Garbage where
  follow : Bool
  vroot : Nat → Bool

def St.withGarbage (st : St) (g : Garbage) : St :=
  { st with junk := { st.junk with follow := g.follow, vroot := g.vroot } }

/--
The flag `FOLLOW` of both walks is the same, and no vnode that one of them makes has the flag `VROOT` by accident.
-/
structure Clear (st : St) (g : Garbage) : Prop where
  follow : g.follow = st.junk.follow
  first : FlagsClear st
  second : ∀ n, g.vroot n = false

theorem St.withGarbage_eq {st : St} {g : Garbage} (hfollow : g.follow = st.junk.follow)
    (hvroot : ∀ n, g.vroot n = st.junk.vroot n) : st.withGarbage g = st := by
  have hvroot' : g.vroot = st.junk.vroot := funext hvroot
  unfold withGarbage
  rw [hfollow, hvroot']

theorem Clear.eq_of_junk {st s : St} {g : Garbage} (h : Clear st g) (hjunk : s.junk = st.junk)
    : s.withGarbage g = s := by
  apply St.withGarbage_eq
  . rw [hjunk, h.follow]
  . intro n
    rw [hjunk, h.first n, h.second n]

theorem Clear.eq {st : St} {g : Garbage} (h : Clear st g) : st.withGarbage g = st :=
  h.eq_of_junk rfl

/--
The pointer is NULL or refers to a ramnode that is not freed.
-/
def Ptr.Sound (st : St) : Ptr → Prop
  | null => True
  | ref n => (st.nodes n).freed = false
  | wild => False

instance (st : St) (p : Ptr) : Decidable (p.Sound st) := by
  cases p <;> unfold Ptr.Sound <;> infer_instance

def Secure (st : St) (n : Nat) : Prop :=
  (st.nodes n).freed = false ∧ 0 < (st.nodes n).linkcount

def RamNode.core (node : RamNode) : RamNode :=
  { node with vnode := none, ramlock := false, prev := .null, freed := false }

structure SameCore (st s : St) : Prop where
  nodes : ∀ n, (s.nodes n).core = (st.nodes n).core
  vfss : s.vfss = st.vfss
  nextNode : s.nextNode = st.nextNode
  nextVfs : s.nextVfs = st.nextVfs
  rootfs : s.rootfs = st.rootfs
  rootvn : s.rootvn = st.rootvn
  mountedlist : s.mountedlist = st.mountedlist
  vfslistLock : s.vfslistLock = st.vfslistLock
  junk : s.junk = st.junk

def refs (held : List (Nat × Loc)) (v : Nat) : Nat :=
  held.countP fun p => p.1 = v

def freshVnode (st : St) (vfs n : Nat) (refcount : Int) (lock : Bool) : Vnode :=
  { vfs
    mountedhere := none
    type := (st.nodes n).type
    refcount
    vroot := st.junk.vroot n || decide ((st.nodes n).type = .VDIR ∧ (st.nodes n).parent = n)
    lock
    data := n
    freed := false }

/--
A walk that started in `st` is in state `s`. It holds the references in `held` and the locks of the
vnodes in `vl` and of the ramnodes in `nl`.
-/
structure Walked (st s : St) (held : List (Nat × Loc)) (vl nl : List Nat) : Prop where
  same : SameCore st s
  next_le : st.nextVnode ≤ s.nextVnode
  old : ∀ v, v < st.nextVnode → s.vnodes v =
    { st.vnodes v with
      refcount := (st.vnodes v).refcount + refs held v
      lock := (st.vnodes v).lock || decide (v ∈ vl) }
  heldOld : ∀ v L, (v, L) ∈ held → v < st.nextVnode →
    L = .old v ∧ (st.vnodes v).freed = false ∧ (st.vnodes v).lock = false
  heldNew : ∀ v L, (v, L) ∈ held → st.nextVnode ≤ v → v < s.nextVnode ∧ ∃ vfs n, L = .new vfs n ∧
    s.vnodes v = freshVnode st vfs n (refs held v) (decide (v ∈ vl)) ∧
    (st.nodes n).vnode = none ∧ (s.nodes n).vnode = some v
  newLive : ∀ v vfs n, (v, .new vfs n) ∈ held → (st.nodes n).freed = false
  dropped : ∀ v, st.nextVnode ≤ v → v < s.nextVnode → refs held v = 0 → (s.vnodes v).freed = true
  node : ∀ n, (s.nodes n).vnode = (st.nodes n).vnode ∨
    (st.nodes n).vnode = none ∧ ∃ v vfs, (s.nodes n).vnode = some v ∧ st.nextVnode ≤ v ∧
      (v, .new vfs n) ∈ held
  vlOld : ∀ v, v ∈ vl → v < s.nextVnode ∧ (v < st.nextVnode → (st.vnodes v).lock = false)
  ramlock : ∀ n, (s.nodes n).ramlock = ((st.nodes n).ramlock || decide (n ∈ nl))
  nlOld : ∀ n, n ∈ nl → (st.nodes n).ramlock = false
  freed : ∀ n, (s.nodes n).freed = (st.nodes n).freed ∨
    (s.nodes n).freed = true ∧ (st.nodes n).linkcount = 0 ∧ (st.nodes n).vnode = none

def Kept (st s : St) : Prop :=
  ∀ v, v < st.nextVnode → (st.vnodes v).freed = false →
    (s.vnodes v).freed = false ∧ (st.vnodes v).refcount ≤ (s.vnodes v).refcount

/--
The call stops in a state in which nothing has been lost. `P` is what is known about the stop if the call
started in a quiet state.
-/
def Bad (st : St) (P : Prop) (_ : Stop) (s : St) : Prop :=
  Kept st s ∧ (Quiet st → P)

section Refs

variable {held held' : List (Nat × Loc)} {v w : Nat} {L : Loc}

theorem refs_cons : refs ((w, L) :: held) v = refs held v + if w = v then 1 else 0 := by
  simp [refs, List.countP_cons]

theorem refs_cons_self : refs ((v, L) :: held) v = refs held v + 1 := by
  simp [refs_cons]

theorem refs_cons_of_ne (h : w ≠ v) : refs ((w, L) :: held) v = refs held v := by
  simp [refs_cons, h]

theorem refs_pos_iff : 0 < refs held v ↔ ∃ L, (v, L) ∈ held := by
  unfold refs
  rw [List.countP_pos_iff]
  constructor
  . intro h
    rcases h with ⟨p, hp, heq⟩
    refine ⟨p.2, ?_⟩
    rw [decide_eq_true_iff] at heq
    rw [← heq]
    apply hp
  . intro h
    rcases h with ⟨L, hL⟩
    exact ⟨(v, L), hL, by simp⟩

theorem refs_le_length : refs held v ≤ held.length := by
  apply List.countP_le_length

theorem refs_perm (h : held.Perm held') : refs held v = refs held' v := by
  apply h.countP_eq

theorem count_map_fst (held : List (Nat × Loc)) (v : Nat) : (held.map Prod.fst).count v = refs held v := by
  unfold refs List.count
  rw [List.countP_map]
  apply List.countP_congr
  intro p _
  simp

end Refs

namespace SameCore

variable {st s : St} (h : SameCore st s) (n : Nat)

include h

theorem type_eq : (s.nodes n).type = (st.nodes n).type := by
  have := congrArg RamNode.type (h.nodes n)
  exact this

theorem dentry_eq : (s.nodes n).dentry = (st.nodes n).dentry := by
  have := congrArg RamNode.dentry (h.nodes n)
  exact this

theorem wild_eq : (s.nodes n).wild = (st.nodes n).wild := by
  have := congrArg RamNode.wild (h.nodes n)
  exact this

theorem linkcount_eq : (s.nodes n).linkcount = (st.nodes n).linkcount := by
  have := congrArg RamNode.linkcount (h.nodes n)
  exact this

theorem parent_eq : (s.nodes n).parent = (st.nodes n).parent := by
  have := congrArg RamNode.parent (h.nodes n)
  exact this

theorem link_eq : (s.nodes n).link = (st.nodes n).link := by
  have := congrArg RamNode.link (h.nodes n)
  exact this

theorem next_eq : (s.nodes n).next = (st.nodes n).next := by
  have := congrArg RamNode.next (h.nodes n)
  exact this

theorem setVnodes (vnodes : Nat → Vnode) : SameCore st { s with vnodes } :=
  ⟨h.nodes, h.vfss, h.nextNode, h.nextVfs, h.rootfs, h.rootvn, h.mountedlist, h.vfslistLock, h.junk⟩

end SameCore

namespace Walked

variable {st s : St} {held held' : List (Nat × Loc)} {vl nl : List Nat} {v : Nat} {L : Loc}
  {E : Stop → St → Prop}

theorem init (st : St) : Walked st st [] [] [] where
  same := by
    constructor
    . intro n
      rfl
    all_goals rfl
  next_le := Nat.le_refl _
  old := by simp [refs]
  heldOld := by simp
  heldNew := by simp
  newLive := by simp
  dropped := by
    intro v h1 h2
    omega
  node := by simp
  vlOld := by simp
  ramlock := by simp
  nlOld := by simp
  freed := by simp

theorem perm (h : Walked st s held vl nl) (hperm : held.Perm held') : Walked st s held' vl nl where
  same := h.same
  next_le := h.next_le
  old := by
    intro v hv
    rw [h.old v hv, refs_perm hperm]
  heldOld := by
    intro v L hL
    apply h.heldOld v L (hperm.mem_iff.mpr hL)
  heldNew := by
    intro v L hL hv
    rw [← refs_perm hperm]
    apply h.heldNew v L (hperm.mem_iff.mpr hL) hv
  newLive := by
    intro v vfs n hn
    apply h.newLive v vfs n (hperm.mem_iff.mpr hn)
  dropped := by
    intro v h1 h2 hrefs
    rw [← refs_perm hperm] at hrefs
    apply h.dropped v h1 h2 hrefs
  node := by
    intro n
    simp only [← hperm.mem_iff]
    apply h.node n
  vlOld := h.vlOld
  ramlock := h.ramlock
  nlOld := h.nlOld
  freed := h.freed

theorem kept (h : Walked st s held vl nl) : Kept st s := by
  intro v hv hfreed
  rw [h.old v hv]
  refine ⟨hfreed, ?_⟩
  dsimp only
  omega

theorem freed_eq_false (h : Walked st s held vl nl) (hv : (v, L) ∈ held)
    : (s.vnodes v).freed = false := by
  by_cases hlt : v < st.nextVnode
  . rw [h.old v hlt]
    exact (h.heldOld v L hv hlt).2.1
  . rcases h.heldNew v L hv (by omega) with ⟨_, vfs, n, _, heq, _⟩
    rw [heq]
    rfl

theorem lt_nextVnode (h : Walked st s held vl nl) (hv : (v, L) ∈ held) : v < s.nextVnode := by
  by_cases hlt : v < st.nextVnode
  . have := h.next_le
    omega
  . exact (h.heldNew v L hv (by omega)).1

theorem lock_eq (h : Walked st s held vl nl) (hv : (v, L) ∈ held)
    : (s.vnodes v).lock = decide (v ∈ vl) := by
  by_cases hlt : v < st.nextVnode
  . rw [h.old v hlt]
    simp [(h.heldOld v L hv hlt).2.2]
  . rcases h.heldNew v L hv (by omega) with ⟨_, vfs, n, _, heq, _⟩
    rw [heq]
    rfl

theorem loc_eq {L' : Loc} (h : Walked st s held vl nl) (hv : (v, L) ∈ held) (hv' : (v, L') ∈ held)
    : L = L' := by
  by_cases hlt : v < st.nextVnode
  . rw [(h.heldOld v L hv hlt).1, (h.heldOld v L' hv' hlt).1]
  . rcases h.heldNew v L hv (by omega) with ⟨_, vfs, n, hL, heq, _⟩
    rcases h.heldNew v L' hv' (by omega) with ⟨_, vfs', n', hL', heq', _⟩
    rw [heq] at heq'
    simp only [freshVnode, Vnode.mk.injEq] at heq'
    rw [hL, hL', heq'.1, heq'.2.2.2.2.2.2.1]

theorem old_held {x : Nat} (h : Walked st s held vl nl) (hv : (v, .old x) ∈ held) : v = x := by
  by_cases hlt : v < st.nextVnode
  . have := (h.heldOld v _ hv hlt).1
    rw [Loc.old.injEq] at this
    exact this.symm
  . rcases h.heldNew v _ hv (by omega) with ⟨_, vfs, n, hnew, _⟩
    cases hnew

theorem eq_of_loc_eq {w : Nat} (h : Walked st s held vl nl) (hv : (v, L) ∈ held) (hw : (w, L) ∈ held)
    : v = w := by
  cases L with
  | old x => rw [h.old_held hv, h.old_held hw]
  | new vfs n =>
    have hnew : ∀ {x : Nat}, (x, Loc.new vfs n) ∈ held → (s.nodes n).vnode = some x := by
      intro x hx
      by_cases hlt : x < st.nextVnode
      . have := (h.heldOld x _ hx hlt).1
        cases this
      . rcases h.heldNew x _ hx (by omega) with ⟨_, vfs', n', hL, _, _, hs⟩
        rw [Loc.new.injEq] at hL
        rw [hL.2, hs]
    have := (hnew hv).symm.trans (hnew hw)
    exact Option.some.inj this

theorem members (h : Walked st s held vl nl) (hv : (v, L) ∈ held)
    : (s.vnodes v).data = L.node st ∧ (s.vnodes v).type = L.type st ∧ (s.vnodes v).vfs = L.vfs st ∧
      (s.vnodes v).vroot = L.vroot st ∧ (s.vnodes v).mountedhere = L.mountedhere st := by
  by_cases hlt : v < st.nextVnode
  . rw [h.old v hlt, (h.heldOld v L hv hlt).1]
    exact ⟨rfl, rfl, rfl, rfl, rfl⟩
  . rcases h.heldNew v L hv (by omega) with ⟨_, vfs, n, hL, heq, _⟩
    rw [heq, hL]
    exact ⟨rfl, rfl, rfl, rfl, rfl⟩

theorem wp_getVnode (h : Walked st s held vl nl) (hv : (v, L) ∈ held) {Q : Vnode → St → Prop}
    : wp (getVnode v) Q E s ↔ Q (s.vnodes v) s := by
  rw [Fs.wp_getVnode]
  simp [h.freed_eq_false hv]

theorem setLock (h : Walked st s held vl nl)
    (hv : (∃ L, (v, L) ∈ held) ∨ v < st.nextVnode ∧ (st.vnodes v).lock = false) (b : Bool)
    {vl' : List Nat} (hvl : ∀ w, w ∈ vl' ↔ if w = v then b = true else w ∈ vl)
    : Walked st
        { s with vnodes := Function.update s.vnodes v { s.vnodes v with lock := b } } held vl' nl := by
  have hlock : v < st.nextVnode → (st.vnodes v).lock = false := by
    intro hlt
    cases hv with
    | inl hheld => exact (h.heldOld v hheld.choose hheld.choose_spec hlt).2.2
    | inr hold => exact hold.2
  constructor
  case same => apply h.same.setVnodes
  case next_le => apply h.next_le
  case old =>
    intro w hw
    dsimp only
    by_cases heq : w = v
    . subst heq
      rw [Function.update_self, h.old w hw]
      simp [hlock hw, hvl]
    . rw [Function.update_of_ne heq, h.old w hw]
      simp [hvl, heq]
  case heldOld => apply h.heldOld
  case heldNew =>
    intro w L' hw hle
    rcases h.heldNew w L' hw hle with ⟨hlt, vfs, n, hL, hvn, hst, hs⟩
    refine ⟨hlt, vfs, n, hL, ?_, hst, hs⟩
    dsimp only
    by_cases heq : w = v
    . subst heq
      rw [Function.update_self, hvn]
      simp [freshVnode, hvl]
    . rw [Function.update_of_ne heq, hvn]
      simp [hvl, heq]
  case newLive => apply h.newLive
  case dropped =>
    intro w h1 h2 hrefs
    dsimp only
    by_cases heq : w = v
    . subst heq
      cases hv with
      | inl hheld =>
        have := refs_pos_iff.mpr hheld
        omega
      | inr hold => omega
    . rw [Function.update_of_ne heq]
      apply h.dropped w h1 h2 hrefs
  case node => apply h.node
  case vlOld =>
    intro w hw
    by_cases heq : w = v
    . subst heq
      refine ⟨?_, hlock⟩
      cases hv with
      | inl hheld => apply h.lt_nextVnode hheld.choose_spec
      | inr hold =>
        have := h.next_le
        dsimp only
        omega
    . rw [hvl, if_neg heq] at hw
      apply h.vlOld w hw
  case ramlock => apply h.ramlock
  case nlOld => apply h.nlOld
  case freed => apply h.freed

theorem wp_acquire (h : Walked st s held vl nl) (hv : (v, L) ∈ held) (hvl : v ∉ vl)
    : wp (acquire v) (fun _ s' => Walked st s' held (v :: vl) nl) E s := by
  unfold acquire
  rw [wp_bind, h.wp_getVnode hv, h.lock_eq hv]
  simp only [hvl, decide_false, Bool.false_eq_true, if_false, wp_setVnode]
  apply h.setLock (Or.inl ⟨L, hv⟩)
  intro w
  by_cases heq : w = v <;> simp [heq]

theorem wp_release (h : Walked st s held vl nl) (hv : (v, L) ∈ held)
    : wp (release v) (fun _ s' => Walked st s' held (vl.filter (· ≠ v)) nl) E s := by
  unfold release
  rw [wp_bind, h.wp_getVnode hv, wp_setVnode]
  apply h.setLock (Or.inl ⟨L, hv⟩)
  intro w
  by_cases heq : w = v <;> simp [heq]

theorem addRef (h : Walked st s held vl nl)
    (hv : (v, L) ∈ held ∨ v < st.nextVnode ∧ L = .old v ∧ (st.vnodes v).freed = false ∧
      (st.vnodes v).lock = false)
    : Walked st
        { s with
          vnodes := Function.update s.vnodes v
            { s.vnodes v with refcount := (s.vnodes v).refcount + 1 } }
        ((v, L) :: held) vl nl := by
  constructor
  case same => apply h.same.setVnodes
  case next_le => apply h.next_le
  case old =>
    intro w hw
    dsimp only
    by_cases heq : w = v
    . subst heq
      rw [Function.update_self, h.old w hw, refs_cons_self]
      simp [Int.add_assoc]
    . rw [Function.update_of_ne heq, h.old w hw, refs_cons_of_ne (Ne.symm heq)]
  case heldOld =>
    intro w L' hw hlt
    cases List.mem_cons.mp hw with
    | inl heq =>
      rw [Prod.mk.injEq] at heq
      rcases heq with ⟨rfl, rfl⟩
      cases hv with
      | inl hheld => apply h.heldOld w L' hheld hlt
      | inr hold => exact hold.2
    | inr hmem => apply h.heldOld w L' hmem hlt
  case heldNew =>
    intro w L' hw hle
    have hmem : (w, L') ∈ held := by
      cases List.mem_cons.mp hw with
      | inl heq =>
        rw [Prod.mk.injEq] at heq
        rcases heq with ⟨rfl, rfl⟩
        cases hv with
        | inl hheld => apply hheld
        | inr hold => omega
      | inr hmem => apply hmem
    rcases h.heldNew w L' hmem hle with ⟨hlt, vfs, n, hL, hvn, hst, hs⟩
    refine ⟨hlt, vfs, n, hL, ?_, hst, hs⟩
    dsimp only
    by_cases heq : w = v
    . subst heq
      rw [Function.update_self, hvn, refs_cons_self]
      simp [freshVnode]
    . rw [Function.update_of_ne heq, hvn, refs_cons_of_ne (Ne.symm heq)]
  case newLive =>
    intro w vfs n hw
    cases List.mem_cons.mp hw with
    | inr hmem => apply h.newLive w vfs n hmem
    | inl heq =>
      rw [Prod.mk.injEq] at heq
      rcases heq with ⟨rfl, rfl⟩
      cases hv with
      | inl hheld => apply h.newLive w vfs n hheld
      | inr hold => cases hold.2.1
  case dropped =>
    intro w h1 h2 hrefs
    rw [refs_cons] at hrefs
    have hne : w ≠ v := by
      intro heq
      rw [if_pos heq.symm] at hrefs
      omega
    dsimp only
    rw [Function.update_of_ne hne]
    apply h.dropped w h1 h2
    omega
  case node =>
    intro n
    cases h.node n with
    | inl heq => exact Or.inl heq
    | inr hnew =>
      rcases hnew with ⟨hnone, w, vfs, hw, hle, hmem⟩
      exact Or.inr ⟨hnone, w, vfs, hw, hle, List.mem_cons_of_mem _ hmem⟩
  case vlOld => apply h.vlOld
  case ramlock => apply h.ramlock
  case nlOld => apply h.nlOld
  case freed => apply h.freed

theorem refcount_ne_max (h : Walked st s held vl nl) (hq : Quiet st) (hlen : held.length ≤ 3)
    (hv : (v, L) ∈ held ∨ v < st.nextVnode) : (s.vnodes v).refcount ≠ 2 ^ 31 - 1 := by
  have hrefs : refs held v ≤ held.length := refs_le_length
  by_cases hlt : v < st.nextVnode
  . have := hq.refcount v hlt
    rw [h.old v hlt]
    dsimp only
    omega
  . cases hv with
    | inl hheld =>
      rcases h.heldNew v L hheld (by omega) with ⟨_, vfs, n, _, hvn, _⟩
      rw [hvn]
      simp only [freshVnode]
      omega
    | inr hold => contradiction

theorem wp_vref_locked (h : Walked st s held vl nl)
    (hv : (v, L) ∈ held ∨ v < st.nextVnode ∧ L = .old v ∧ (st.vnodes v).freed = false ∧
      (st.vnodes v).lock = false)
    (hlen : held.length ≤ 3)
    : wp (vref_locked v) (fun _ s' => Walked st s' ((v, L) :: held) vl nl) (Bad st False) s := by
  have hfreed : (s.vnodes v).freed = false := by
    cases hv with
    | inl hheld => apply h.freed_eq_false hheld
    | inr hold =>
      rw [h.old v hold.1]
      apply hold.2.2.1
  unfold vref_locked
  rw [wp_bind, Fs.wp_getVnode]
  refine ⟨by simp [hfreed], ?_⟩
  intro _
  split
  . next hmax =>
    rw [wp_throw]
    refine ⟨h.kept, ?_⟩
    intro hq
    apply h.refcount_ne_max hq hlen _ hmax (L := L)
    cases hv with
    | inl hheld => exact Or.inl hheld
    | inr hold => exact Or.inr hold.1
  . rw [wp_setVnode]
    apply h.addRef hv

theorem wp_acquire_old (h : Walked st s held vl nl) (hv : v < st.nextVnode)
    (hfreed : (st.vnodes v).freed = false) (hvl : v ∉ vl)
    : wp (acquire v) (fun _ s' => Walked st s' held (v :: vl) nl ∧ (st.vnodes v).lock = false)
        (Bad st False) s := by
  unfold acquire
  rw [wp_bind, Fs.wp_getVnode, h.old v hv]
  refine ⟨by simp [hfreed], ?_⟩
  intro _
  split
  . next hlock =>
    rw [wp_throw]
    refine ⟨h.kept, ?_⟩
    intro hq
    simp [hq.lock v hv hfreed, hvl] at hlock
  . next hlock =>
    simp only [Bool.or_eq_true, not_or, Bool.not_eq_true] at hlock
    rw [wp_setVnode]
    refine ⟨?_, hlock.1⟩
    apply h.setLock (Or.inr ⟨hv, hlock.1⟩)
    intro w
    by_cases heq : w = v <;> simp [heq]

theorem filter_ne_of_not_mem {l : List Nat} {a : Nat} (h : a ∉ l) : (a :: l).filter (· ≠ a) = l := by
  rw [List.filter_cons_of_neg (by simp), List.filter_eq_self]
  intro b hb
  have hne : b ≠ a := by
    intro heq
    rw [heq] at hb
    contradiction
  simpa using hne

theorem wp_acquire_any (h : Walked st s held vl nl)
    (hv : (v, L) ∈ held ∨ v < st.nextVnode ∧ L = .old v ∧ (st.vnodes v).freed = false)
    (hvl : v ∉ vl)
    : wp (acquire v)
        (fun _ s' => Walked st s' held (v :: vl) nl ∧ ((v, L) ∈ held ∨ v < st.nextVnode ∧ L = .old v ∧
          (st.vnodes v).freed = false ∧ (st.vnodes v).lock = false)) (Bad st False) s := by
  cases hv with
  | inl hheld =>
    apply wp_mono (h.wp_acquire hheld hvl)
    . intro _ s' hs'
      exact ⟨hs', Or.inl hheld⟩
    . intro e s' he
      apply he
  | inr hold =>
    apply wp_mono (h.wp_acquire_old hold.1 hold.2.2 hvl)
    . intro _ s' hs'
      exact ⟨hs'.1, Or.inr ⟨hold.1, hold.2.1, hold.2.2, hs'.2⟩⟩
    . intro e s' he
      apply he

theorem wp_vref (h : Walked st s held vl nl)
    (hv : (v, L) ∈ held ∨ v < st.nextVnode ∧ L = .old v ∧ (st.vnodes v).freed = false)
    (hvl : v ∉ vl) (hlen : held.length ≤ 3)
    : wp (vref v) (fun _ s' => Walked st s' ((v, L) :: held) vl nl) (Bad st False) s := by
  unfold vref
  apply wp_bind_of (h.wp_acquire_any hv hvl)
  intro _ s1 hs1
  apply wp_bind_of (hs1.1.wp_vref_locked hs1.2 hlen)
  intro _ s2 hs2
  have := hs2.wp_release (E := Bad st False) List.mem_cons_self
  rwa [filter_ne_of_not_mem hvl] at this

theorem setNodes (h : Walked st s held vl nl) {nodes : Nat → RamNode} {nl' : List Nat}
    (hcore : ∀ n, (nodes n).core = (s.nodes n).core)
    (hvnode : ∀ n, (nodes n).vnode = (s.nodes n).vnode)
    (hlock : ∀ n, (nodes n).ramlock = ((st.nodes n).ramlock || decide (n ∈ nl')))
    (hnl : ∀ n, n ∈ nl' → (st.nodes n).ramlock = false)
    (hfreed : ∀ n, (nodes n).freed = (s.nodes n).freed)
    : Walked st { s with nodes } held vl nl' := by
  constructor
  case same =>
    refine ⟨?_, h.same.vfss, h.same.nextNode, h.same.nextVfs, h.same.rootfs, h.same.rootvn,
      h.same.mountedlist, h.same.vfslistLock, h.same.junk⟩
    intro n
    rw [← h.same.nodes n]
    apply hcore
  case next_le => apply h.next_le
  case old => apply h.old
  case heldOld => apply h.heldOld
  case heldNew =>
    intro w L' hw hle
    rcases h.heldNew w L' hw hle with ⟨hlt, vfs, n, hL, hvn, hst, hs⟩
    refine ⟨hlt, vfs, n, hL, hvn, hst, ?_⟩
    rw [← hs]
    apply hvnode
  case newLive => apply h.newLive
  case dropped => apply h.dropped
  case node =>
    intro n
    dsimp only
    rw [hvnode]
    apply h.node n
  case vlOld => apply h.vlOld
  case ramlock => apply hlock
  case nlOld => apply hnl
  case freed =>
    intro n
    dsimp only
    rw [hfreed]
    apply h.freed n

theorem wp_deref (h : Walked st s held vl nl) (n : Nat)
    : wp (deref n) (fun _ s' => s' = s ∧ (st.nodes n).freed = false) (Bad st ((st.nodes n).freed = true)) s := by
  rw [Fs.wp_deref]
  constructor
  . intro hfreed
    refine ⟨h.kept, ?_⟩
    intro hq
    cases h.freed n with
    | inl heq => rw [← heq, hfreed]
    | inr hunlinked => exact hq.idle n hunlinked.2.2 hunlinked.2.1
  . intro hfreed
    refine ⟨rfl, ?_⟩
    cases h.freed n with
    | inl heq => rw [← heq, hfreed]
    | inr hunlinked =>
      rw [hfreed] at hunlinked
      cases hunlinked.1

theorem wp_acquireNode (h : Walked st s held vl nl) (n : Nat)
    : wp (acquireNode n)
        (fun _ s' => Walked st s' held vl (n :: nl) ∧ n ∉ nl ∧
          (s'.nodes n).vnode = (s.nodes n).vnode)
        (Bad st (n ∈ nl)) s := by
  unfold acquireNode
  rw [wp_bind, wp_getNode, h.ramlock n]
  split
  . next hlock =>
    rw [wp_throw]
    refine ⟨h.kept, ?_⟩
    intro hq
    simpa [hq.ramlock n] using hlock
  . next hlock =>
    simp only [Bool.or_eq_true, not_or, Bool.not_eq_true, decide_eq_false_iff_not] at hlock
    rw [wp_setNode]
    refine ⟨?_, hlock.2, by simp⟩
    apply h.setNodes
    . intro m
      by_cases heq : m = n
      . subst heq
        rw [Function.update_self]
        rfl
      . rw [Function.update_of_ne heq]
    . intro m
      by_cases heq : m = n
      . subst heq
        rw [Function.update_self]
      . rw [Function.update_of_ne heq]
    . intro m
      by_cases heq : m = n
      . subst heq
        rw [Function.update_self]
        simp
      . rw [Function.update_of_ne heq, h.ramlock m]
        simp [heq]
    . intro m hm
      cases List.mem_cons.mp hm with
      | inl heq =>
        rw [heq]
        apply hlock.1
      | inr hmem => apply h.nlOld m hmem
    . intro m
      by_cases heq : m = n
      . subst heq
        rw [Function.update_self]
      . rw [Function.update_of_ne heq]

theorem wp_releaseNode (h : Walked st s held vl nl) {n : Nat} (hn : n ∈ nl)
    : wp (releaseNode n)
        (fun _ s' => Walked st s' held vl (nl.filter (· ≠ n)) ∧
          ∀ m, (s'.nodes m).vnode = (s.nodes m).vnode) E s := by
  unfold releaseNode
  rw [wp_setNode]
  constructor
  . apply h.setNodes
    . intro m
      by_cases heq : m = n
      . subst heq
        rw [Function.update_self]
        rfl
      . rw [Function.update_of_ne heq]
    . intro m
      by_cases heq : m = n
      . subst heq
        rw [Function.update_self]
      . rw [Function.update_of_ne heq]
    . intro m
      by_cases heq : m = n
      . subst heq
        rw [Function.update_self, h.nlOld m hn]
        simp
      . rw [Function.update_of_ne heq, h.ramlock m]
        simp [heq]
    . intro m hm
      apply h.nlOld m (List.mem_filter.mp hm).1
    . intro m
      by_cases heq : m = n
      . subst heq
        rw [Function.update_self]
      . rw [Function.update_of_ne heq]
  . intro m
    by_cases heq : m = n
    . subst heq
      simp
    . simp [Function.update_of_ne heq]

end Walked

end Fs
end Franklin
