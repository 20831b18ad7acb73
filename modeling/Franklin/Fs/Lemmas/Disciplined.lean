import Franklin.Fs.Thread
import Franklin.Fs.Lemmas.Walked

/-!
This module contains that every thread of a call gives back the lock of a vnode and changes its refcount
only while it holds the lock, apart from the label `nextname`.
-/

namespace Franklin
namespace Fs

def SameRef (v : Nat) (s s' : St) : Prop :=
  (s'.vnodes v).lock = (s.vnodes v).lock ∧ (s'.vnodes v).refcount = (s.vnodes v).refcount

def Silent {α : Type} (v : Nat) (p : Prog α) : Prop :=
  Keeps (fun s => v < s.nextVnode) (SameRef v) p

namespace Silent

variable {α β : Type} {v : Nat} {p : Prog α}

theorem bind {f : α → Prog β} (hp : Silent v p) (hf : ∀ a, Silent v (f a)) : Silent v (p >>= f) := by
  apply Keeps.bind _ hp hf
  intro s s1 s2 h1 h2
  exact ⟨h2.1.trans h1.1, h2.2.trans h1.2⟩

theorem pure (a : α) : Silent v (pure a : Prog α) := by
  apply Keeps.pure
  intro s
  exact ⟨rfl, rfl⟩

theorem throw (e : Stop) : Silent v (throw e : Prog α) := by
  apply Keeps.throw

theorem ite {c : Prop} [Decidable c] {q : Prog α} (hp : Silent v p) (hq : Silent v q)
    : Silent v (if c then p else q) := by
  apply Keeps.ite hp hq

theorem of_vnodes (h : ∀ s, wp p (fun _ s' => s'.vnodes = s.vnodes ∧ s'.nextVnode = s.nextVnode)
    (fun _ _ => True) s) : Silent v p := by
  intro s hs
  apply wp_mono (h s)
  . intro a s' hs'
    dsimp only
    rw [SameRef, hs'.1, hs'.2]
    exact ⟨hs, rfl, rfl⟩
  . intro e s' he
    apply he

theorem getSt : Silent v getSt := by
  apply of_vnodes
  intro s
  exact ⟨rfl, rfl⟩

theorem getNode {n : Nat} : Silent v (getNode n) := by
  apply of_vnodes
  intro s
  exact ⟨rfl, rfl⟩

theorem getVfs {vfs : Nat} : Silent v (getVfs vfs) := by
  apply of_vnodes
  intro s
  exact ⟨rfl, rfl⟩

theorem setNode {n : Nat} {f : RamNode → RamNode} : Silent v (setNode n f) := by
  apply of_vnodes
  intro s
  exact ⟨rfl, rfl⟩

theorem setVfs {vfs : Nat} {f : Vfs → Vfs} : Silent v (setVfs vfs f) := by
  apply of_vnodes
  intro s
  exact ⟨rfl, rfl⟩

theorem getVnode {w : Nat} : Silent v (getVnode w) := by
  apply of_vnodes
  intro s
  rw [wp_getVnode]
  exact ⟨fun _ => trivial, fun _ => ⟨rfl, rfl⟩⟩

theorem setVnode {w : Nat} {f : Vnode → Vnode} (hlock : ∀ vn, (f vn).lock = vn.lock)
    (hrefcount : ∀ vn, (f vn).refcount = vn.refcount) : Silent v (setVnode w f) := by
  intro s hs
  rw [wp_setVnode]
  refine ⟨hs, ?_⟩
  unfold SameRef
  dsimp only
  by_cases hw : v = w
  . subst hw
    rw [Function.update_self]
    exact ⟨hlock _, hrefcount _⟩
  . rw [Function.update_of_ne hw]
    exact ⟨rfl, rfl⟩

theorem newVnode {vfs n : Nat} : Silent v (newVnode vfs n) := by
  intro s hs
  have hne : v ≠ s.nextVnode := by
    omega
  refine ⟨Nat.lt_succ_of_lt hs, ?_⟩
  unfold SameRef
  dsimp only
  rw [Function.update_of_ne hne]
  exact ⟨rfl, rfl⟩

theorem deref {n : Nat} : Silent v (deref n) := by
  apply getNode.bind
  intro node
  apply ite
  . apply throw
  . apply pure

theorem setPrev {p prev : Ptr} : Silent v (setPrev p prev) := by
  unfold Fs.setPrev
  split
  . apply pure
  . apply deref.bind
    intro _
    apply setNode
  . apply throw

theorem setNext {p next : Ptr} : Silent v (setNext p next) := by
  unfold Fs.setNext
  split
  . apply pure
  . apply deref.bind
    intro _
    apply setNode
  . apply throw

theorem ramfs_free_node {n : Nat} : Silent v (ramfs_free_node n) := by
  apply deref.bind
  intro _
  apply getNode.bind
  intro node
  apply setPrev.bind
  intro _
  apply setNode

theorem newNode {vfs : Nat} {dir : Option Nat} {type : VType} {link : Name}
    : Silent v (newNode vfs dir type link) := by
  apply of_vnodes
  intro s
  exact ⟨rfl, rfl⟩

theorem ramfs_alloc_node {vfs : Nat} {dir : Option Nat} {type : VType} {link : Option Name}
    : Silent v (ramfs_alloc_node vfs dir type link) := by
  apply getSt.bind
  intro st
  apply setPrev.bind
  intro _
  apply ite
  . apply throw
  . apply newNode

theorem unlinkNode {n : Nat} : Silent v (unlinkNode n) := by
  apply getNode.bind
  intro node
  apply setNext.bind
  intro _
  apply getNode.bind
  intro node
  apply setPrev

theorem ramfs_mount {vfs : Nat} : Silent v (ramfs_mount vfs) := by
  apply getSt.bind
  intro st
  apply setVfs.bind
  intro _
  apply ramfs_alloc_node.bind
  intro root
  apply setNode.bind
  intro _
  apply setVfs.bind
  intro _
  apply pure

theorem newVfs : Silent v newVfs := by
  apply of_vnodes
  intro s
  exact ⟨rfl, rfl⟩

theorem acquireList : Silent v acquireList := by
  apply of_vnodes
  intro s
  rw [wp_iff]
  unfold Fs.acquireList
  split
  . simp
  . simp

theorem releaseList : Silent v releaseList := by
  apply of_vnodes
  intro s
  exact ⟨rfl, rfl⟩

theorem update {f : St → St} (h : ∀ s, (f s).vnodes = s.vnodes ∧ (f s).nextVnode = s.nextVnode)
    : Silent v (fun s => .ok () (f s)) := by
  apply of_vnodes
  intro s
  apply h s

end Silent

/--
The thread gives back the lock of `v` and changes its refcount only while it holds the lock, where `b` is
set if it holds it before, and `Q` is what is known in the end. What is known at the steps that the code
takes without the lock is that they do not happen.
-/
def Thread.Disciplined {α : Type} (v : Nat) : Thread α → Bool → (α → Bool → Prop) → Prop
  | ret a, b, Q => Q a b
  | stop _, _, _ => True
  | lock l k, b, Q =>
    if l = .vnode v then b = false → k.Disciplined v true Q else k.Disciplined v b Q
  | unlock l k, b, Q =>
    if l = .vnode v then b = true ∧ k.Disciplined v false Q else k.Disciplined v b Q
  | nextname w k, b, Q => if w = v then k.Disciplined v false Q else k.Disciplined v b Q
  | trylock w k, b, Q => if w = v then (k b).Disciplined v b Q else ∀ r, (k r).Disciplined v b Q
  | count w _ k, b, Q => (w = v → b = true) ∧ ∀ r, (k r).Disciplined v b Q
  | atom p k, b, Q =>
    Silent v p ∧ ∀ s r s', v < s.nextVnode → p s = .ok r s' → (k r).Disciplined v b Q

namespace Thread

variable {α β : Type} {v : Nat} {b : Bool} {Q Q' : α → Bool → Prop} {R : β → Bool → Prop}

theorem disciplined_ret {a : α} : (ret a).Disciplined v b Q ↔ Q a b :=
  Iff.rfl

theorem disciplined_lock {l : Lock} {k : Thread α}
    : (lock l k).Disciplined v b Q ↔
        if l = .vnode v then b = false → k.Disciplined v true Q else k.Disciplined v b Q :=
  Iff.rfl

theorem disciplined_unlock {l : Lock} {k : Thread α}
    : (unlock l k).Disciplined v b Q ↔
        if l = .vnode v then b = true ∧ k.Disciplined v false Q else k.Disciplined v b Q :=
  Iff.rfl

theorem disciplined_nextname {w : Nat} {k : Thread α}
    : (nextname w k).Disciplined v b Q ↔
        if w = v then k.Disciplined v false Q else k.Disciplined v b Q :=
  Iff.rfl

theorem disciplined_trylock {w : Nat} {k : Bool → Thread α}
    : (trylock w k).Disciplined v b Q ↔
        if w = v then (k b).Disciplined v b Q else ∀ r, (k r).Disciplined v b Q :=
  Iff.rfl

theorem Disciplined.mono {x : Thread α} (h : x.Disciplined v b Q) (hQ : ∀ a b', Q a b' → Q' a b')
    : x.Disciplined v b Q' := by
  induction x generalizing b with
  | ret a => apply hQ a b h
  | stop e => trivial
  | lock l k ih =>
    rw [disciplined_lock] at h ⊢
    split
    . next hl =>
      rw [if_pos hl] at h
      intro hb
      apply ih (h hb)
    . next hl =>
      rw [if_neg hl] at h
      apply ih h
  | unlock l k ih =>
    rw [disciplined_unlock] at h ⊢
    split
    . next hl =>
      rw [if_pos hl] at h
      exact ⟨h.1, ih h.2⟩
    . next hl =>
      rw [if_neg hl] at h
      apply ih h
  | nextname w k ih =>
    rw [disciplined_nextname] at h ⊢
    split
    . next hw =>
      rw [if_pos hw] at h
      apply ih h
    . next hw =>
      rw [if_neg hw] at h
      apply ih h
  | trylock w k ih =>
    rw [disciplined_trylock] at h ⊢
    split
    . next hw =>
      rw [if_pos hw] at h
      apply ih _ h
    . next hw =>
      rw [if_neg hw] at h
      intro r
      apply ih r (h r)
  | count w d k ih => exact ⟨h.1, fun r => ih r (h.2 r)⟩
  | atom p k ih => exact ⟨h.1, fun s r s' hs hp => ih r (h.2 s r s' hs hp)⟩

theorem Disciplined.bind {x : Thread α} {f : α → Thread β} (h : x.Disciplined v b Q)
    (hf : ∀ a b', Q a b' → (f a).Disciplined v b' R) : (x >>= f).Disciplined v b R := by
  show (x.bind f).Disciplined v b R
  induction x generalizing b with
  | ret a => apply hf a b h
  | stop e => trivial
  | lock l k ih =>
    show (lock l (k.bind f)).Disciplined v b R
    rw [disciplined_lock] at h ⊢
    split
    . next hl =>
      rw [if_pos hl] at h
      intro hb
      apply ih (h hb)
    . next hl =>
      rw [if_neg hl] at h
      apply ih h
  | unlock l k ih =>
    show (unlock l (k.bind f)).Disciplined v b R
    rw [disciplined_unlock] at h ⊢
    split
    . next hl =>
      rw [if_pos hl] at h
      exact ⟨h.1, ih h.2⟩
    . next hl =>
      rw [if_neg hl] at h
      apply ih h
  | nextname w k ih =>
    show (nextname w (k.bind f)).Disciplined v b R
    rw [disciplined_nextname] at h ⊢
    split
    . next hw =>
      rw [if_pos hw] at h
      apply ih h
    . next hw =>
      rw [if_neg hw] at h
      apply ih h
  | trylock w k ih =>
    show (trylock w fun r => (k r).bind f).Disciplined v b R
    rw [disciplined_trylock] at h ⊢
    split
    . next hw =>
      rw [if_pos hw] at h
      apply ih _ h
    . next hw =>
      rw [if_neg hw] at h
      intro r
      apply ih r (h r)
  | count w d k ih => exact ⟨h.1, fun r => ih r (h.2 r)⟩
  | atom p k ih => exact ⟨h.1, fun s r s' hs hp => ih r (h.2 s r s' hs hp)⟩

theorem Disciplined.pure {a : α} (h : Q a b) : (pure a : Thread α).Disciplined v b Q :=
  h

theorem Disciplined.fail {e : Stop} : (fail e : Thread α).Disciplined v b Q :=
  trivial

theorem Disciplined.ite {c : Prop} [Decidable c] {x y : Thread α} (hx : c → x.Disciplined v b Q)
    (hy : ¬ c → y.Disciplined v b Q) : (if c then x else y).Disciplined v b Q := by
  split
  . next hc => apply hx hc
  . next hc => apply hy hc

def Tidy (v : Nat) (x : Thread α) : Prop :=
  ∀ b, x.Disciplined v b fun _ _ => True

def Even (v : Nat) (x : Thread α) : Prop :=
  ∀ b, x.Disciplined v b fun _ b' => b' = b

theorem Tidy.bind {x : Thread α} {f : α → Thread β} (hx : x.Tidy v) (hf : ∀ a, (f a).Tidy v)
    : (x >>= f).Tidy v := by
  intro b
  apply (hx b).bind
  intro a b' _
  apply hf a b'

theorem Tidy.pure {a : α} : (pure a : Thread α).Tidy v := by
  intro b
  trivial

theorem Tidy.fail {e : Stop} : (fail e : Thread α).Tidy v := by
  intro b
  trivial

theorem Tidy.ite {c : Prop} [Decidable c] {x y : Thread α} (hx : x.Tidy v) (hy : y.Tidy v)
    : (if c then x else y).Tidy v := by
  split
  . apply hx
  . apply hy

theorem Even.tidy {x : Thread α} (h : x.Even v) : x.Tidy v := by
  intro b
  apply (h b).mono
  intro a b' _
  trivial

theorem Even.bind {x : Thread α} {f : α → Thread β} (hx : x.Even v) (hf : ∀ a, (f a).Even v)
    : (x >>= f).Even v := by
  intro b
  apply (hx b).bind
  intro a b' hb'
  rw [hb']
  apply hf a b

theorem Even.pure {a : α} : (pure a : Thread α).Even v := by
  intro b
  exact Disciplined.pure rfl

theorem Even.fail {e : Stop} : (fail e : Thread α).Even v := by
  intro b
  trivial

theorem Even.ite {c : Prop} [Decidable c] {x y : Thread α} (hx : x.Even v) (hy : y.Even v)
    : (if c then x else y).Even v := by
  split
  . apply hx
  . apply hy

theorem Even.access {p : Prog α} (h : Silent v p) : (access p).Even v := by
  intro b
  exact ⟨h, fun s r s' hs hp => rfl⟩

theorem Disciplined.newVnode {vfs n : Nat}
    : (Thread.access (newVnode vfs n)).Disciplined v b fun w b' => w ≠ v ∧ b' = b := by
  refine ⟨Silent.newVnode, ?_⟩
  intro s w s' hs hw
  have heq := (wp_of_ok (Q := fun w _ => w = s.nextVnode) (E := fun _ _ => True) hw).mp rfl
  refine ⟨?_, rfl⟩
  omega

theorem Even.acquireNode {n : Nat} : (acquireNode n).Even v := by
  intro b
  rw [Thread.acquireNode, disciplined_lock]
  rw [if_neg (by simp)]
  rfl

theorem Even.releaseNode {n : Nat} : (releaseNode n).Even v := by
  intro b
  rw [Thread.releaseNode, disciplined_unlock]
  rw [if_neg (by simp)]
  rfl

theorem Disciplined.acquire {w : Nat}
    : (acquire w).Disciplined v b fun _ b' => if w = v then b = false ∧ b' = true else b' = b := by
  rw [Thread.acquire, disciplined_lock]
  by_cases hw : w = v
  . rw [if_pos (by rw [hw])]
    intro hb
    rw [disciplined_ret, if_pos hw]
    exact ⟨hb, rfl⟩
  . rw [if_neg (by simpa using hw), disciplined_ret, if_neg hw]

theorem Disciplined.release {w : Nat} (h : w = v → b = true)
    : (Thread.release w).Disciplined v b fun _ b' => b' = if w = v then false else b := by
  rw [Thread.release, disciplined_unlock]
  by_cases hw : w = v
  . rw [if_pos (by rw [hw]), if_pos hw]
    exact ⟨h hw, rfl⟩
  . rw [if_neg (by simpa using hw), if_neg hw]
    rfl

theorem Disciplined.count {w : Nat} {d : Int} (h : w = v → b = true)
    : (count w d ret).Disciplined v b fun _ b' => b' = b :=
  ⟨h, fun _ => rfl⟩

theorem Disciplined.vref_locked {w : Nat} (h : w = v → b = true)
    : (vref_locked w).Disciplined v b fun _ b' => b' = b :=
  ⟨h, fun _ => rfl⟩

theorem Disciplined.section {w : Nat} {x : Thread α} {f : α → Thread β}
    (hx : ∀ b, (w = v → b = true) → x.Disciplined v b fun _ b' => b' = b)
    (hf : ∀ a, (f a).Disciplined v b R)
    : (do
        Thread.acquire w
        let a ← x
        Thread.release w
        f a).Disciplined v b R := by
  apply Disciplined.acquire.bind
  intro _ b1 hb1
  have hheld : w = v → b1 = true := by
    intro hw
    rw [if_pos hw] at hb1
    apply hb1.2
  apply (hx b1 hheld).bind
  intro a b2 hb2
  rw [hb2]
  apply (Disciplined.release hheld).bind
  intro _ b3 hb3
  have heq : b3 = b := by
    rw [hb3]
    split
    . next hw =>
      rw [if_pos hw] at hb1
      rw [hb1.1]
    . next hw =>
      rw [if_neg hw] at hb1
      apply hb1
  rw [heq]
  apply hf a

theorem Even.vref {w : Nat} : (vref w).Even v := by
  intro b
  have h : (do
      Thread.acquire w
      Thread.vref_locked w
      Thread.release w
      ret ()).Disciplined v b fun _ b' => b' = b := by
    apply Disciplined.section
    . intro b hb
      apply Disciplined.vref_locked hb
    . intro _
      exact Disciplined.pure rfl
  exact h

theorem Even.ramfs_vget {vfs n : Nat} : (ramfs_vget vfs n).Even v := by
  unfold Thread.ramfs_vget
  apply (Even.access Silent.deref).bind
  intro _
  apply Even.acquireNode.bind
  intro _
  apply (Even.access Silent.getNode).bind
  intro node
  split
  . intro b
    apply Disciplined.section
    . intro b hb
      apply Disciplined.vref_locked hb
    . intro _
      apply (Even.releaseNode b).bind
      intro _ b' hb'
      apply hb'
  . intro b
    apply Disciplined.newVnode.bind
    intro w b1 hb1
    apply (Disciplined.release (fun hw => absurd hw hb1.1)).bind
    intro _ b2 hb2
    rw [if_neg hb1.1, hb1.2] at hb2
    rw [hb2]
    apply (Even.releaseNode b).bind
    intro _ b3 hb3
    apply hb3

theorem Even.ramfs_root {vfs : Nat} : (ramfs_root vfs).Even v := by
  apply (Even.access Silent.getVfs).bind
  intro vfs'
  apply Even.ramfs_vget

theorem Even.ramfs_inactive {n : Nat} : (ramfs_inactive n).Even v := by
  apply (Even.access Silent.deref).bind
  intro _
  apply Even.acquireNode.bind
  intro _
  apply (Even.access Silent.setNode).bind
  intro _
  apply (Even.access Silent.getNode).bind
  intro node
  apply Even.ite
  . apply (Even.access Silent.ramfs_free_node).bind
    intro _
    apply Even.releaseNode
  . apply Even.releaseNode

theorem Disciplined.trylock {w : Nat}
    : (trylock w ret).Disciplined v b fun r b' => (w = v → r = b) ∧ b' = b := by
  rw [disciplined_trylock]
  split
  . exact ⟨fun _ => rfl, rfl⟩
  . next hw =>
    intro r
    exact ⟨fun h => absurd h hw, rfl⟩

theorem Tidy.vfs_close {w : Nat} : (vfs_close w).Tidy v := by
  intro b
  unfold Thread.vfs_close
  have hrest : ∀ b, (w = v → b = true) → (do
      let vn ← access (getVnode w)
      let refcount ← Thread.count w (-1) ret
      if refcount = 0 then do
        Thread.ramfs_inactive vn.data
        access (setVnode w fun vn => { vn with freed := true })
      else Thread.release w).Disciplined v b fun _ _ => True := by
    intro b hb
    apply (Even.access Silent.getVnode b).bind
    intro vn b1 hb1
    rw [hb1]
    apply (Disciplined.count hb).bind
    intro refcount b2 hb2
    rw [hb2]
    apply Disciplined.ite
    . intro _
      have hfree : (do
          Thread.ramfs_inactive vn.data
          access (setVnode w fun vn => { vn with freed := true })).Even v := by
        apply Even.ramfs_inactive.bind
        intro _
        apply Even.access
        apply Silent.setVnode
        . intro _
          rfl
        . intro _
          rfl
      exact hfree.tidy b
    . intro _
      apply (Disciplined.release hb).mono
      intro _ _ _
      trivial
  apply Disciplined.trylock.bind
  intro held b1 hb1
  rcases hb1 with ⟨hheld, rfl⟩
  apply Disciplined.ite
  . intro htrue
    apply hrest
    intro hw
    rw [← hheld hw, htrue]
  . intro _
    apply Disciplined.acquire.bind
    intro _ b2 hb2
    apply hrest
    intro hw
    rw [if_pos hw] at hb2
    apply hb2.2

theorem Tidy.vputOpt {w : Option Nat} : (vputOpt w).Tidy v := by
  cases w with
  | none => apply Tidy.pure
  | some w => apply Tidy.vfs_close

theorem Disciplined.ramfs_lookup {vdir : Nat} {vpp : Option Nat} {name : Name} {len : Nat}
    (h : vdir = v → b = true)
    : (ramfs_lookup vdir vpp name len).Disciplined v b fun _ b' => b' = b := by
  unfold Thread.ramfs_lookup
  apply (Even.access Silent.getVnode b).bind
  intro vd b1 hb1
  rw [hb1]
  apply (Even.access Silent.deref b).bind
  intro _ b0 hb0
  rw [hb0]
  apply (Even.acquireNode b).bind
  intro _ b2 hb2
  rw [hb2]
  apply (Even.access Silent.getNode b).bind
  intro node b3 hb3
  rw [hb3]
  have hvget : ∀ n, (do
      let w ← Thread.ramfs_vget vd.vfs n
      Thread.releaseNode vd.data
      Pure.pure ((none : Code), some w)).Even v := by
    intro n
    apply Even.ramfs_vget.bind
    intro w
    apply Even.releaseNode.bind
    intro _
    apply Even.pure
  have hend : ∀ r : Code × Option Nat, (do
      Thread.releaseNode vd.data
      Pure.pure r).Even v := by
    intro r
    apply Even.releaseNode.bind
    intro _
    apply Even.pure
  apply Disciplined.ite
  . intro _
    apply hend
  . intro _
    apply Disciplined.ite
    . intro _
      apply (Disciplined.vref_locked h).bind
      intro _ b4 hb4
      rw [hb4]
      apply hend
    . intro _
      apply Disciplined.ite
      . intro _
        apply hvget
      . intro _
        split
        . apply hvget
        . apply Disciplined.ite
          . intro _
            apply Disciplined.fail
          . intro _
            apply hend

theorem Tidy.climb {fuel vdir : Nat} : (lookup.climb fuel vdir).Tidy v := by
  induction fuel generalizing vdir with
  | zero => apply Tidy.fail
  | succ fuel ih =>
    unfold lookup.climb
    apply (Even.access Silent.getSt).tidy.bind
    intro st
    apply Tidy.ite
    . apply Even.vref.tidy.bind
      intro _
      apply Tidy.pure
    . intro b
      apply Disciplined.acquire.bind
      intro _ b1 hb1
      have hheld : vdir = v → b1 = true := by
        intro hw
        rw [if_pos hw] at hb1
        apply hb1.2
      apply (Even.access Silent.getVnode b1).bind
      intro vd b2 hb2
      rw [hb2]
      apply Disciplined.ite
      . intro _
        apply (Disciplined.release hheld).bind
        intro _ b3 _
        apply Tidy.pure
      . intro _
        -- The rest goes up to the mount point, and nothing is claimed of the lock there.
        refine (show Tidy v _ from ?_) b1
        apply (Even.access Silent.getVfs).tidy.bind
        intro vfs
        apply Tidy.vfs_close.bind
        intro _
        split
        . apply Even.vref.tidy.bind
          intro _
          apply ih
        . apply Tidy.fail

theorem Disciplined.cross {fuel vdir : Nat} (h : vdir = v → b = true)
    : (lookup.cross fuel vdir).Disciplined v b fun w b' => w = v → b' = true := by
  induction fuel generalizing vdir b with
  | zero => apply Disciplined.fail
  | succ fuel ih =>
    unfold lookup.cross
    apply (Even.access Silent.getVnode b).bind
    intro vd b1 hb1
    rw [hb1]
    split
    . exact h
    . apply (Tidy.vfs_close b).bind
      intro _ b2 _
      apply (Even.ramfs_root b2).bind
      intro w b3 _
      apply Disciplined.acquire.bind
      intro _ b4 hb4
      apply ih
      intro hw
      rw [if_pos hw] at hb4
      apply hb4.2

theorem Tidy.nextnameRelease {w : Nat} : (Thread.nextname w (ret ())).Tidy v := by
  intro b
  rw [disciplined_nextname]
  split
  . trivial
  . trivial

theorem Tidy.nextname {vdir : Nat} {nd : Nameidata} : (lookup.nextname vdir nd).Tidy v := by
  unfold lookup.nextname
  apply Tidy.ite
  . apply Tidy.nextnameRelease.bind
    intro _
    apply Tidy.pure
  . apply Tidy.vfs_close.bind
    intro _
    apply Tidy.nextnameRelease.bind
    intro _
    apply Tidy.pure

theorem Tidy.component {follow : Bool} {vdir : Nat} {nd : Nameidata}
    : (lookup.component follow vdir nd).Tidy v := by
  intro b
  unfold lookup.component
  apply Disciplined.acquire.bind
  intro _ b1 hb1
  have hheld : vdir = v → b1 = true := by
    intro hw
    rw [if_pos hw] at hb1
    apply hb1.2
  apply (Disciplined.ramfs_lookup hheld).bind
  intro r b2 hb2
  rw [hb2]
  apply (Disciplined.release hheld).bind
  intro _ b3 _
  split
  . apply Tidy.pure
  . apply Disciplined.fail
  . next w _ _ =>
    apply Disciplined.acquire.bind
    intro _ b4 hb4
    apply (Even.access Silent.getSt b4).bind
    intro st b5 hb5
    rw [hb5]
    have hw : w = v → b4 = true := by
      intro hw
      rw [if_pos hw] at hb4
      apply hb4.2
    apply (Disciplined.cross hw).bind
    intro w' b6 _
    apply (Even.access Silent.getVnode b6).bind
    intro vd b7 hb7
    apply Disciplined.ite
    . intro _
      apply Tidy.pure
    . intro _
      apply Tidy.nextname

theorem Tidy.round {follow : Bool} {vdir : Nat} {nd : Nameidata}
    : (lookup.round follow vdir nd).Tidy v := by
  unfold lookup.round
  apply Tidy.ite
  . apply Even.vref.tidy.bind
    intro _
    apply Tidy.pure
  . apply Tidy.ite
    . apply (Even.access Silent.getSt).tidy.bind
      intro st
      apply Tidy.climb.bind
      intro up
      cases up with
      | root w => apply Tidy.nextname
      | dir w => apply Tidy.component
    . apply Tidy.component

theorem Tidy.loop {follow : Bool} {fuel vdir : Nat} {nd : Nameidata}
    : (lookup.loop follow fuel vdir nd).Tidy v := by
  induction fuel generalizing vdir nd with
  | zero => apply Tidy.fail
  | succ fuel ih =>
    unfold lookup.loop
    apply Tidy.round.bind
    intro r
    cases r with
    | done error nd => apply Tidy.pure
    | next vdir nd => apply ih

theorem Tidy.lookup {nd : Nameidata} : (lookup nd).Tidy v := by
  apply (Even.access Silent.getSt).tidy.bind
  intro st
  apply Tidy.loop

theorem Even.ramfs_readlink {vn : Nat} : (ramfs_readlink vn).Even v := by
  apply (Even.access Silent.getVnode).bind
  intro vn
  apply Even.acquireNode.bind
  intro _
  apply (Even.access Silent.getNode).bind
  intro node
  apply Even.releaseNode.bind
  intro _
  apply Even.pure

theorem Tidy.start {name : Name} {vn : Option Nat} : (namei.start name vn).Tidy v := by
  unfold namei.start
  apply Tidy.ite
  . apply Tidy.vputOpt.bind
    intro _
    apply (Even.access Silent.getSt).tidy.bind
    intro st
    split
    . apply Tidy.fail
    . apply Even.ramfs_root.tidy
  . split
    . apply Tidy.fail
    . apply Tidy.pure

theorem Tidy.namei_loop {fuel : Nat} {name : Name} {vn : Option Nat} {nd : Nameidata}
    : (namei.loop fuel name vn nd).Tidy v := by
  induction fuel generalizing name vn nd with
  | zero => apply Tidy.fail
  | succ fuel ih =>
    unfold namei.loop
    apply Tidy.start.bind
    intro vdir
    apply Tidy.lookup.bind
    intro r
    dsimp only
    split
    . apply Even.ramfs_readlink.tidy.bind
      intro link
      apply Tidy.ite
      . apply Tidy.fail
      . apply Tidy.vfs_close.bind
        intro _
        apply ih
    . apply Tidy.pure

theorem Tidy.namei {name : Name} {fuel : Nat} : (namei name fuel).Tidy v :=
  Tidy.namei_loop

theorem Even.ramfs_dir_lookup {dir : Nat} {name : Name} : (ramfs_dir_lookup dir name).Even v := by
  unfold Thread.ramfs_dir_lookup
  apply Even.acquireNode.bind
  intro _
  apply (Even.access Silent.getNode).bind
  intro node
  split
  . apply Even.releaseNode.bind
    intro _
    apply Even.pure
  . apply Even.ite
    . apply Even.fail
    . apply Even.releaseNode.bind
      intro _
      apply Even.pure

theorem Even.ramfs_alloc_dentry {n : Nat} {name : Name} : (ramfs_alloc_dentry n name).Even v := by
  apply Even.acquireNode.bind
  intro _
  apply (Even.access Silent.setNode).bind
  intro _
  apply Even.releaseNode.bind
  intro _
  apply Even.pure

theorem Even.ramfs_dir_attach {parent : Nat} {de : RamDentry}
    : (ramfs_dir_attach parent de).Even v := by
  apply Even.acquireNode.bind
  intro _
  apply (Even.access Silent.getNode).bind
  intro node
  apply Even.ite
  . apply Even.releaseNode.bind
    intro _
    apply Even.pure
  . apply (Even.access Silent.setNode).bind
    intro _
    apply Even.releaseNode.bind
    intro _
    apply Even.pure

theorem Even.ramfs_alloc_file {vdir : Nat} {name : Name} {len : Nat} {type : VType}
    {target : Option Name} : (ramfs_alloc_file vdir name len type target).Even v := by
  apply (Even.access Silent.getVnode).bind
  intro vd
  apply Even.ite
  . apply Even.pure
  . apply (Even.access Silent.ramfs_alloc_node).bind
    intro n
    apply Even.ramfs_alloc_dentry.bind
    intro de
    apply Even.ramfs_dir_attach.bind
    intro _
    apply Even.ramfs_vget.bind
    intro w
    apply Even.pure

theorem Even.ramfs_symlink {vdir : Nat} {target name : Name} {len : Nat}
    : (ramfs_symlink vdir target name len).Even v := by
  apply Even.ramfs_alloc_file.bind
  intro r
  apply Even.pure

theorem Even.ramfs_link {vdir vn : Nat} {name : Name} : (ramfs_link vdir vn name).Even v := by
  apply (Even.access Silent.getVnode).bind
  intro vd
  apply (Even.access Silent.getVnode).bind
  intro vn
  apply Even.ramfs_alloc_dentry.bind
  intro de
  apply Even.ramfs_dir_attach.bind
  intro _
  apply Even.pure

theorem Even.ramfs_free_dentry {de : RamDentry} : (ramfs_free_dentry de).Even v := by
  apply Even.acquireNode.bind
  intro _
  apply (Even.access Silent.getNode).bind
  intro node
  apply Even.ite
  . apply Even.fail
  . apply (Even.access Silent.setNode).bind
    intro _
    apply Even.releaseNode

theorem Even.ramfs_dir_detach {parent : Nat} {de : RamDentry}
    : (ramfs_dir_detach parent de).Even v := by
  apply Even.acquireNode.bind
  intro _
  apply (Even.access Silent.setNode).bind
  intro _
  apply Even.releaseNode

theorem Even.detach {dir n : Nat} {de : RamDentry} : (do
    Thread.access (unlinkNode n)
    Thread.ramfs_dir_detach dir de
    Thread.ramfs_free_dentry de
    Pure.pure (none : Code)).Even v := by
  apply (Even.access Silent.unlinkNode).bind
  intro _
  apply Even.ramfs_dir_detach.bind
  intro _
  apply Even.ramfs_free_dentry.bind
  intro _
  apply Even.pure

theorem Even.ramfs_remove {vdir vn : Nat} {name : Name} : (ramfs_remove vdir vn name).Even v := by
  apply (Even.access Silent.getVnode).bind
  intro vd
  apply (Even.access Silent.getVnode).bind
  intro vn
  apply Even.ite
  . apply Even.pure
  . apply Even.ite
    . apply Even.pure
    . apply Even.ramfs_dir_lookup.bind
      intro de
      cases de with
      | none => apply Even.fail
      | some de =>
        apply Even.ite
        . apply Even.fail
        . apply Even.detach

theorem Even.ramfs_rmdir {vdir vn : Nat} {name : Name} {len : Nat}
    : (ramfs_rmdir vdir vn name len).Even v := by
  apply (Even.access Silent.getVnode).bind
  intro vd
  apply (Even.access Silent.getVnode).bind
  intro vn
  apply Even.ite
  . apply Even.pure
  . apply Even.acquireNode.bind
    intro _
    apply (Even.access Silent.getNode).bind
    intro node
    apply Even.ite
    . apply Even.fail
    . apply Even.ite
      . apply Even.releaseNode.bind
        intro _
        apply Even.pure
      . apply (Even.access Silent.setNode).bind
        intro _
        apply Even.releaseNode.bind
        intro _
        apply Even.ramfs_dir_lookup.bind
        intro de
        cases de with
        | none => apply Even.fail
        | some de =>
          apply Even.ite
          . apply Even.fail
          . apply Even.detach

theorem Even.freeDentries {n : Nat} {entries : List RamDentry}
    : (ramfs_unmount.freeDentries n entries).Even v := by
  induction entries with
  | nil =>
    apply (Even.access Silent.getNode).bind
    intro node
    apply Even.ite
    . apply Even.fail
    . apply Even.pure
  | cons de entries ih =>
    apply (Even.access Silent.deref).bind
    intro _
    apply (Even.access Silent.setNode).bind
    intro _
    apply Even.ramfs_dir_detach.bind
    intro _
    apply Even.ramfs_free_dentry.bind
    intro _
    apply (Even.access Silent.getSt).bind
    intro st
    apply Even.ite
    . apply Even.fail
    . apply ih

theorem Even.freeAllDentries {fuel : Nat} {p : Ptr}
    : (ramfs_unmount.freeAllDentries fuel p).Even v := by
  induction fuel generalizing p with
  | zero =>
    cases p with
    | null => apply Even.pure
    | wild => apply Even.fail
    | ref n => apply Even.fail
  | succ fuel ih =>
    cases p with
    | null => apply Even.pure
    | wild => apply Even.fail
    | ref n =>
      apply (Even.access Silent.deref).bind
      intro _
      apply (Even.access Silent.setNode).bind
      intro _
      apply (Even.access Silent.getNode).bind
      intro node
      apply Even.ite
      . apply ih
      . apply Even.freeDentries.bind
        intro _
        apply (Even.access Silent.getNode).bind
        intro node
        apply ih

theorem Even.freeAllNodes {fuel : Nat} {p : Ptr} : (ramfs_unmount.freeAllNodes fuel p).Even v := by
  induction fuel generalizing p with
  | zero =>
    cases p with
    | null => apply Even.pure
    | wild => apply Even.fail
    | ref n => apply Even.fail
  | succ fuel ih =>
    cases p with
    | null => apply Even.pure
    | wild => apply Even.fail
    | ref n =>
      apply (Even.access Silent.ramfs_free_node).bind
      intro _
      apply (Even.access Silent.getNode).bind
      intro node
      apply ih

theorem Even.ramfs_unmount {vfs : Nat} : (ramfs_unmount vfs).Even v := by
  apply (Even.access Silent.getSt).bind
  intro st
  apply Even.freeAllDentries.bind
  intro _
  apply Even.freeAllNodes.bind
  intro _
  apply Even.pure

theorem Tidy.twoPuts {w w' : Nat} {a : α} : (do
    vput w
    vput w'
    Pure.pure a).Tidy v := by
  apply Tidy.vfs_close.bind
  intro _
  apply Tidy.vfs_close.bind
  intro _
  apply Tidy.pure

theorem Tidy.putsOpt {w : Nat} {w' : Option Nat} {a : α} : (do
    vput w
    Thread.vputOpt w'
    Pure.pure a).Tidy v := by
  apply Tidy.vfs_close.bind
  intro _
  apply Tidy.vputOpt.bind
  intro _
  apply Tidy.pure

theorem Tidy.optPuts {w : Option Nat} {w' : Nat} {a : α} : (do
    Thread.vputOpt w
    vput w'
    Pure.pure a).Tidy v := by
  apply Tidy.vputOpt.bind
  intro _
  apply Tidy.vfs_close.bind
  intro _
  apply Tidy.pure

theorem Tidy.acquire {w : Nat} : (acquire w).Tidy v := by
  intro b
  apply Disciplined.acquire.mono
  intro _ _ _
  trivial

theorem Tidy.vfs_link {name target : Name} {fuel : Nat} : (vfs_link name target fuel).Tidy v := by
  unfold Thread.vfs_link
  apply Tidy.namei.bind
  intro r
  dsimp only
  split
  . apply Tidy.pure
  . apply Tidy.fail
  . apply Tidy.acquire.bind
    intro _
    apply (Even.access Silent.getVnode).tidy.bind
    intro vn
    apply Tidy.ite
    . apply Tidy.twoPuts
    . apply Tidy.vfs_close.bind
      intro _
      apply Tidy.namei.bind
      intro r
      apply Tidy.ite
      . apply Tidy.pure
      . intro b
        apply Disciplined.acquire.bind
        intro _ b1 hb1
        apply (Even.ramfs_link b1).bind
        intro error b2 hb2
        rw [hb2]
        have hheld : r.2.vdir = v → b1 = true := by
          intro hw
          rw [if_pos hw] at hb1
          apply hb1.2
        apply (Disciplined.release hheld).bind
        intro _ b3 _
        apply Tidy.twoPuts

theorem Tidy.vfs_symlink {name target : Name} {fuel : Nat}
    : (vfs_symlink name target fuel).Tidy v := by
  unfold Thread.vfs_symlink
  apply Tidy.namei.bind
  intro r
  apply Tidy.ite
  . apply Tidy.putsOpt
  . apply Tidy.acquire.bind
    intro _
    apply Even.ramfs_symlink.tidy.bind
    intro _
    apply Tidy.vfs_close.bind
    intro _
    apply Tidy.pure

theorem Tidy.finish {vfs : Nat} : (vfs_mount.finish vfs).Tidy v := by
  apply (Even.access Silent.getSt).tidy.bind
  intro st
  apply (Even.access Silent.setVfs).tidy.bind
  intro _
  apply Tidy.bind
  . apply Even.tidy
    apply Even.access
    apply Silent.update
    intro _
    exact ⟨rfl, rfl⟩
  intro _
  apply (Even.access Silent.ramfs_mount).tidy.bind
  intro error
  apply (Even.access Silent.releaseList).tidy.bind
  intro _
  apply Tidy.pure

theorem Tidy.fail2 {error : Errno} {n : Nameidata} : (vfs_mount.fail2 error n).Tidy v := by
  apply Tidy.vputOpt.bind
  intro _
  apply Tidy.vfs_close.bind
  intro _
  apply (Even.access Silent.releaseList).tidy.bind
  intro _
  apply Tidy.pure

theorem Tidy.vfs_mount {mntpoint : Option Name} {fstype : Name} {fuel : Nat}
    : (vfs_mount mntpoint fstype fuel).Tidy v := by
  unfold Thread.vfs_mount
  apply (Even.access Silent.acquireList).tidy.bind
  intro _
  apply Tidy.ite
  . apply (Even.access Silent.releaseList).tidy.bind
    intro _
    apply Tidy.pure
  . apply (Even.access Silent.newVfs).tidy.bind
    intro vfs
    split
    . apply (Even.access Silent.setVfs).tidy.bind
      intro _
      apply Tidy.bind
      . apply Even.tidy
        apply Even.access
        apply Silent.update
        intro _
        exact ⟨rfl, rfl⟩
      . intro _
        apply Tidy.finish
    . apply Tidy.namei.bind
      intro r
      dsimp only
      split
      . apply Tidy.fail2
      . apply Tidy.fail
      . apply Tidy.acquire.bind
        intro _
        apply (Even.access Silent.getVnode).tidy.bind
        intro mnt
        apply Tidy.ite
        . apply Tidy.fail2
        . apply Tidy.ite
          . apply Tidy.fail2
          . apply (Even.access Silent.setVfs).tidy.bind
            intro _
            apply Tidy.bind
            . apply Even.tidy
              apply Even.access
              apply Silent.setVnode
              . intro _
                rfl
              . intro _
                rfl
            . intro _
              apply Tidy.vfs_close.bind
              intro _
              apply Tidy.vfs_close.bind
              intro _
              apply Tidy.finish

theorem Tidy.vfs_unmount {name : Name} {fuel : Nat} : (vfs_unmount name fuel).Tidy v := by
  unfold Thread.vfs_unmount
  apply Tidy.namei.bind
  intro r
  dsimp only
  split
  . apply Tidy.optPuts
  . apply Tidy.fail
  . have hrele : ∀ w (error : Errno), (do
        Thread.vrele w
        Pure.pure (some error : Code)).Tidy v := by
      intro w error
      apply Tidy.vfs_close.bind
      intro _
      apply Tidy.pure
    apply (Even.access Silent.getVnode).tidy.bind
    intro vn
    apply (Even.access Silent.getVfs).tidy.bind
    intro vfs
    apply Tidy.acquire.bind
    intro _
    apply Tidy.ite
    . apply hrele
    . apply Tidy.ite
      . apply hrele
      . apply Tidy.vfs_close.bind
        intro _
        apply Even.ramfs_unmount.tidy.bind
        intro _
        split
        . intro b
          apply Disciplined.section
          . intro b _
            apply Even.access
            apply Silent.setVnode
            . intro _
              rfl
            . intro _
              rfl
          . intro _
            have hput : (do
                Thread.vput r.2.vdir
                Pure.pure (none : Code)).Tidy v := by
              apply Tidy.vfs_close.bind
              intro _
              apply Tidy.pure
            apply hput b
        . apply Tidy.fail

theorem Tidy.vfs_unlink {name : Name} {fuel : Nat} : (vfs_unlink name fuel).Tidy v := by
  unfold Thread.vfs_unlink
  apply Tidy.namei.bind
  intro r
  dsimp only
  split
  . apply Tidy.optPuts
  . apply Tidy.fail
  . next vn _ _ =>
    have hremove : (do
        let w ← access (getVnode vn)
        if w.vroot then do
          let error ← Pure.pure (some Errno.EBUSY)
          Thread.vput r.2.vdir
          Thread.vrele vn
          Pure.pure error
        else do
          let error ← Thread.ramfs_remove r.2.vdir vn r.2.name
          Thread.vput r.2.vdir
          Thread.vrele vn
          Pure.pure error).Tidy v := by
      apply (Even.access Silent.getVnode).tidy.bind
      intro w
      apply Tidy.ite
      . apply Tidy.pure.bind
        intro _
        apply Tidy.twoPuts
      . apply Even.ramfs_remove.tidy.bind
        intro _
        apply Tidy.twoPuts
    apply Tidy.acquire.bind
    intro _
    apply Tidy.ite
    . apply Tidy.acquire.bind
      intro _
      apply hremove
    . apply hremove

theorem Tidy.vfs_open {name : Name} {type : VType} {create : Bool} {fuel : Nat}
    : (vfs_open name type create fuel).Tidy v := by
  unfold Thread.vfs_open
  apply Tidy.namei.bind
  intro r
  apply Tidy.ite
  . apply Tidy.ite
    . apply Tidy.putsOpt
    . apply Tidy.acquire.bind
      intro _
      apply Even.ramfs_alloc_file.tidy.bind
      intro _
      apply Tidy.vfs_close.bind
      intro _
      apply Tidy.pure
  . apply Tidy.vfs_close.bind
    intro _
    apply Tidy.pure

theorem Tidy.vfs_mkdir {name : Name} {fuel : Nat} : (vfs_mkdir name fuel).Tidy v := by
  unfold Thread.vfs_mkdir
  apply Tidy.ite
  . apply Tidy.pure
  . apply Tidy.namei.bind
    intro r
    apply Tidy.ite
    . apply Tidy.putsOpt
    . apply Tidy.acquire.bind
      intro _
      apply (Even.access Silent.getVnode).tidy.bind
      intro vd
      apply Tidy.ite
      . apply Tidy.vfs_close.bind
        intro _
        apply Tidy.pure
      . apply Even.ramfs_alloc_file.tidy.bind
        intro _
        apply Tidy.vfs_close.bind
        intro _
        apply Tidy.pure

theorem Tidy.vfs_rmdir {name : Name} {fuel : Nat} : (vfs_rmdir name fuel).Tidy v := by
  unfold Thread.vfs_rmdir
  apply Tidy.namei.bind
  intro r
  dsimp only
  split
  . apply Tidy.optPuts
  . apply Tidy.fail
  . apply Tidy.acquire.bind
    intro _
    apply Tidy.ite
    . apply Tidy.pure.bind
      intro _
      apply Tidy.twoPuts
    . apply Tidy.acquire.bind
      intro _
      apply (Even.access Silent.getVnode).tidy.bind
      intro vn
      apply Tidy.ite
      . apply Tidy.pure.bind
        intro _
        apply Tidy.twoPuts
      . apply Tidy.ite
        . apply Tidy.pure.bind
          intro _
          apply Tidy.twoPuts
        . apply Even.ramfs_rmdir.tidy.bind
          intro _
          apply Tidy.twoPuts

theorem Tidy.vfs_contents {ok : VType → Bool} {w : Nat} : (vfs_contents ok w).Tidy v := by
  intro b
  unfold Thread.vfs_contents
  apply Disciplined.acquire.bind
  intro _ b1 hb1
  have hheld : w = v → b1 = true := by
    intro hw
    rw [if_pos hw] at hb1
    apply hb1.2
  have hrelease : (Thread.release w).Disciplined v b1 fun _ _ => True := by
    apply (Disciplined.release hheld).mono
    intro _ _ _
    trivial
  apply (Even.access Silent.getVnode b1).bind
  intro vn b2 hb2
  rw [hb2]
  apply Disciplined.ite
  . intro _
    apply hrelease
  . intro _
    apply (Even.acquireNode b1).bind
    intro _ b3 hb3
    rw [hb3]
    apply (Even.releaseNode b1).bind
    intro _ b4 hb4
    rw [hb4]
    apply hrelease

end Thread

theorem Call.tidy {v fuel : Nat} {call : Call} : (call.thread fuel).Tidy v := by
  have hend : ∀ {x : Thread Code}, x.Tidy v → (do
      let error ← x
      pure (error, (none : Option Nat))).Tidy v := by
    intro x hx
    apply hx.bind
    intro error
    apply Thread.Tidy.pure
  cases call with
  | vfs_open name type create => apply Thread.Tidy.vfs_open
  | vfs_mkdir name => apply Thread.Tidy.vfs_mkdir
  | vfs_rmdir name => apply hend Thread.Tidy.vfs_rmdir
  | vfs_unlink name => apply hend Thread.Tidy.vfs_unlink
  | vfs_link name target => apply hend Thread.Tidy.vfs_link
  | vfs_symlink name target => apply hend Thread.Tidy.vfs_symlink
  | vfs_mount mntpoint fstype => apply hend Thread.Tidy.vfs_mount
  | vfs_unmount name => apply hend Thread.Tidy.vfs_unmount
  | vfs_close w =>
    apply Thread.Tidy.vfs_close.bind
    intro _
    apply Thread.Tidy.pure

theorem Job.tidy {v : Nat} {job : Job} : job.thread.Tidy v := by
  cases job with
  | call fuel c =>
    apply Call.tidy.bind
    intro _
    apply Thread.Tidy.pure
  | vfs_read vn =>
    unfold thread Thread.vfs_read
    apply Thread.Tidy.vfs_contents
  | vfs_write vn =>
    unfold thread Thread.vfs_write
    apply Thread.Tidy.vfs_contents
  | vfs_readdir vdir =>
    unfold thread Thread.vfs_readdir
    apply Thread.Tidy.vfs_contents
  | vfs_readlink vn =>
    unfold thread Thread.vfs_readlink
    apply Thread.Tidy.vfs_contents

theorem Job.threads_tidy {v : Nat} {jobs : List Job} : (threads jobs).Tidy v := by
  induction jobs with
  | nil => apply Thread.Tidy.pure
  | cons job jobs ih =>
    apply Job.tidy.bind
    intro _
    apply ih

end Fs
end Franklin
