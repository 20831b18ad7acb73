import Franklin.Fs.Lemmas.Machine
import Franklin.Fs.Lemmas.Disciplined

/-!
This module contains when the lock of a vnode excludes other CPUs: as long as none of them enters
`vfs_close` while another one holds the lock.
-/

namespace Franklin
namespace Fs

namespace Machine

variable {Cpu : Type} [DecidableEq Cpu] {v : Nat} {m : Machine Cpu} {c : Cpu}

/--
The CPU `c` does not see the lock of `v` taken by another CPU in `vfs_close`, and has it at the label
`nextname`.
-/
def Clean (v : Nat) (m : Machine Cpu) (c : Cpu) : Prop :=
  match m.thread c with
  | .trylock w _ => w = v → (m.st.vnodes v).lock = true → m.holds c (.vnode v) = true
  | .nextname w _ => w = v → m.holds c (.vnode v) = true
  | _ => True

/--
The next step of the CPU `c` is a `release` of the lock of `v`.
-/
def releases (v : Nat) (m : Machine Cpu) (c : Cpu) : Bool :=
  match m.thread c with
  | .unlock l _ => l = .vnode v
  | .nextname w _ => w = v
  | _ => false

structure Exclusive (v : Nat) (m : Machine Cpu) : Prop where
  lt : v < m.st.nextVnode
  set : ∀ c, m.holds c (.vnode v) = true → (m.st.vnodes v).lock = true
  unique : ∀ c c', m.holds c (.vnode v) = true → m.holds c' (.vnode v) = true → c = c'
  disciplined : ∀ c, (m.thread c).Disciplined v (m.holds c (.vnode v)) fun _ _ => True

namespace Exclusive

theorem put (h : Exclusive v m) {st : St} {t : Thread Unit} (hlt : v < st.nextVnode)
    (hlock : (st.vnodes v).lock = (m.st.vnodes v).lock)
    (ht : t.Disciplined v (m.holds c (.vnode v)) fun _ _ => True)
    : Exclusive v { m.put c t with st } := by
  constructor
  case lt => exact hlt
  case set =>
    intro c' hc'
    dsimp only
    rw [hlock]
    apply h.set c' hc'
  case unique => exact h.unique
  case disciplined =>
    intro c'
    by_cases hc : c' = c
    . subst hc
      dsimp only
      rw [put_thread_self]
      apply ht
    . dsimp only
      rw [put_thread_of_ne hc]
      apply h.disciplined c'

theorem exec (h : Exclusive v m) {β : Type} {p : Prog β} {k : β → Thread Unit}
    (hp : wp p (fun r s' => v < s'.nextVnode ∧ (s'.vnodes v).lock = (m.st.vnodes v).lock ∧
      (k r).Disciplined v (m.holds c (.vnode v)) fun _ _ => True) (fun _ _ => True) m.st)
    : Exclusive v (m.exec c p k) := by
  rcases exec_cases m c p k with ⟨r, st, hrun, heq⟩ | heq | ⟨e, heq⟩
  . rw [heq]
    have hst := (wp_of_ok hrun).mp hp
    apply h.put hst.1 hst.2.1 hst.2.2
  . rw [heq]
    apply h
  . rw [heq]
    apply h.put h.lt rfl
    trivial

theorem set_holds (h : Exclusive v m) {st : St} {k : Thread Unit} {l : Lock} {b : Bool}
    {owner : Lock → Option Cpu} (hlt : v < st.nextVnode)
    (hlock : if l = .vnode v then (st.vnodes v).lock = b ∧ ∀ c' ≠ c, m.holds c' (.vnode v) = false
      else (st.vnodes v).lock = (m.st.vnodes v).lock)
    (hk : k.Disciplined v (if l = .vnode v then b else m.holds c (.vnode v)) fun _ _ => True)
    : Exclusive v { m.put c k with st, holds := m.setHolds c l b, owner } := by
  by_cases hl : l = .vnode v
  . subst hl
    rw [if_pos rfl] at hlock hk
    have hholds : ∀ c', m.setHolds c (.vnode v) b c' (.vnode v) = true → c' = c ∧ b = true := by
      intro c' hc'
      by_cases hc : c' = c
      . rw [hc, setHolds_self] at hc'
        exact ⟨hc, hc'⟩
      . rw [setHolds_of_ne (Or.inl hc), hlock.2 c' hc] at hc'
        cases hc'
    constructor
    case lt => exact hlt
    case set =>
      intro c' hc'
      rw [← (hholds c' hc').2]
      exact hlock.1
    case unique =>
      intro c1 c2 h1 h2
      rw [(hholds c1 h1).1, (hholds c2 h2).1]
    case disciplined =>
      intro c'
      by_cases hc : c' = c
      . subst hc
        dsimp only
        rw [put_thread_self, setHolds_self]
        apply hk
      . dsimp only
        rw [put_thread_of_ne hc, setHolds_of_ne (Or.inl hc)]
        apply h.disciplined c'
  . rw [if_neg hl] at hlock hk
    have hholds : ∀ c', m.setHolds c l b c' (.vnode v) = m.holds c' (.vnode v) := by
      intro c'
      apply setHolds_of_ne
      exact Or.inr (Ne.symm hl)
    have hput := h.put hlt hlock hk
    constructor
    case lt => exact hlt
    case set =>
      intro c'
      dsimp only
      rw [hholds]
      apply hput.set c'
    case unique =>
      intro c1 c2
      dsimp only
      rw [hholds, hholds]
      apply hput.unique c1 c2
    case disciplined =>
      intro c'
      dsimp only
      rw [hholds]
      apply hput.disciplined c'

theorem unlock (h : Exclusive v m) {l : Lock} {k : Thread Unit}
    (hheld : l = .vnode v → m.holds c (.vnode v) = true)
    (hk : k.Disciplined v (if l = .vnode v then false else m.holds c (.vnode v)) fun _ _ => True)
    : Exclusive v (m.unlock c l k) := by
  rcases unlock_cases m c l k with ⟨st, hrun, heq⟩ | heq | ⟨e, heq⟩
  . rw [heq]
    rcases (wp_of_ok hrun).mp (l.wp_release (v := v) m.st) with ⟨hnext, _, hlock⟩
    apply h.set_holds _ _ hk
    . rw [hnext]
      apply h.lt
    . split
      . next hl =>
        rw [if_pos hl] at hlock
        refine ⟨hlock, ?_⟩
        intro c' hc'
        cases hb : m.holds c' (.vnode v) with
        | false => rfl
        | true => exact absurd (h.unique c' c hb (hheld hl)) hc'
      . next hl =>
        rw [if_neg hl] at hlock
        apply hlock
  . rw [heq]
    apply h
  . rw [heq]
    apply h.put h.lt rfl
    trivial

theorem lock (h : Exclusive v m) {l : Lock} {k : Thread Unit}
    (hk : m.holds c (.vnode v) = false ∨ l ≠ .vnode v →
      k.Disciplined v (if l = .vnode v then true else m.holds c (.vnode v)) fun _ _ => True)
    : Exclusive v (m.lock c l k) := by
  rcases lock_cases m c l k with ⟨st, hrun, heq⟩ | heq | ⟨e, heq⟩
  . rw [heq]
    rcases (wp_of_ok hrun).mp (l.wp_acquire (v := v) m.st) with ⟨hnext, _, hlock⟩
    -- the lock was free, so nobody has it
    have hnobody : l = .vnode v → ∀ c', m.holds c' (.vnode v) = false := by
      intro hl c'
      rw [if_pos hl] at hlock
      cases hb : m.holds c' (.vnode v) with
      | false => rfl
      | true =>
        rw [h.set c' hb] at hlock
        cases hlock.1
    apply h.set_holds
    . rw [hnext]
      apply h.lt
    . split
      . next hl =>
        rw [if_pos hl] at hlock
        exact ⟨hlock.2, fun c' _ => hnobody hl c'⟩
      . next hl =>
        rw [if_neg hl] at hlock
        apply hlock
    . apply hk
      by_cases hl : l = .vnode v
      . exact Or.inl (hnobody hl c)
      . exact Or.inr hl
  . rw [heq]
    apply h
  . rw [heq]
    apply h.put h.lt rfl
    trivial

theorem step (h : Exclusive v m) (hclean : Clean v m c) : Exclusive v (m.step c) := by
  have hd := h.disciplined c
  unfold Clean at hclean
  unfold Machine.step
  cases hthread : m.thread c with
  | ret a => apply h
  | stop e => apply h
  | lock l k =>
    rw [hthread, Thread.disciplined_lock] at hd
    apply h.lock
    intro hfree
    split
    . next hl =>
      rw [if_pos hl] at hd
      cases hfree with
      | inl hfree => apply hd hfree
      | inr hne => exact absurd hl hne
    . next hl =>
      rw [if_neg hl] at hd
      apply hd
  | unlock l k =>
    rw [hthread, Thread.disciplined_unlock] at hd
    apply h.unlock
    . intro hl
      rw [if_pos hl] at hd
      apply hd.1
    . split
      . next hl =>
        rw [if_pos hl] at hd
        apply hd.2
      . next hl =>
        rw [if_neg hl] at hd
        apply hd
  | nextname w k =>
    rw [hthread] at hd hclean
    rw [Thread.disciplined_nextname] at hd
    apply h.unlock
    . intro hl
      rw [Lock.vnode.injEq] at hl
      apply hclean hl
    . simp only [Lock.vnode.injEq]
      split
      . next hw =>
        rw [if_pos hw] at hd
        apply hd
      . next hw =>
        rw [if_neg hw] at hd
        apply hd
  | trylock w k =>
    rw [hthread] at hd hclean
    rw [Thread.disciplined_trylock] at hd
    apply h.exec
    rw [wp_getVnode]
    refine ⟨fun _ => trivial, ?_⟩
    intro _
    refine ⟨h.lt, rfl, ?_⟩
    split at hd
    . next hw =>
      subst hw
      have hseen : (m.st.vnodes w).lock = m.holds c (.vnode w) := by
        cases hb : m.holds c (.vnode w) with
        | true => apply h.set c hb
        | false =>
          cases hlock : (m.st.vnodes w).lock with
          | false => rfl
          | true =>
            rw [hclean rfl hlock] at hb
            cases hb
      rw [hseen]
      apply hd
    . apply hd
  | count w d k =>
    rw [hthread] at hd
    apply h.exec
    have hcount : wp (addRefs w d) (fun _ s' => s'.nextVnode = m.st.nextVnode ∧
        (s'.vnodes v).lock = (m.st.vnodes v).lock) (fun _ _ => True) m.st := by
      unfold addRefs
      rw [wp_bind, wp_getVnode]
      refine ⟨fun _ => trivial, ?_⟩
      intro _
      split
      . trivial
      . rw [wp_bind, wp_setVnode, wp_pure]
        refine ⟨rfl, ?_⟩
        by_cases hw : v = w
        . subst hw
          simp
        . simp [hw]
    apply wp_mono hcount
    . intro r s' hs'
      refine ⟨?_, hs'.2, hd.2 r⟩
      rw [hs'.1]
      apply h.lt
    . intro e s' he
      apply he
  | atom p k =>
    rw [hthread] at hd
    apply h.exec
    rw [wp_iff]
    constructor
    . intro r s' hrun
      have hs' := (wp_of_ok hrun).mp (hd.1 m.st h.lt)
      exact ⟨hs'.1, hs'.2.1, hd.2 m.st r s' h.lt hrun⟩
    . intro e s' _
      trivial

omit [DecidableEq Cpu] in
theorem not_releases (h : Exclusive v m) (hclean : Clean v m c)
    (hfree : m.holds c (.vnode v) = false) : m.releases v c = false := by
  have hd := h.disciplined c
  unfold releases
  unfold Clean at hclean
  rw [hfree] at hclean hd
  cases hthread : m.thread c with
  | ret a => rfl
  | stop e => rfl
  | lock l k => rfl
  | trylock w k => rfl
  | count w d k => rfl
  | atom p k => rfl
  | unlock l k =>
    rw [hthread, Thread.disciplined_unlock] at hd
    split at hd
    . cases hd.1
    . next hl => simpa using hl
  | nextname w k =>
    rw [hthread] at hclean
    by_cases hw : w = v
    . cases hclean hw
    . simpa using hw

theorem exec_refcount {β : Type} {p : Prog β} {k : β → Thread Unit}
    (hp : wp p (fun _ s' => (s'.vnodes v).refcount = (m.st.vnodes v).refcount) (fun _ _ => True) m.st)
    : ((m.exec c p k).st.vnodes v).refcount = (m.st.vnodes v).refcount := by
  rcases exec_cases m c p k with ⟨r, st, hrun, heq⟩ | heq | ⟨e, heq⟩
  . rw [heq]
    exact (wp_of_ok hrun).mp hp
  . rw [heq]
  . rw [heq]
    rfl

theorem unlock_refcount {l : Lock} {k : Thread Unit}
    : ((m.unlock c l k).st.vnodes v).refcount = (m.st.vnodes v).refcount := by
  rcases unlock_cases m c l k with ⟨st, hrun, heq⟩ | heq | ⟨e, heq⟩
  . rw [heq]
    exact ((wp_of_ok hrun).mp (l.wp_release (v := v) m.st)).2.1
  . rw [heq]
  . rw [heq]
    rfl

theorem step_refcount (h : Exclusive v m) (hfree : m.holds c (.vnode v) = false)
    : ((m.step c).st.vnodes v).refcount = (m.st.vnodes v).refcount := by
  have hd := h.disciplined c
  unfold Machine.step
  cases hthread : m.thread c with
  | ret a => rfl
  | stop e => rfl
  | lock l k =>
    dsimp only
    rcases lock_cases m c l k with ⟨st, hrun, heq⟩ | heq | ⟨e, heq⟩
    . rw [heq]
      exact ((wp_of_ok hrun).mp (l.wp_acquire (v := v) m.st)).2.1
    . rw [heq]
    . rw [heq]
      rfl
  | unlock l k => apply unlock_refcount
  | nextname w k => apply unlock_refcount
  | trylock w k =>
    apply exec_refcount
    rw [wp_getVnode]
    exact ⟨fun _ => trivial, fun _ => rfl⟩
  | count w d k =>
    rw [hthread, hfree] at hd
    have hw : v ≠ w := by
      intro hw
      cases hd.1 hw.symm
    apply exec_refcount
    unfold addRefs
    rw [wp_bind, wp_getVnode]
    refine ⟨fun _ => trivial, ?_⟩
    intro _
    split
    . trivial
    . rw [wp_bind, wp_setVnode, wp_pure]
      simp [hw]
  | atom p k =>
    rw [hthread] at hd
    apply exec_refcount
    apply wp_mono (hd.1 m.st h.lt)
    . intro r s' hs'
      exact hs'.2.2
    . intro e s' he
      apply he

end Exclusive

theorem Reached.exclusive {st : St} {thread : Cpu → Thread Unit} (hv : v < st.nextVnode)
    (hthread : ∀ c, (thread c).Tidy v) (h : Reached (Clean v) (start st thread) m)
    : Exclusive v m := by
  induction h with
  | refl =>
    constructor
    case lt => exact hv
    case set =>
      intro c hc
      cases hc
    case unique =>
      intro c c' hc
      cases hc
    case disciplined =>
      intro c
      apply hthread c
  | step c _ hcond ih => apply ih.step hcond

end Machine

/--
As long as one CPU has the lock of `v`, no other CPU gives it back or changes the refcount of `v`.
-/
theorem lock_excludes {Cpu : Type} [DecidableEq Cpu] {v : Nat} {st : St} (hv : v < st.nextVnode)
    (jobs : Cpu → List Job) {m : Machine Cpu}
    (h : Machine.Reached (Machine.Clean v) (.start st fun c => Job.threads (jobs c)) m) {c c' : Cpu}
    (hne : c' ≠ c) (hholds : m.holds c' (.vnode v) = true) (hclean : m.Clean v c)
    : m.releases v c = false ∧ ((m.step c).st.vnodes v).refcount = (m.st.vnodes v).refcount := by
  have hexcl := h.exclusive hv fun _ => Job.threads_tidy
  have hfree : m.holds c (.vnode v) = false := by
    cases hb : m.holds c (.vnode v) with
    | false => rfl
    | true => exact absurd (hexcl.unique c' c hholds hb) hne
  exact ⟨hexcl.not_releases hclean hfree, hexcl.step_refcount hfree⟩

@[irreducible]
def openedTwice : St :=
  after (do
    boot
    let _ ← vfs_create "/f".toList .VREG 1
    let _ ← vfs_open "/f".toList .VREG false 1) (.empty zeroed)

def besideRead (job : Job) : Machine Bool :=
  .start openedTwice fun c => Job.threads (if c then [job] else [.vfs_read 1])

theorem lock_excludes_read
    : ((besideRead (.vfs_read 1)).step false).holds false (.vnode 1) = true ∧
        ((besideRead (.vfs_read 1)).step false).releases 1 true = false := by
  have hholds : ((besideRead (.vfs_read 1)).step false).holds false (.vnode 1) = true := by
    decide +kernel
  refine ⟨hholds, ?_⟩
  have hreached : Machine.Reached (Machine.Clean 1) (besideRead (.vfs_read 1))
      ((besideRead (.vfs_read 1)).step false) := by
    apply Machine.Reached.step false Machine.Reached.refl
    trivial
  apply (lock_excludes (by decide +kernel) _ hreached (by decide : false ≠ true) hholds _).1
  unfold Machine.Clean
  rw [Machine.step_thread_of_ne (by decide)]
  trivial

theorem lock_excludes_not_close
    : ∃ m, Machine.Reached Machine.Any (besideRead (.call 1 (.vfs_close 1))) m ∧
        m.holds false (.vnode 1) = true ∧ (m.st.vnodes 1).refcount = 2 ∧
        ((m.step true).st.vnodes 1).refcount = 1 ∧
        (m.step true).holds false (.vnode 1) = true ∧ (m.step true).releases 1 true = true := by
  refine ⟨(((besideRead (.call 1 (.vfs_close 1))).step false).step true).step true, ?_, ?_⟩
  . apply Machine.Reached.step true _ trivial
    apply Machine.Reached.step true _ trivial
    apply Machine.Reached.step false Machine.Reached.refl trivial
  . refine ⟨?_, ?_, ?_, ?_, ?_⟩
    . decide +kernel
    . decide +kernel
    . decide +kernel
    . decide +kernel
    . decide +kernel

end Fs
end Franklin
