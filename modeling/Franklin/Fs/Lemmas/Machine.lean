import Franklin.Fs.Machine
import Franklin.Fs.Lemmas.Walked

/-!
This module contains what one step of a CPU does.
-/

namespace Franklin
namespace Fs

theorem Lock.wp_acquire {v : Nat} (l : Lock) (s : St)
    : wp l.acquire (fun _ s' => s'.nextVnode = s.nextVnode ∧
        (s'.vnodes v).refcount = (s.vnodes v).refcount ∧
        if l = .vnode v then (s.vnodes v).lock = false ∧ (s'.vnodes v).lock = true
          else (s'.vnodes v).lock = (s.vnodes v).lock) (fun _ _ => True) s := by
  cases l with
  | vnode w =>
    unfold acquire Fs.acquire
    rw [wp_bind, wp_getVnode]
    refine ⟨fun _ => trivial, ?_⟩
    intro _
    cases hlock : (s.vnodes w).lock with
    | true => trivial
    | false =>
      rw [if_neg (by simp), wp_setVnode]
      by_cases hw : w = v
      . subst hw
        simp [hlock]
      . have hne : v ≠ w := Ne.symm hw
        simp [hw, hne]
  | ram n =>
    unfold acquire Fs.acquireNode
    rw [wp_bind, wp_getNode]
    cases (s.nodes n).ramlock with
    | true => trivial
    | false =>
      rw [if_neg (by simp), wp_setNode]
      simp

theorem Lock.wp_release {v : Nat} (l : Lock) (s : St)
    : wp l.release (fun _ s' => s'.nextVnode = s.nextVnode ∧
        (s'.vnodes v).refcount = (s.vnodes v).refcount ∧
        if l = .vnode v then (s'.vnodes v).lock = false
          else (s'.vnodes v).lock = (s.vnodes v).lock) (fun _ _ => True) s := by
  cases l with
  | vnode w =>
    unfold release Fs.release
    rw [wp_bind, wp_getVnode]
    refine ⟨fun _ => trivial, ?_⟩
    intro _
    rw [wp_setVnode]
    by_cases hw : w = v
    . subst hw
      simp
    . have hne : v ≠ w := Ne.symm hw
      simp [hw, hne]
  | ram n =>
    unfold release Fs.releaseNode
    rw [wp_setNode]
    simp

namespace Machine

variable {Cpu : Type} [DecidableEq Cpu] {v : Nat} {m : Machine Cpu} {c : Cpu}

theorem exec_cases {β : Type} (m : Machine Cpu) (c : Cpu) (p : Prog β) (k : β → Thread Unit)
    : (∃ r st, p m.st = .ok r st ∧ m.exec c p k = { m.put c (k r) with st }) ∨
        m.exec c p k = m ∨ ∃ e, m.exec c p k = m.put c (.stop e) := by
  unfold exec
  split
  . next r st hp => exact Or.inl ⟨r, st, hp, rfl⟩
  . exact Or.inr (Or.inl rfl)
  . next e _ _ _ => exact Or.inr (Or.inr ⟨e, rfl⟩)

theorem lock_cases (m : Machine Cpu) (c : Cpu) (l : Lock) (k : Thread Unit)
    : (∃ st, l.acquire m.st = .ok () st ∧ m.lock c l k =
        { m.put c k with
          st, holds := m.setHolds c l true, owner := Function.update m.owner l (some c) }) ∨
        m.lock c l k = m ∨ ∃ e, m.lock c l k = m.put c (.stop e) := by
  unfold lock
  split
  . next hret =>
    rcases ok_of_returns hret with ⟨_, hrun⟩
    refine Or.inl ⟨_, hrun, ?_⟩
    unfold exec
    rw [hrun]
  . next hret =>
    rcases exec_cases m c l.acquire fun _ => k with ⟨r, st, hrun, _⟩ | heq | heq
    . simp [returns, hrun] at hret
    . exact Or.inr (Or.inl heq)
    . exact Or.inr (Or.inr heq)

theorem unlock_cases (m : Machine Cpu) (c : Cpu) (l : Lock) (k : Thread Unit)
    : (∃ st, l.release m.st = .ok () st ∧ m.unlock c l k =
        { m.put c k with
          st, holds := m.setHolds c l false, owner := Function.update m.owner l none }) ∨
        m.unlock c l k = m ∨ ∃ e, m.unlock c l k = m.put c (.stop e) := by
  unfold unlock
  split
  . next hret =>
    rcases ok_of_returns hret with ⟨_, hrun⟩
    refine Or.inl ⟨_, hrun, ?_⟩
    unfold exec
    rw [hrun]
  . next hret =>
    rcases exec_cases m c l.release fun _ => k with ⟨r, st, hrun, _⟩ | heq | heq
    . simp [returns, hrun] at hret
    . exact Or.inr (Or.inl heq)
    . exact Or.inr (Or.inr heq)

theorem setHolds_self (c : Cpu) (l : Lock) (b : Bool) : m.setHolds c l b c l = b := by
  simp [setHolds]

theorem setHolds_of_ne {c c' : Cpu} {l l' : Lock} {b : Bool} (h : c' ≠ c ∨ l' ≠ l)
    : m.setHolds c l b c' l' = m.holds c' l' := by
  unfold setHolds
  by_cases hc : c' = c
  . subst hc
    rw [Function.update_self]
    cases h with
    | inl h => exact absurd rfl h
    | inr h => rw [Function.update_of_ne h]
  . rw [Function.update_of_ne hc]

@[simp]
theorem put_holds (t : Thread Unit) : (m.put c t).holds = m.holds := by
  rfl

@[simp]
theorem put_st (t : Thread Unit) : (m.put c t).st = m.st := by
  rfl

@[simp]
theorem put_thread_self (t : Thread Unit) : (m.put c t).thread c = t := by
  simp [put]

theorem put_thread_of_ne {c' : Cpu} (h : c' ≠ c) (t : Thread Unit)
    : (m.put c t).thread c' = m.thread c' := by
  simp [put, h]

theorem exec_thread_of_ne {β : Type} {c' : Cpu} (h : c' ≠ c) (p : Prog β) (k : β → Thread Unit)
    : (m.exec c p k).thread c' = m.thread c' := by
  rcases exec_cases m c p k with ⟨r, st, _, heq⟩ | heq | ⟨e, heq⟩
  . rw [heq]
    apply put_thread_of_ne h
  . rw [heq]
  . rw [heq]
    apply put_thread_of_ne h

theorem unlock_thread_of_ne {c' : Cpu} (h : c' ≠ c) (l : Lock) (k : Thread Unit)
    : (m.unlock c l k).thread c' = m.thread c' := by
  rcases unlock_cases m c l k with ⟨st, _, heq⟩ | heq | ⟨e, heq⟩
  . rw [heq]
    apply put_thread_of_ne h
  . rw [heq]
  . rw [heq]
    apply put_thread_of_ne h

theorem step_thread_of_ne {c' : Cpu} (h : c' ≠ c) : (m.step c).thread c' = m.thread c' := by
  unfold step
  split
  . rfl
  . rfl
  . next l k _ =>
    rcases lock_cases m c l k with ⟨st, _, heq⟩ | heq | ⟨e, heq⟩
    . rw [heq]
      apply put_thread_of_ne h
    . rw [heq]
    . rw [heq]
      apply put_thread_of_ne h
  . apply unlock_thread_of_ne h
  . apply unlock_thread_of_ne h
  . apply exec_thread_of_ne h
  . apply exec_thread_of_ne h
  . apply exec_thread_of_ne h

theorem exec_of_ok {β : Type} {p : Prog β} {k : β → Thread Unit} {a : β} {st : St}
    (hrun : p m.st = .ok a st) : m.exec c p k = { m.put c (k a) with st } := by
  unfold exec
  rw [hrun]

theorem step_lock {l : Lock} {k : Thread Unit} {st : St} (hthread : m.thread c = .lock l k)
    (hrun : l.acquire m.st = .ok () st)
    : m.step c =
        { m.put c k with
          st, holds := m.setHolds c l true, owner := Function.update m.owner l (some c) } := by
  unfold step
  rw [hthread]
  dsimp only
  unfold lock
  rw [if_pos (by simp [returns, hrun]), exec_of_ok hrun]

theorem unlock_of_ok {l : Lock} {k : Thread Unit} {st : St} (hrun : l.release m.st = .ok () st)
    : m.unlock c l k =
        { m.put c k with
          st, holds := m.setHolds c l false, owner := Function.update m.owner l none } := by
  unfold unlock
  rw [if_pos (by simp [returns, hrun]), exec_of_ok hrun]

theorem step_unlock {l : Lock} {k : Thread Unit} {st : St}
    (hthread : m.thread c = .unlock l k ∨ ∃ v, l = .vnode v ∧ m.thread c = .nextname v k)
    (hrun : l.release m.st = .ok () st)
    : m.step c =
        { m.put c k with
          st, holds := m.setHolds c l false, owner := Function.update m.owner l none } := by
  unfold step
  rcases hthread with hthread | ⟨v, rfl, hthread⟩
  . rw [hthread]
    apply unlock_of_ok hrun
  . rw [hthread]
    apply unlock_of_ok hrun

theorem step_atom {β : Type} {p : Prog β} {k : β → Thread Unit} {a : β} {st : St}
    (hthread : m.thread c = .atom p k) (hrun : p m.st = .ok a st)
    : m.step c = { m.put c (k a) with st } := by
  unfold step
  rw [hthread]
  apply exec_of_ok hrun

theorem Reached.trans {C : Machine Cpu → Cpu → Prop} {m1 m2 : Machine Cpu} (h1 : Reached C m m1)
    (h2 : Reached C m1 m2) : Reached C m m2 := by
  induction h2 with
  | refl => exact h1
  | step c _ hcond ih => apply ih.step c hcond

theorem Reached.head {C : Machine Cpu → Cpu → Prop} {m' : Machine Cpu} (hcond : C m c)
    (h : Reached C (m.step c) m') : Reached C m m' :=
  (Reached.refl.step c hcond).trans h

end Machine

end Fs
end Franklin
