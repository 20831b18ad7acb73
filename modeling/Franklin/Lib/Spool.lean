import Mathlib.Algebra.BigOperators.Group.Finset.Basic
import Mathlib.Algebra.Order.BigOperators.Group.Multiset
import Mathlib.Data.Multiset.AddSub

/-!
This module contains workers that write messages to one output under one lock, in any interleaving of their steps:
the output consists of whole messages, each of them once, and the beginning of the one that is being written.
-/

/--
Where a worker is: outside, in front of the lock with a message to write or with none, or behind it with the rest of
its message or with nothing left to write.
-/
inductive Phase (α : Type) where
  | idle
  | waiting (m : Option (List α))
  | writing (rest : List α)
  | inside

namespace Phase

variable {α : Type}

def holds : Phase α → Bool
  | idle | waiting _ => false
  | writing _ | inside => true

/--
The message that is not in the output yet, or only with its part `part`.
-/
def unfinished (part : List α) : Phase α → Multiset (List α)
  | waiting (some m) => {m}
  | writing rest => {part ++ rest}
  | idle | waiting none | inside => 0

def enter : Option (List α) → Phase α
  | some m => writing m
  | none => inside

theorem unfinished_of_not_holds {p : Phase α} (h : p.holds = false) (part part' : List α)
    : p.unfinished part = p.unfinished part' := by
  cases p with
  | idle => rfl
  | waiting m => cases m <;> rfl
  | writing rest => cases h
  | inside => cases h

end Phase

structure Spool (W α : Type) where
  lock : Bool
  out : List α
  phase : W → Phase α

namespace Spool

variable {W α : Type} [DecidableEq W]

inductive Step (s : Spool W α) : Multiset (List α) → Spool W α → Prop where
  | stay : Step s 0 s
  | start (w : W) (m : Option (List α)) : s.phase w = .idle →
    Step s (m.elim 0 fun m => {m}) { s with phase := Function.update s.phase w (.waiting m) }
  | enter (w : W) (m : Option (List α)) : s.phase w = .waiting m → s.lock = false →
    Step s 0 { s with lock := true, phase := Function.update s.phase w (Phase.enter m) }
  | write (w : W) (c : α) (cs : List α) : s.phase w = .writing (c :: cs) →
    Step s 0 { s with out := s.out ++ [c], phase := Function.update s.phase w (.writing cs) }
  | close (w : W) : s.phase w = .writing [] →
    Step s 0 { s with phase := Function.update s.phase w .inside }
  | leave (w : W) : s.phase w = .inside →
    Step s 0 { s with lock := false, phase := Function.update s.phase w .idle }

/--
The steps that lead from `s` to another state, with the messages that they come with.
-/
inductive Run (s : Spool W α) : Multiset (List α) → Spool W α → Prop where
  | refl : Run s 0 s
  | step {s' s'' : Spool W α} {msgs m : Multiset (List α)} : Run s msgs s' → Step s' m s'' → Run s (msgs + m) s''

/--
The lock is taken exactly if a worker is behind it, and then there is only one.
-/
structure Locked (s : Spool W α) : Prop where
  lock : s.lock = true ↔ ∃ w, (s.phase w).holds = true
  unique : ∀ w w', (s.phase w).holds = true → (s.phase w').holds = true → w = w'

namespace Locked

variable {s : Spool W α} {w : W} {p : Phase α}

theorem update (h : Locked s) (hp : p.holds = (s.phase w).holds) (out : List α)
    : Locked { s with out, phase := Function.update s.phase w p } := by
  have hsame : ∀ w', (Function.update s.phase w p w').holds = (s.phase w').holds := by
    intro w'
    by_cases hw : w' = w
    . rw [hw, Function.update_self, hp]
    . rw [Function.update_of_ne hw]
  constructor
  . simp only [hsame]
    exact h.lock
  . simp only [hsame]
    exact h.unique

omit [DecidableEq W] in
theorem none_holds (h : Locked s) (hlock : s.lock = false) (w : W) : (s.phase w).holds = false := by
  rw [← Bool.not_eq_true]
  intro hw
  have := h.lock.mpr ⟨w, hw⟩
  rw [hlock] at this
  cases this

theorem enter (h : Locked s) (hlock : s.lock = false) (hp : p.holds = true)
    : Locked { s with lock := true, phase := Function.update s.phase w p } := by
  have honly : ∀ w', (Function.update s.phase w p w').holds = true → w' = w := by
    intro w' hw'
    by_contra hne
    rw [Function.update_of_ne hne, h.none_holds hlock] at hw'
    cases hw'
  refine ⟨iff_of_true rfl ⟨w, by simpa using hp⟩, ?_⟩
  intro w₁ w₂ h₁ h₂
  rw [honly w₁ h₁, honly w₂ h₂]

theorem leave (h : Locked s) (hw : (s.phase w).holds = true)
    : Locked { s with lock := false, phase := Function.update s.phase w .idle } := by
  have hnone : ∀ w', (Function.update s.phase w .idle w').holds = false := by
    intro w'
    by_cases hne : w' = w
    . rw [hne, Function.update_self]
      rfl
    . rw [Function.update_of_ne hne, ← Bool.not_eq_true]
      intro hw'
      exact hne (h.unique w' w hw' hw)
  refine ⟨iff_of_false (by simp) ?_, ?_⟩
  . rintro ⟨w', hw'⟩
    rw [hnone] at hw'
    cases hw'
  . intro w₁ _ h₁
    rw [hnone] at h₁
    cases h₁

theorem step {s' : Spool W α} {m : Multiset (List α)} (h : Locked s) (hstep : Step s m s') : Locked s' := by
  cases hstep with
  | stay => exact h
  | start w m hw => exact h.update (by rw [hw]; rfl) s.out
  | enter w m _ hlock => exact h.enter hlock (by cases m <;> rfl)
  | write w c cs hw => exact h.update (by rw [hw]; rfl) _
  | close w hw => exact h.update (by rw [hw]; rfl) s.out
  | leave w hw => exact h.leave (by rw [hw]; rfl)

end Locked

/--
`whole` is what has been written since the output was `out`, in this order, and `part` the beginning of the message
that is being written. All of `msgs` are there or still to come.
-/
structure Serial (out : List α) (msgs : Multiset (List α)) (whole : List (List α)) (part : List α)
    (active : Finset W) (s : Spool W α) : Prop where
  locked : Locked s
  idle : ∀ w, w ∉ active → s.phase w = .idle
  out_eq : s.out = out ++ whole.flatten ++ part
  part_eq : part ≠ [] → ∃ w rest, s.phase w = .writing rest
  msgs_eq : msgs = ↑whole + ∑ w ∈ active, (s.phase w).unfinished part

namespace Serial

variable {out part : List α} {msgs m : Multiset (List α)} {whole : List (List α)} {active : Finset W}
    {s s' : Spool W α} {w : W} {p : Phase α}

theorem msgs_split (h : Serial out msgs whole part active s) (hw : w ∈ active)
    : msgs = ↑whole + ((s.phase w).unfinished part + ∑ w' ∈ active.erase w, (s.phase w').unfinished part) := by
  rw [h.msgs_eq, Finset.add_sum_erase active (fun w' => (s.phase w').unfinished part) hw]

theorem sum_update (f : W → Phase α) (hw : w ∈ active)
    : ∑ w' ∈ active, (Function.update f w p w').unfinished part =
        p.unfinished part + ∑ w' ∈ active.erase w, (f w').unfinished part := by
  rw [← Finset.add_sum_erase active _ hw, Function.update_self]
  congr 1
  apply Finset.sum_congr rfl
  intro w' hw'
  rw [Function.update_of_ne (Finset.ne_of_mem_erase hw')]

theorem sum_others (h : Serial out msgs whole part active s) (hw : (s.phase w).holds = true) (part' : List α)
    : ∑ w' ∈ active.erase w, (s.phase w').unfinished part = ∑ w' ∈ active.erase w, (s.phase w').unfinished part' := by
  apply Finset.sum_congr rfl
  intro w' hw'
  apply Phase.unfinished_of_not_holds
  rw [← Bool.not_eq_true]
  intro hother
  exact Finset.ne_of_mem_erase hw' (h.locked.unique w' w hother hw)

theorem mem_active (h : Serial out msgs whole part active s) (hw : s.phase w ≠ .idle) : w ∈ active := by
  by_contra hnot
  exact hw (h.idle w hnot)

omit [DecidableEq W] in
theorem part_eq_nil (h : Serial out msgs whole part active s) (hnone : ∀ w rest, s.phase w ≠ .writing rest)
    : part = [] := by
  by_contra hne
  rcases h.part_eq hne with ⟨w, rest, hw⟩
  exact hnone w rest hw

theorem idle_update (h : Serial out msgs whole part active s) (hw : w ∈ active)
    : ∀ w', w' ∉ active → Function.update s.phase w p w' = .idle := by
  intro w' hw'
  have hne : w' ≠ w := by
    rintro rfl
    exact hw' hw
  rw [Function.update_of_ne hne]
  exact h.idle w' hw'

theorem start (h : Serial out msgs whole part active s) (hw : s.phase w = .idle) (m : Option (List α))
    : Serial out (msgs + m.elim 0 fun m => {m}) whole part (insert w active)
        { s with phase := Function.update s.phase w (.waiting m) } where
  locked := h.locked.step (Step.start w m hw)
  idle := by
    intro w' hw'
    rw [Finset.mem_insert, not_or] at hw'
    dsimp only
    rw [Function.update_of_ne hw'.1]
    exact h.idle w' hw'.2
  out_eq := h.out_eq
  part_eq := by
    intro hne
    rcases h.part_eq hne with ⟨w', rest, hw'⟩
    refine ⟨w', rest, ?_⟩
    dsimp only
    rw [Function.update_of_ne, hw']
    rintro rfl
    rw [hw] at hw'
    cases hw'
  msgs_eq := by
    have hothers : ∑ w' ∈ (insert w active).erase w, (s.phase w').unfinished part =
        ∑ w' ∈ active, (s.phase w').unfinished part := by
      by_cases hmem : w ∈ active
      . rw [Finset.insert_eq_of_mem hmem, ← Finset.add_sum_erase active _ hmem, hw]
        exact (zero_add _).symm
      . rw [Finset.erase_insert hmem]
    dsimp only
    rw [sum_update _ (Finset.mem_insert_self w active), hothers, h.msgs_eq, add_assoc]
    congr 1
    rw [add_comm]
    congr 1
    cases m <;> rfl

theorem enter (h : Serial out msgs whole part active s) {m : Option (List α)} (hw : s.phase w = .waiting m)
    (hlock : s.lock = false)
    : Serial out msgs whole part active
        { s with lock := true, phase := Function.update s.phase w (Phase.enter m) } where
  locked := h.locked.step (Step.enter w m hw hlock)
  idle := h.idle_update (h.mem_active (by rw [hw]; simp))
  out_eq := h.out_eq
  part_eq := by
    intro hne
    rcases h.part_eq hne with ⟨w', rest, hw'⟩
    have := h.locked.none_holds hlock w'
    rw [hw'] at this
    cases this
  msgs_eq := by
    have hmem : w ∈ active := h.mem_active (by rw [hw]; simp)
    have hpart : part = [] := by
      apply h.part_eq_nil
      intro w' rest hw'
      have := h.locked.none_holds hlock w'
      rw [hw'] at this
      cases this
    dsimp only
    rw [sum_update _ hmem, h.msgs_split hmem, hw, hpart]
    cases m <;> rfl

theorem write (h : Serial out msgs whole part active s) {c : α} {cs : List α} (hw : s.phase w = .writing (c :: cs))
    : Serial out msgs whole (part ++ [c]) active
        { s with out := s.out ++ [c], phase := Function.update s.phase w (.writing cs) } where
  locked := h.locked.step (Step.write w c cs hw)
  idle := h.idle_update (h.mem_active (by rw [hw]; simp))
  out_eq := by
    dsimp only
    rw [h.out_eq, List.append_assoc]
  part_eq := by
    intro _
    exact ⟨w, cs, Function.update_self ..⟩
  msgs_eq := by
    have hmem : w ∈ active := h.mem_active (by rw [hw]; simp)
    dsimp only
    rw [sum_update _ hmem, h.msgs_split hmem, h.sum_others (by rw [hw]; rfl) (part ++ [c]), hw]
    simp [Phase.unfinished]

theorem close (h : Serial out msgs whole part active s) (hw : s.phase w = .writing [])
    : Serial out msgs (whole ++ [part]) [] active { s with phase := Function.update s.phase w .inside } where
  locked := h.locked.step (Step.close w hw)
  idle := h.idle_update (h.mem_active (by rw [hw]; simp))
  out_eq := by
    dsimp only
    rw [h.out_eq, List.flatten_append]
    simp
  part_eq := by simp
  msgs_eq := by
    have hmem : w ∈ active := h.mem_active (by rw [hw]; simp)
    dsimp only
    rw [sum_update _ hmem, h.msgs_split hmem, h.sum_others (by rw [hw]; rfl) [], hw, ← Multiset.coe_add]
    simp [Phase.unfinished, add_assoc]

theorem leave (h : Serial out msgs whole part active s) (hw : s.phase w = .inside)
    : Serial out msgs whole part active { s with lock := false, phase := Function.update s.phase w .idle } where
  locked := h.locked.step (Step.leave w hw)
  idle := h.idle_update (h.mem_active (by rw [hw]; simp))
  out_eq := h.out_eq
  part_eq := by
    intro hne
    rcases h.part_eq hne with ⟨w', rest, hw'⟩
    have heq : w' = w := by
      apply h.locked.unique
      . rw [hw']
        rfl
      . rw [hw]
        rfl
    rw [heq, hw] at hw'
    cases hw'
  msgs_eq := by
    have hmem : w ∈ active := h.mem_active (by rw [hw]; simp)
    dsimp only
    rw [sum_update _ hmem, h.msgs_split hmem, hw]
    rfl

theorem step (h : Serial out msgs whole part active s) (hstep : Step s m s')
    : ∃ whole' part' active', Serial out (msgs + m) whole' part' active' s' := by
  cases hstep with
  | stay => exact ⟨whole, part, active, by rwa [add_zero]⟩
  | start w m hw => exact ⟨_, _, _, h.start hw m⟩
  | enter w m hw hlock => exact ⟨_, _, _, by rw [add_zero]; exact h.enter hw hlock⟩
  | write w c cs hw => exact ⟨_, _, _, by rw [add_zero]; exact h.write hw⟩
  | close w hw => exact ⟨_, _, _, by rw [add_zero]; exact h.close hw⟩
  | leave w hw => exact ⟨_, _, _, by rw [add_zero]; exact h.leave hw⟩

end Serial

theorem Run.serial {s s' : Spool W α} {msgs : Multiset (List α)} (h : Run s msgs s') (hlock : s.lock = false)
    (hidle : ∀ w, s.phase w = .idle) : ∃ whole part active, Serial s.out msgs whole part active s' := by
  induction h with
  | refl =>
    refine ⟨[], [], ∅, ⟨?_, ?_⟩, fun w _ => hidle w, by simp, by simp, by simp⟩
    . refine iff_of_false (by simp [hlock]) ?_
      rintro ⟨w, hw⟩
      rw [hidle] at hw
      cases hw
    . intro w _ hw
      rw [hidle] at hw
      cases hw
  | step _ hstep ih =>
    rcases ih with ⟨whole, part, active, hserial⟩
    exact hserial.step hstep

end Spool
