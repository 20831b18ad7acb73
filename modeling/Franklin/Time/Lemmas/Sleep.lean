import Franklin.Time.Basic
import Mathlib.Algebra.Group.Nat.Defs

/-!
This module contains the polls at which `sleep` returns. The counter goes on below 0, hence a poll has to find
it at 0.
-/

namespace Franklin
namespace Time

variable {s : State} {us : BitVec 32} {events before after b a : List Event}

/--
At every poll after at least `us` interrupts the counter is 0, and `sleep` returns at it.
-/
def Caught (us : BitVec 32) (events : List Event) : Prop :=
  ∀ before after, events = before ++ .poll :: after →
    (run (sleep us) before).sleeping →
    us.toNat ≤ ticks before →
    (run (sleep us) before).PIT_COUNTER = 0#32 ∧ (run (sleep us) (before ++ [.poll])).sleeping = false

/--
The first poll after at least `us` interrupts comes after `us` of them, or after a multiple of 2^32 more.
-/
def InTime (us : BitVec 32) (events : List Event) : Prop :=
  ∀ before after, events = before ++ .poll :: after →
    us.toNat ≤ ticks before →
    (∀ b a, before = b ++ .poll :: a → ticks b < us.toNat) →
    2 ^ 32 ∣ ticks before - us.toNat

theorem run_append (s : State) (events events' : List Event)
    : run s (events ++ events') = run (run s events) events' :=
  List.foldl_append ..

theorem poll_PIT_COUNTER (s : State) : (poll s).PIT_COUNTER = s.PIT_COUNTER := by
  unfold poll
  split <;> rfl

theorem poll_of_zero (h : s.PIT_COUNTER = 0#32) : (poll s).sleeping = false := by
  unfold poll
  rw [h]
  by_cases hsleeping : s.sleeping
  . rw [if_pos ⟨hsleeping, by decide⟩]
  . rw [if_neg (fun h => hsleeping h.1)]
    exact Bool.eq_false_iff.mpr hsleeping

theorem poll_of_ne (h : s.PIT_COUNTER ≠ 0#32) : poll s = s := by
  unfold poll
  rw [if_neg]
  rintro ⟨-, hle⟩
  exact hle ((BitVec.pos_iff_ne_zero _).mpr h)

theorem sleeping_of_step {e : Event} (h : (step s e).sleeping) : s.sleeping := by
  cases e with
  | timerh => exact h
  | poll =>
    rw [step] at h
    unfold poll at h
    split at h
    . next hcond => exact hcond.1
    . exact h

theorem sleeping_of_run (h : (run s events).sleeping) : s.sleeping := by
  induction events generalizing s with
  | nil => exact h
  | cons e events ih => exact sleeping_of_step (ih h)

theorem run_PIT_COUNTER (s : State) (events : List Event)
    : (run s events).PIT_COUNTER = s.PIT_COUNTER - BitVec.ofNat 32 (ticks events) := by
  induction events generalizing s with
  | nil => exact (BitVec.sub_zero _).symm
  | cons e events ih =>
    rw [run, List.foldl_cons]
    refine (ih _).trans ?_
    cases e with
    | timerh =>
      unfold ticks
      rw [List.count_cons_self, BitVec.ofNat_add, BitVec.add_comm, ← BitVec.sub_sub]
      rfl
    | poll =>
      unfold ticks
      rw [List.count_cons_of_ne (by decide), step, poll_PIT_COUNTER]

theorem PIT_COUNTER_eq_zero_iff (h : us.toNat ≤ ticks events)
    : (run (sleep us) events).PIT_COUNTER = 0#32 ↔ 2 ^ 32 ∣ ticks events - us.toNat := by
  have hus := us.isLt
  rw [run_PIT_COUNTER, BitVec.sub_eq_iff_eq_add, BitVec.zero_add, ← BitVec.toNat_inj, BitVec.toNat_ofNat]
  change us.toNat = _ ↔ _
  rw [← Nat.modEq_iff_dvd' h]
  unfold Nat.ModEq
  rw [Nat.mod_eq_of_lt hus]

theorem PIT_COUNTER_ne_zero (h : ticks events < us.toNat) : (run (sleep us) events).PIT_COUNTER ≠ 0#32 := by
  have hus := us.isLt
  rw [run_PIT_COUNTER]
  intro hzero
  rw [BitVec.sub_eq_iff_eq_add, BitVec.zero_add, ← BitVec.toNat_inj, BitVec.toNat_ofNat,
    Nat.mod_eq_of_lt (by omega)] at hzero
  change us.toNat = _ at hzero
  omega

theorem sleeping_of_early (h : ∀ b a, events = b ++ .poll :: a → ticks b < us.toNat)
    : (run (sleep us) events).sleeping := by
  induction events using List.reverseRecOn with
  | nil => rfl
  | append_singleton events e ih =>
    have hsleeping := ih fun b a hb => h b (a ++ [e]) (by rw [hb, List.append_assoc, List.cons_append])
    rw [run_append]
    cases e with
    | timerh => exact hsleeping
    | poll =>
      have hne := PIT_COUNTER_ne_zero (h events [] rfl)
      change (poll (run (sleep us) events)).sleeping
      rw [poll_of_ne hne]
      exact hsleeping

theorem InTime.early (h : InTime us events) (hbefore : events = before ++ after)
    (hsleeping : (run (sleep us) before).sleeping) : ∀ b a, before = b ++ .poll :: a → ticks b < us.toNat := by
  induction hn : before.length using Nat.strongRecOn generalizing before after with
  | ind n ih =>
    rintro b a rfl
    rw [List.append_cons, run_append, run_append] at hsleeping
    have hpoll := sleeping_of_run hsleeping
    rw [List.append_assoc, List.cons_append] at hbefore
    have hb : (run (sleep us) b).sleeping := @sleeping_of_run _ [.poll] hpoll
    rw [List.length_append, List.length_cons] at hn
    have hearly := ih b.length (by omega) hbefore hb rfl
    by_contra hlate
    have hle : us.toNat ≤ ticks b := Nat.le_of_not_lt hlate
    have hzero := (PIT_COUNTER_eq_zero_iff hle).mpr (h b (a ++ after) hbefore hle hearly)
    have hreturned : (run (run (sleep us) b) [.poll]).sleeping = false := poll_of_zero hzero
    rw [hreturned] at hpoll
    cases hpoll

theorem sleep_caught_iff (us : BitVec 32) (events : List Event) : Caught us events ↔ InTime us events := by
  constructor
  . intro h before after hbefore hle hearly
    exact (PIT_COUNTER_eq_zero_iff hle).mp (h before after hbefore (sleeping_of_early hearly) hle).1
  . intro h before after hbefore hsleeping hle
    have hearly := h.early hbefore hsleeping
    have hzero := (PIT_COUNTER_eq_zero_iff hle).mpr (h before after hbefore hle hearly)
    refine ⟨hzero, ?_⟩
    rw [run_append]
    exact poll_of_zero hzero

theorem sleep_two_ticks : ¬ Caught 1#32 [.timerh, .timerh, .poll] := by
  intro h
  have hzero := (h [.timerh, .timerh] [] rfl rfl (by decide)).1
  exact absurd hzero (by decide)

end Time
end Franklin
