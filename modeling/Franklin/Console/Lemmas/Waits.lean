import Franklin.Console.Basic

/-!
This module contains when the CPU waits for `spinlock` while the code that it has interrupted holds the
lock.
-/

namespace Franklin
namespace Console

namespace Point

def isAcquire : Point → Bool
  | acquire _ => true
  | write _ | set _ | wait | release => false

def holds : Point → Bool
  | acquire _ => false
  | write _ | set _ | wait | release => true

theorem body_holds (call : Call) : call.body.holds = true := by
  cases call with
  | print | printl | sleep => rfl

end Point

namespace State

variable {T : Type} {s s' : State T} {t : T}

def Holds (s : State T) (t : T) : Prop :=
  ∃ p, s.thread t = some p ∧ p.holds = true

def Acquires (s : State T) (t : T) : Prop :=
  ∃ p, s.thread t = some p ∧ p.isAcquire = true

/--
The CPU is in `acquire(&spinlock)`, and code that it has interrupted holds the lock.
-/
def Waits (s : State T) : Prop :=
  match s.handler with
  | some h => h.point.isAcquire = true ∧ ∃ t, s.Holds t
  | none => s.Acquires s.current ∧ ∃ t, t ≠ s.current ∧ s.Holds t

def prints (s : State T) (keycode : Byte) : Bool :=
  s.key_release = 0 && keycode != 0xF0 && keycode != 0x12 && keycode != 0x58

/--
While a thread holds the lock no key is pressed that is printed, and no other thread begins a call or is
resumed in `acquire`.
-/
def Quiet (s : State T) : Event T → Prop
  | .call _ => s.handler = none → s.thread s.current = none → ∀ t, t ≠ s.current → ¬ s.Holds t
  | .kbd keycode => s.handler = none → s.prints keycode = true → ∀ t, ¬ s.Holds t
  | .apic_timer t => s.handler = none → s.Acquires t → ∀ t', t' ≠ t → ¬ s.Holds t'
  | .step | .timer => True

/--
The lock is taken exactly if a thread or the handler holds it, and nobody waits for it.
-/
structure Free (s : State T) : Prop where
  lock : s.spinlock = true ↔ (∃ t, s.Holds t) ∨ ∃ h, s.handler = some h ∧ h.point.holds = true
  unique : ∀ t t', s.Holds t → s.Holds t' → t = t'
  handler : s.handler ≠ none → ∀ t, ¬ s.Holds t
  current : s.Acquires s.current → ∀ t, t ≠ s.current → ¬ s.Holds t

structure Same (s s' : State T) : Prop where
  spinlock : s'.spinlock = s.spinlock
  thread : s'.thread = s.thread
  current : s'.current = s.current
  handler : s'.handler = s.handler

theorem exec_cases (s : State T) (p : Point)
    : (p.isAcquire = true ∧ s.spinlock = true ∧ s.exec p = (s, some p)) ∨
        (∃ q : Point, p.isAcquire = true ∧ s.spinlock = false ∧ q.holds = true ∧
          s.exec p = ({ s with spinlock := true }, some q)) ∨
        (∃ s' q, p.holds = true ∧ q.holds = true ∧ Same s s' ∧ s.exec p = (s', some q)) ∨
        (p.holds = true ∧ s.exec p = ({ s with spinlock := false }, none)) := by
  have hsame : Same s s := ⟨rfl, rfl, rfl, rfl⟩
  cases p with
  | acquire call =>
    unfold exec
    cases hlock : s.spinlock with
    | true => exact Or.inl ⟨rfl, rfl, rfl⟩
    | false => exact Or.inr (Or.inl ⟨call.body, rfl, rfl, Point.body_holds call, rfl⟩)
  | write cs =>
    cases cs with
    | nil => exact Or.inr (Or.inr (Or.inl ⟨s, .release, rfl, rfl, hsame, rfl⟩))
    | cons c cs =>
      refine Or.inr (Or.inr (Or.inl ⟨{ s with screen := s.screen ++ [c] }, .write cs, rfl, rfl, ?_, rfl⟩))
      exact ⟨rfl, rfl, rfl, rfl⟩
  | set us =>
    refine Or.inr (Or.inr (Or.inl ⟨{ s with PIT_COUNTER := us }, .wait, rfl, rfl, ?_, rfl⟩))
    exact ⟨rfl, rfl, rfl, rfl⟩
  | wait =>
    by_cases hcounter : 0 < s.PIT_COUNTER
    . exact Or.inr (Or.inr (Or.inl ⟨s, .wait, rfl, rfl, hsame, if_pos hcounter⟩))
    . exact Or.inr (Or.inr (Or.inl ⟨s, .release, rfl, rfl, hsame, if_neg hcounter⟩))
  | release => exact Or.inr (Or.inr (Or.inr ⟨rfl, rfl⟩))

theorem Holds.of_thread (hthread : s'.thread = s.thread) : s'.Holds t ↔ s.Holds t := by
  unfold Holds
  rw [hthread]

theorem Acquires.of_thread (hthread : s'.thread = s.thread) : s'.Acquires t ↔ s.Acquires t := by
  unfold Acquires
  rw [hthread]

theorem kbd_press_cases (beyond : Byte → Byte) (hhandler : s.handler = none) (keycode : Byte)
    : (s.prints keycode = true ∧ ∃ cs, s.kbd_press beyond keycode =
          { s with handler := some ⟨keycode, .acquire (.print cs)⟩ }) ∨
        (s.prints keycode = false ∧ Same s (s.kbd_press beyond keycode)) := by
  unfold kbd_press prints
  by_cases hf0 : keycode = 0xF0
  . right
    simp only [hf0, eoi]
    exact ⟨by simp, rfl, rfl, rfl, hhandler.symm⟩
  rw [if_neg hf0]
  dsimp only
  by_cases h12 : keycode = 0x12
  . right
    have h58 : ¬ keycode = 0x58 := by simp [h12]
    rw [if_pos h12, if_neg h58, if_neg (not_not.mpr h12), ite_self]
    exact ⟨by simp [h12], rfl, rfl, rfl, hhandler.symm⟩
  rw [if_neg h12]
  by_cases hrelease : s.key_release = 0
  . rw [if_pos hrelease]
    by_cases h58 : keycode = 0x58
    . right
      rw [if_pos h58]
      exact ⟨by simp [h58], rfl, rfl, rfl, hhandler.symm⟩
    . left
      rw [if_neg h58, if_pos h12]
      refine ⟨?_, _, rfl⟩
      simp only [hrelease, bne_iff_ne.mpr hf0, bne_iff_ne.mpr h12, bne_iff_ne.mpr h58]
      rfl
  . right
    rw [if_neg hrelease]
    simp only [hrelease]
    exact ⟨rfl, rfl, rfl, rfl, hhandler.symm⟩

namespace Free

theorem of_same (h : Free s) (hsame : Same s s') : Free s' := by
  constructor
  case lock =>
    simp only [Holds.of_thread hsame.thread]
    rw [hsame.spinlock, hsame.handler]
    exact h.lock
  case unique =>
    simp only [Holds.of_thread hsame.thread]
    exact h.unique
  case handler =>
    simp only [Holds.of_thread hsame.thread]
    rw [hsame.handler]
    exact h.handler
  case current =>
    simp only [Holds.of_thread hsame.thread]
    rw [hsame.current, Acquires.of_thread hsame.thread]
    exact h.current

theorem of_none (hnone : ∀ t, ¬ s.Holds t)
    (hlock : s.spinlock = true ↔ ∃ h, s.handler = some h ∧ h.point.holds = true) : Free s := by
  constructor
  case lock =>
    rw [hlock]
    constructor
    . intro hh
      exact Or.inr hh
    . rintro (⟨t, ht⟩ | hh)
      . exact absurd ht (hnone t)
      . exact hh
  case unique =>
    intro t _ ht
    exact absurd ht (hnone t)
  case handler => exact fun _ => hnone
  case current => exact fun _ t _ => hnone t

theorem not_holds_of_same (hthread : s'.thread = s.thread) (hnone : ∀ t, ¬ s.Holds t)
    : ∀ t, ¬ s'.Holds t := by
  intro t
  rw [Holds.of_thread hthread]
  exact hnone t

theorem of_holds (hhandler : s.handler = none) (hlock : s.spinlock = true)
    (hholds : ∀ t, s.Holds t ↔ t = s.current) : Free s := by
  constructor
  case lock => exact iff_of_true hlock (Or.inl ⟨s.current, (hholds _).mpr rfl⟩)
  case unique =>
    intro t t' ht ht'
    rw [(hholds t).mp ht, (hholds t').mp ht']
  case handler =>
    intro hne
    exact absurd hhandler hne
  case current =>
    intro _ t hne ht
    exact hne ((hholds t).mp ht)

variable [DecidableEq T]

theorem step_handler (h : Free s) {hd : Handler} (hhandler : s.handler = some hd) : Free s.step := by
  have hnone : ∀ t, ¬ s.Holds t := h.handler (by simp [hhandler])
  have hlock : s.spinlock = true ↔ hd.point.holds = true := by
    rw [h.lock]
    constructor
    . rintro (⟨t, ht⟩ | ⟨hd', heq, hh⟩)
      . exact absurd ht (hnone t)
      . rw [hhandler, Option.some.injEq] at heq
        rw [heq]
        exact hh
    . intro hh
      exact Or.inr ⟨hd, hhandler, hh⟩
  unfold step
  rw [hhandler]
  dsimp only
  rcases exec_cases s hd.point with ⟨_, _, heq⟩ | ⟨q, _, _, hq, heq⟩ | ⟨s', q, hp, hq, hsame, heq⟩ |
    ⟨hp, heq⟩
  . rw [heq]
    apply of_none
    . exact not_holds_of_same rfl hnone
    . simp [hlock]
  . rw [heq]
    apply of_none
    . exact not_holds_of_same rfl hnone
    . simp [hq]
  . rw [heq]
    apply of_none
    . exact not_holds_of_same hsame.thread hnone
    . simp [hsame.spinlock, hlock, hp, hq]
  . rw [heq]
    apply of_none
    . exact not_holds_of_same rfl hnone
    . simp [eoi]

omit [DecidableEq T] in
theorem holds_iff (h : Free s) {p : Point} (hthread : s.thread s.current = some p)
    (hp : p.holds = true) (t : T) : s.Holds t ↔ t = s.current := by
  have hcurrent : s.Holds s.current := ⟨p, hthread, hp⟩
  constructor
  . intro ht
    exact h.unique t s.current ht hcurrent
  . intro ht
    rw [ht]
    exact hcurrent

theorem step_thread (h : Free s) (hhandler : s.handler = none) {p : Point}
    (hthread : s.thread s.current = some p) : Free s.step := by
  unfold step
  rw [hhandler]
  dsimp only
  rw [hthread]
  dsimp only
  rcases exec_cases s p with ⟨_, _, heq⟩ | ⟨q, _, hfree, hq, heq⟩ | ⟨s', q, hp, hq, hsame, heq⟩ |
    ⟨hp, heq⟩
  . rw [heq]
    dsimp only
    rw [← hthread, Function.update_eq_self]
    exact h
  . -- the lock is free, so that the current thread is the only one that holds it
    have hnone : ∀ t, ¬ s.Holds t := by
      intro t ht
      rw [h.lock.mpr (Or.inl ⟨t, ht⟩)] at hfree
      cases hfree
    rw [heq]
    apply of_holds
    . exact hhandler
    . rfl
    . intro t
      by_cases ht : t = s.current
      . simp [Holds, ht, hq]
      . simpa [Holds, ht] using hnone t
  . rw [heq]
    apply of_holds
    . rw [← hhandler]
      exact hsame.handler
    . rw [← h.lock.mpr (Or.inl ⟨s.current, p, hthread, hp⟩)]
      exact hsame.spinlock
    . intro t
      dsimp only
      rw [hsame.current]
      by_cases ht : t = s.current
      . simp [Holds, ht, hq]
      . simpa [Holds, ht] using (h.holds_iff hthread hp t).not.mpr ht
  . rw [heq]
    apply of_none
    . intro t
      by_cases ht : t = s.current
      . simp [Holds, ht]
      . simpa [Holds, ht] using (h.holds_iff hthread hp t).not.mpr ht
    . simp [hhandler]

theorem step (h : Free s) : Free s.step := by
  cases hhandler : s.handler with
  | some hd => exact h.step_handler hhandler
  | none =>
    cases hthread : s.thread s.current with
    | some p => exact h.step_thread hhandler hthread
    | none =>
      have hsame : s.step = s := by
        unfold State.step
        rw [hhandler]
        dsimp only
        rw [hthread]
      rw [hsame]
      exact h

theorem next (beyond : Byte → Byte) {e : Event T} (h : Free s) (hquiet : s.Quiet e)
    : Free (s.next beyond e) := by
  unfold Quiet at hquiet
  cases e with
  | call call =>
    unfold State.next
    dsimp only
    split
    . next hcond =>
      rcases hcond with ⟨hhandler, hthread⟩
      have hnone : ∀ t, ¬ s.Holds t := by
        intro t
        by_cases ht : t = s.current
        . simp [Holds, ht, hthread]
        . exact hquiet hhandler hthread t ht
      apply of_none
      . intro t
        by_cases ht : t = s.current
        . simp [Holds, ht, Point.holds]
        . simpa [Holds, ht] using hnone t
      . dsimp only
        rw [h.lock]
        simp [hnone]
    . exact h
  | step => exact h.step
  | kbd keycode =>
    unfold State.next
    dsimp only
    split
    . next hhandler =>
      rcases kbd_press_cases beyond hhandler keycode with ⟨hprints, cs, heq⟩ | ⟨_, hsame⟩
      . have hnone := hquiet hhandler hprints
        rw [heq]
        apply of_none
        . exact not_holds_of_same rfl hnone
        . dsimp only
          rw [h.lock]
          simp [hnone, hhandler, Point.holds]
      . exact h.of_same hsame
    . exact h
  | timer =>
    unfold State.next
    dsimp only
    split
    . exact h.of_same ⟨rfl, rfl, rfl, rfl⟩
    . exact h
  | apic_timer t =>
    unfold State.next
    dsimp only
    split
    . next hhandler =>
      refine ⟨h.lock, h.unique, h.handler, ?_⟩
      intro hacq
      exact hquiet hhandler hacq
    . exact h

omit [DecidableEq T] in
theorem not_waits (h : Free s) : ¬ s.Waits := by
  unfold Waits
  cases hhandler : s.handler with
  | some hd =>
    rintro ⟨_, t, ht⟩
    exact h.handler (by simp [hhandler]) t ht
  | none =>
    rintro ⟨hacq, t, hne, ht⟩
    exact h.current hacq t hne ht

end Free

variable [DecidableEq T]

theorem waits_of_not_quiet (beyond : Byte → Byte) {e : Event T} (he : ¬ s.Quiet e)
    : (s.next beyond e).Waits := by
  unfold Quiet at he
  cases e with
  | step | timer => exact absurd trivial he
  | call call =>
    simp only [not_forall, not_not] at he
    rcases he with ⟨hhandler, hthread, t, hne, p, ht, hp⟩
    unfold next
    dsimp only
    rw [if_pos ⟨hhandler, hthread⟩]
    unfold Waits
    dsimp only
    rw [hhandler]
    refine ⟨⟨.acquire call, ?_, rfl⟩, t, hne, p, ?_, hp⟩
    . simp
    . simp [hne, ht]
  | kbd keycode =>
    simp only [not_forall, not_not] at he
    rcases he with ⟨hhandler, hprints, t, ht⟩
    unfold next
    dsimp only
    rw [if_pos hhandler]
    rcases kbd_press_cases beyond hhandler keycode with ⟨_, cs, heq⟩ | ⟨hnot, _⟩
    . rw [heq]
      exact ⟨rfl, t, ht⟩
    . rw [hprints] at hnot
      cases hnot
  | apic_timer t =>
    simp only [not_forall, not_not] at he
    rcases he with ⟨hhandler, hacq, t', hne, ht'⟩
    unfold next
    dsimp only
    rw [if_pos hhandler]
    unfold Waits
    dsimp only
    rw [hhandler]
    exact ⟨hacq, t', hne, ht'⟩

/--
No thread is in a call, and no interrupt is handled.
-/
structure Start (s : State T) : Prop where
  spinlock : s.spinlock = false
  thread : ∀ t, s.thread t = none
  handler : s.handler = none

omit [DecidableEq T] in
theorem Start.free (h : Start s) : Free s := by
  apply Free.of_none
  . rintro t ⟨p, hp, _⟩
    rw [h.thread t] at hp
    cases hp
  . simp [h.spinlock, h.handler]

/--
As long as no key is printed and no other thread comes to `acquire` while a thread holds the lock, the CPU
never waits for code that it has interrupted, and the first time that it happens, the CPU does.
-/
theorem never_waits {beyond : Byte → Byte} (hs : Start s) (h : Reached beyond Quiet s s')
    : ¬ s'.Waits ∧ ∀ e, ¬ s'.Quiet e → (s'.next beyond e).Waits := by
  have hfree : Free s' := by
    induction h with
    | refl => exact hs.free
    | step e _ hcond ih => exact ih.next beyond hcond
  exact ⟨hfree.not_waits, fun e => waits_of_not_quiet beyond⟩

end State

def booted : State Unit where
  spinlock := false
  PIT_COUNTER := 0
  key_release := 0
  flags := 0
  screen := []
  thread _ := none
  current := ()
  handler := none

theorem booted_start : booted.Start :=
  ⟨rfl, fun _ => rfl, rfl⟩

theorem never_waits_booted
    : ∃ s, State.Reached (fun _ => 0) State.Quiet booted s ∧ s.handler ≠ none ∧ ¬ s.Waits := by
  have h1 : State.Reached (fun _ => 0) State.Quiet booted _ :=
    State.Reached.refl.step (.call (.print (.char 0x45))) (by intro _ _ t ht; exact absurd rfl ht)
  have h2 := h1.step (.kbd 0x1C) (by
    rintro _ _ t ⟨p, hp, hholds⟩
    cases hp
    cases hholds)
  exact ⟨_, h2, by decide, (State.never_waits booted_start h2).1⟩

theorem waits_booted
    : ∃ s, State.Reached (fun _ => 0) (fun _ _ => True) booted s ∧ s.Waits := by
  have h1 : State.Reached (fun _ => 0) (fun _ _ => True) booted _ :=
    State.Reached.refl.step (.call (.print (.char 0x45))) trivial
  have h2 := h1.step .step trivial
  have h3 := h2.step (.kbd 0x1C) trivial
  exact ⟨_, h3, rfl, (), .write [0x45], rfl, rfl⟩

end Console
end Franklin
