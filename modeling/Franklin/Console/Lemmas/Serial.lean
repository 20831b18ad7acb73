import Franklin.Console.Lemmas.Waits
import Franklin.Lib.Spool

/-!
This module contains that the messages of `print` do not mix on the screen, whatever the threads of the CPU, the
keyboard and the timers do in between.
-/

namespace Franklin
namespace Console

def Point.phase : Option Point → Phase Byte
  | none => .idle
  | some (.acquire (.print s)) => .waiting (some s.bytes)
  | some (.acquire (.printl _ _)) | some (.acquire (.sleep _)) => .waiting none
  | some (.write s) => .writing s
  | some (.set _) | some .wait | some .release => .inside

namespace State

variable {T : Type}

def point (s : State T) : Option T → Option Point
  | some t => s.thread t
  | none => s.handler.map (·.point)

def spool (s : State T) : Spool (Option T) Byte where
  lock := s.spinlock
  out := s.screen
  phase w := Point.phase (s.point w)

def message (beyond : Byte → Byte) (s : State T) : Event T → Option (List Byte)
  | .call (.print m) => if s.handler = none ∧ s.thread s.current = none then some m.bytes else none
  | .kbd keycode =>
    if s.handler = none ∧ s.prints keycode = true then
      some (print_char (kbd_us beyond keycode) s.flags).bytes
    else
      none
  | .call (.printl _ _) | .call (.sleep _) | .step | .timer | .apic_timer _ => none

theorem message_kbd (beyond : Byte → Byte) (s : State T) (keycode : Byte)
    : s.message beyond (.kbd keycode) =
        if s.handler = none ∧ s.prints keycode = true then
          some (print_char (kbd_us beyond keycode) s.flags).bytes
        else
          none := by
  rfl

variable [DecidableEq T] {beyond : Byte → Byte} {s s' : State T} {w : Option T} {p : Point}

/--
The states that events lead to from `s`, with the messages that `print` was called with.
-/
inductive Printed (beyond : Byte → Byte) (s : State T) : Multiset (List Byte) → State T → Prop where
  | refl : Printed beyond s 0 s
  | step {s' : State T} {msgs : Multiset (List Byte)} (e : Event T) (h : Printed beyond s msgs s')
    : Printed beyond s (msgs + (s'.message beyond e).elim 0 fun m => {m}) (s'.next beyond e)

omit [DecidableEq T] in
theorem spool_eq_stay (hlock : s'.spinlock = s.spinlock) (hscreen : s'.screen = s.screen)
    (hthread : s'.thread = s.thread) (hhandler : s'.handler = s.handler) : s'.spool = s.spool := by
  have hpoint : s'.point = s.point := by
    funext w
    cases w with
    | none =>
      unfold point
      rw [hhandler]
    | some t =>
      unfold point
      rw [hthread]
  unfold spool
  rw [hlock, hscreen, hpoint]

omit [DecidableEq T] in
theorem exec_others (s : State T) (p : Point) : (s.exec p).1.thread = s.thread ∧ (s.exec p).1.handler = s.handler := by
  rcases exec_cases s p with ⟨_, _, heq⟩ | ⟨q, _, _, _, heq⟩ | ⟨s', q, _, _, hsame, heq⟩ | ⟨_, heq⟩
  . rw [heq]
    exact ⟨rfl, rfl⟩
  . rw [heq]
    exact ⟨rfl, rfl⟩
  . rw [heq]
    exact ⟨hsame.thread, hsame.handler⟩
  . rw [heq]
    exact ⟨rfl, rfl⟩

theorem exec_step (hp : s.point w = some p)
    : Spool.Step s.spool 0
        { lock := (s.exec p).1.spinlock
          out := (s.exec p).1.screen
          phase := Function.update s.spool.phase w (Point.phase (s.exec p).2) } := by
  have hphase : s.spool.phase w = Point.phase (some p) := by
    rw [← hp]
    rfl
  have hstay : ∀ q : Phase Byte, s.spool.phase w = q →
      Spool.Step s.spool 0 { s.spool with phase := Function.update s.spool.phase w q } := by
    intro q hq
    rw [← hq, Function.update_eq_self]
    exact Spool.Step.stay
  cases p with
  | acquire call =>
    cases hlock : s.spinlock with
    | true =>
      have hexec : s.exec (.acquire call) = (s, some (.acquire call)) := if_pos hlock
      rw [hexec]
      exact hstay _ hphase
    | false =>
      have hexec : s.exec (.acquire call) = ({ s with spinlock := true }, some call.body) := if_neg (by simp [hlock])
      rw [hexec]
      cases call with
      | print m => exact Spool.Step.enter w (some m.bytes) hphase hlock
      | printl m len => exact Spool.Step.enter w none hphase hlock
      | sleep us => exact Spool.Step.enter w none hphase hlock
  | write m =>
    cases m with
    | nil => exact Spool.Step.close w hphase
    | cons c cs => exact Spool.Step.write w c cs hphase
  | set us => exact hstay _ hphase
  | wait =>
    by_cases hcounter : 0 < s.PIT_COUNTER
    . have hexec : s.exec .wait = (s, some .wait) := if_pos hcounter
      rw [hexec]
      exact hstay _ hphase
    . have hexec : s.exec .wait = (s, some .release) := if_neg hcounter
      rw [hexec]
      exact hstay _ hphase
  | release => exact Spool.Step.leave w hphase

theorem kbd_press_spool (hhandler : s.handler = none) (keycode : Byte)
    : Spool.Step s.spool ((s.message beyond (.kbd keycode)).elim 0 fun m => {m})
        (s.kbd_press beyond keycode).spool := by
  rw [message_kbd]
  rcases kbd_press_cases beyond hhandler keycode with ⟨hprints, cs, heq⟩ | ⟨hprints, hsame⟩
  . have hcs : cs = print_char (kbd_us beyond keycode) s.flags := by
      unfold prints at hprints
      simp only [Bool.and_eq_true, bne_iff_ne, decide_eq_true_eq] at hprints
      unfold kbd_press at heq
      simp only [hprints.1.1.1, hprints.1.1.2, hprints.1.2, hprints.2, if_false, if_true, ne_eq, not_false_eq_true]
        at heq
      have hpoint := congrArg (fun s => s.handler.map (·.point)) heq
      simp only [Option.map_some, Option.some.injEq, Point.acquire.injEq, Call.print.injEq] at hpoint
      exact hpoint.symm
    rw [if_pos ⟨hhandler, hprints⟩, heq, hcs]
    have hstart := Spool.Step.start (s := s.spool) none (some (print_char (kbd_us beyond keycode) s.flags).bytes)
      (by simp [spool, point, hhandler, Point.phase])
    convert hstart using 1
    unfold spool
    congr 1
    funext w
    cases w with
    | none => simp [point, Point.phase]
    | some t => simp [point]
  . rw [if_neg (by simp [hprints])]
    have hscreen : (s.kbd_press beyond keycode).screen = s.screen := by
      unfold kbd_press eoi
      dsimp only
      split_ifs <;> rfl
    rw [spool_eq_stay hsame.spinlock hscreen hsame.thread hsame.handler]
    exact Spool.Step.stay

theorem step_spool (s : State T) : Spool.Step s.spool 0 s.step.spool := by
  unfold step
  cases hhandler : s.handler with
  | some h =>
    have hexec := exec_step (s := s) (w := none) (p := h.point) (by simp [point, hhandler])
    have hthread : (s.exec h.point).1.thread = s.thread := (exec_others s h.point).1
    dsimp only
    convert hexec using 1
    split
    . next s' q heq =>
      rw [heq] at hthread ⊢
      dsimp only at hthread
      unfold spool
      congr 1
      funext w
      cases w with
      | none => simp [point]
      | some t => simp [point, hthread]
    . next s' heq =>
      rw [heq] at hthread ⊢
      dsimp only at hthread
      unfold spool
      congr 1
      funext w
      cases w with
      | none => simp [point, eoi]
      | some t => simp [point, eoi, hthread]
  | none =>
    dsimp only
    split
    . next p hp =>
      have hexec := exec_step (s := s) (w := some s.current) (p := p) hp
      have hkept : (s.exec p).1.handler = s.handler := (exec_others s p).2
      convert hexec using 1
      unfold spool
      congr 1
      funext w
      cases w with
      | none => simp [point, hkept]
      | some t => by_cases ht : t = s.current <;> simp [point, ht]
    . exact Spool.Step.stay

theorem next_spool (s : State T) (e : Event T)
    : Spool.Step s.spool ((s.message beyond e).elim 0 fun m => {m}) (s.next beyond e).spool := by
  cases e with
  | call call =>
    by_cases hfree : s.handler = none ∧ s.thread s.current = none
    . have hphase : s.spool.phase (some s.current) = .idle := by
        simp [spool, point, hfree.2, Point.phase]
      have hpoint : (s.next beyond (.call call)).spool =
          { s.spool with
            phase := Function.update s.spool.phase (some s.current) (Point.phase (some (.acquire call))) } := by
        unfold next
        dsimp only
        rw [if_pos hfree]
        unfold spool
        congr 1
        funext w
        cases w with
        | none => simp [point]
        | some t => by_cases ht : t = s.current <;> simp [point, ht]
      rw [hpoint]
      cases call with
      | print m =>
        have hmessage : s.message beyond (.call (.print m)) = some m.bytes := if_pos hfree
        rw [hmessage]
        exact Spool.Step.start (some s.current) (some m.bytes) hphase
      | printl m len => exact Spool.Step.start (some s.current) none hphase
      | sleep us => exact Spool.Step.start (some s.current) none hphase
    . have hnone : s.message beyond (.call call) = none := by
        cases call with
        | print m => exact if_neg hfree
        | printl m len => rfl
        | sleep us => rfl
      unfold next
      dsimp only
      rw [hnone, if_neg hfree]
      exact Spool.Step.stay
  | step => exact s.step_spool
  | kbd keycode =>
    unfold next
    by_cases hhandler : s.handler = none
    . dsimp only
      rw [if_pos hhandler]
      exact kbd_press_spool hhandler keycode
    . dsimp only
      rw [if_neg hhandler]
      rw [message_kbd, if_neg (fun h => hhandler h.1)]
      exact Spool.Step.stay
  | timer =>
    unfold next
    dsimp only
    split
    . have hspool : s.timerh.spool = s.spool := spool_eq_stay rfl rfl rfl rfl
      rw [hspool]
      exact Spool.Step.stay
    . exact Spool.Step.stay
  | apic_timer t =>
    unfold next
    dsimp only
    split
    . have hspool : { s with current := t }.spool = s.spool := spool_eq_stay rfl rfl rfl rfl
      rw [hspool]
      exact Spool.Step.stay
    . exact Spool.Step.stay

theorem Printed.run {msgs : Multiset (List Byte)} (h : Printed beyond s msgs s') : Spool.Run s.spool msgs s'.spool := by
  induction h with
  | refl => exact Spool.Run.refl
  | step e _ ih => exact Spool.Run.step ih (next_spool _ e)

/--
In every run from a state in which nobody is in a call, the screen shows whole messages, each of them as often as
`print` was called with it at most, and the beginning of one more. Once all calls have returned it shows all of them.
-/
theorem Printed.screen_serial {msgs : Multiset (List Byte)} (hs : Start s) (h : Printed beyond s msgs s')
    : ∃ (whole : List (List Byte)) (part : List Byte), s'.screen = s.screen ++ whole.flatten ++ part ∧
        (part = [] ∧ ↑whole ≤ msgs ∨ ∃ rest, ↑((part ++ rest) :: whole) ≤ msgs) ∧
        ((∀ w, s'.point w = none) → part = [] ∧ ↑whole = msgs) := by
  have hidle : ∀ w, s.spool.phase w = .idle := by
    intro w
    cases w with
    | none => simp [spool, point, hs.handler, Point.phase]
    | some t => simp [spool, point, hs.thread, Point.phase]
  rcases h.run.serial hs.spinlock hidle with ⟨whole, part, active, hserial⟩
  refine ⟨whole, part, hserial.out_eq, ?_, ?_⟩
  . by_cases hpart : part = []
    . refine Or.inl ⟨hpart, ?_⟩
      rw [hserial.msgs_eq]
      exact Multiset.le_add_right _ _
    . rcases hserial.part_eq hpart with ⟨w, rest, hw⟩
      refine Or.inr ⟨rest, ?_⟩
      have hmem : w ∈ active := hserial.mem_active (by rw [hw]; simp)
      rw [hserial.msgs_split hmem, hw, ← Multiset.cons_coe, ← Multiset.singleton_add, add_comm, add_le_add_iff_left]
      exact Multiset.le_add_right _ _
  . intro hend
    have hphase : ∀ w, s'.spool.phase w = .idle := by
      intro w
      unfold spool
      dsimp only
      rw [hend w]
      rfl
    have hpart : part = [] := by
      apply hserial.part_eq_nil
      intro w rest hw
      rw [hphase] at hw
      cases hw
    refine ⟨hpart, ?_⟩
    have hsum : ∑ w ∈ active, (s'.spool.phase w).unfinished part = 0 := by
      apply Finset.sum_eq_zero
      intro w _
      rw [hphase]
      rfl
    rw [hserial.msgs_eq, hsum, add_zero]

theorem Printed.screen_serial_booted : ∃ (s : State Unit) (whole : List (List Byte)) (part : List Byte),
    s.screen = [0x48] ∧ s.screen = booted.screen ++ whole.flatten ++ part ∧
      (part = [] ∧ ↑whole ≤ ({[0x48, 0x69]} + {[0x61]} : Multiset (List Byte)) ∨
        ∃ rest, ↑((part ++ rest) :: whole) ≤ ({[0x48, 0x69]} + {[0x61]} : Multiset (List Byte))) := by
  have h1 : Printed (fun _ => 0) booted _ _ := Printed.refl.step (.call (.print ⟨0x48, [0x69], by decide⟩))
  have h2 := h1.step .step
  have h3 := h2.step .step
  have h4 := h3.step (.kbd 0x1C)
  rcases Printed.screen_serial booted_start h4 with ⟨whole, part, hscreen, hmsgs, _⟩
  exact ⟨_, whole, part, rfl, hscreen, hmsgs⟩

end State

end Console
end Franklin
