import Mathlib.Logic.Function.Basic

/-!
This module contains the code that takes the global `spinlock` on one CPU: `print` and `printl` of
`kernel/kernel.c`, `sleep` of `kernel/time.c` and the handler of the keyboard in `kernel/kbd.c`, with the
interrupts that can arrive in between.
-/

namespace Franklin
namespace Console

abbrev Byte := BitVec 8

/--
A string as `strlen` sees it. It does not look at the first character, which may be a NUL.
-/
structure Text where
  first : Byte
  rest : List Byte
  rest_ne : ∀ c ∈ rest, c ≠ 0
  deriving DecidableEq, Repr

namespace Text

def char (c : Byte) : Text :=
  ⟨c, [], by simp⟩

def bytes (s : Text) : List Byte :=
  s.first :: s.rest

end Text

inductive Call where
  | print (s : Text)
  | printl (s : List Byte) (len : Nat)
  | sleep (us : BitVec 32)
  deriving DecidableEq, Repr

inductive Point where
  | acquire (call : Call)
  | write (s : List Byte)
  | set (us : BitVec 32)
  | wait
  | release
  deriving DecidableEq, Repr

/--
What a call does after `acquire(&spinlock)`. The write of `printl` is commented out in the source.
-/
def Call.body : Call → Point
  | print s => .write s.bytes
  | printl _ _ => .release
  | sleep us => .set us

/--
`kbd_press`, interrupted in none of its statements, is in the call of `print`.
-/
structure Handler where
  keycode : Byte
  point : Point
  deriving DecidableEq, Repr

/--
`thread` tells for each thread of the CPU where it is in a call, and `current` is the one that runs, or
that the handler has interrupted.
-/
structure State (T : Type) where
  spinlock : Bool
  PIT_COUNTER : BitVec 32
  key_release : Byte
  flags : Byte
  screen : List Byte
  thread : T → Option Point
  current : T
  handler : Option Handler

/--
The initializer of `kbd_us`, the rest of the table is zero.
-/
def kbd_us_table : List Char := [
  '\x00', '\x00', '\x00', '\x00', '\x00', '\x00', '\x00', '\x00',
  '\x00', '\x00', '\x00', '\x00', '\x00', '\t', '\x00', '\x00',
  '\x00', '\x00', '\x00', '\x00', '\x00', 'q', '1', '\x00',
  '\x00', '\x00', 'z', 's', 'a', 'w', '2', '\x00',
  '\x00', 'c', 'x', 'd', 'e', '4', '3', '\x00',
  '\x00', ' ', 'v', 'f', 't', 'r', '5', '\x00',
  '\x00', 'n', 'b', 'h', 'g', 'y', '6', '\x00',
  '\x00', '\x00', 'm', 'j', 'u', '7', '8', '\x00',
  '\x00', ',', 'k', 'i', 'o', '0', '9', '\x00',
  '\x00', '.', '/', 'l', ';', 'p', '-', '\x00',
  '\x00', '\x00', '\x00', '\x00', '[', '=', '\x00', '\x00',
  '\x00', '\x00', '\n']

/--
`kbd_us[keycode]`, where `beyond` is the memory after the 127 entries of the table.
-/
def kbd_us (beyond : Byte → Byte) (keycode : Byte) : Byte :=
  if keycode.toNat < 127 then
    BitVec.ofNat 8 (kbd_us_table.getD keycode.toNat '\x00').toNat
  else
    beyond keycode

def print_char (ch flags : Byte) : Text :=
  .char (if flags &&& 1 ≠ 0 ∨ flags &&& 2 ≠ 0 then ch - 32 else ch)

namespace State

variable {T : Type}

def exec (s : State T) : Point → State T × Option Point
  | .acquire call =>
    -- `atomic_exchange`, which is repeated until the lock is free
    if s.spinlock then (s, some (.acquire call)) else ({ s with spinlock := true }, some call.body)
  | .write [] => (s, some .release)
  | .write (c :: cs) => ({ s with screen := s.screen ++ [c] }, some (.write cs))
  | .set us => ({ s with PIT_COUNTER := us }, some .wait)
  | .wait => if 0 < s.PIT_COUNTER then (s, some .wait) else (s, some .release)
  | .release => ({ s with spinlock := false }, none)

def eoi (s : State T) (keycode : Byte) : State T :=
  { s with
    key_release := if keycode ≠ 0xF0 ∧ s.key_release ≠ 0 then 0 else s.key_release
    handler := none }

/--
`kbd_press` up to the call of `print`, or to its end.
-/
def kbd_press (beyond : Byte → Byte) (s : State T) (keycode : Byte) : State T :=
  let character := kbd_us beyond keycode
  let s := if keycode = 0xF0 then { s with key_release := 1 } else s
  let s := if keycode = 0x12 then { s with flags := s.flags ^^^ 2 } else s
  if s.key_release = 0 then
    if keycode = 0x58 then
      { s with flags := s.flags ^^^ 1 }.eoi keycode
    else if keycode ≠ 0x12 then
      { s with handler := some ⟨keycode, .acquire (.print (print_char character s.flags))⟩ }
    else
      s.eoi keycode
  else
    s.eoi keycode

def timerh (s : State T) : State T :=
  { s with PIT_COUNTER := s.PIT_COUNTER - 1 }

variable [DecidableEq T]

def step (s : State T) : State T :=
  match s.handler with
  | some h =>
    match s.exec h.point with
    | (s', some point) => { s' with handler := some { h with point } }
    | (s', none) => s'.eoi h.keycode
  | none =>
    match s.thread s.current with
    | some p => { (s.exec p).1 with thread := Function.update s.thread s.current (s.exec p).2 }
    | none => s

end State

/--
`call` is a call that the current thread begins. The others are the interrupts of the keyboard, of the
PIT and of the local APIC, with the thread that the scheduler selects.
-/
inductive Event (T : Type) where
  | call (call : Call)
  | step
  | kbd (keycode : Byte)
  | timer
  | apic_timer (t : T)

namespace State

variable {T : Type} [DecidableEq T]

def next (beyond : Byte → Byte) (s : State T) : Event T → State T
  | .call call =>
    if s.handler = none ∧ s.thread s.current = none then
      { s with thread := Function.update s.thread s.current (some (.acquire call)) }
    else
      s
  | .step => s.step
  | .kbd keycode => if s.handler = none then s.kbd_press beyond keycode else s
  | .timer => if s.handler = none then s.timerh else s
  | .apic_timer t => if s.handler = none then { s with current := t } else s

/--
What events lead to from `s`, each of which meets the condition `Cond`.
-/
inductive Reached (beyond : Byte → Byte) (Cond : State T → Event T → Prop) (s : State T)
    : State T → Prop where
  | refl : Reached beyond Cond s s
  | step {s' : State T} (e : Event T) (h : Reached beyond Cond s s') (hcond : Cond s' e)
    : Reached beyond Cond s (s'.next beyond e)

end State

end Console
end Franklin
