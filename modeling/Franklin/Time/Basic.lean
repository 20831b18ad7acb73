import Mathlib.Data.BitVec

/-!
This module contains `sleep` of `kernel/time.c` and the interrupts of the timer that it waits for.
-/

namespace Franklin
namespace Time

/--
What happens after `sleep` has stored its argument: an interrupt of the timer, or one more read of the counter by
the loop.
-/
inductive Event where
  | timerh
  | poll
  deriving DecidableEq, Repr

structure State where
  PIT_COUNTER : BitVec 32
  -- `sleep` has not returned
  sleeping : Bool
  deriving DecidableEq, Repr

def timerh (s : State) : State :=
  { s with PIT_COUNTER := s.PIT_COUNTER - 1#32 }

/--
The condition of the loop, after which `sleep` either goes on or returns.
-/
def poll (s : State) : State :=
  if s.sleeping ∧ ¬ s.PIT_COUNTER > 0#32 then { s with sleeping := false } else s

def step (s : State) : Event → State
  | .timerh => timerh s
  | .poll => poll s

def run (s : State) (events : List Event) : State :=
  events.foldl step s

def sleep (us : BitVec 32) : State where
  PIT_COUNTER := us
  sleeping := true

def ticks (events : List Event) : Nat :=
  events.count .timerh

end Time
end Franklin
