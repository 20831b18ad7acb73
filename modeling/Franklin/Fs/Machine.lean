import Franklin.Fs.Thread

/-!
This module contains the interleaving of threads on any number of CPUs, one step of one CPU at a time.
-/

namespace Franklin
namespace Fs

/--
`holds c l` is set from the `acquire` of the lock `l` by the CPU `c` to its own `release`, and `owner l`
is the CPU that has set the lock. A vnode that `ramfs_vget` makes is not seen by others before its lock is
given back, so its first lock is left out.
-/
structure Machine (Cpu : Type) where
  st : St
  thread : Cpu → Thread Unit
  holds : Cpu → Lock → Bool
  owner : Lock → Option Cpu

namespace Machine

variable {Cpu : Type} [DecidableEq Cpu]

def put (m : Machine Cpu) (c : Cpu) (t : Thread Unit) : Machine Cpu :=
  { m with thread := Function.update m.thread c t }

/--
One access of the CPU `c`. It is repeated as long as it has to wait, and ends the thread if it fails.
-/
def exec {β : Type} (m : Machine Cpu) (c : Cpu) (p : Prog β) (k : β → Thread Unit) : Machine Cpu :=
  match p m.st with
  | .ok r st => { m.put c (k r) with st }
  | .error .hang _ => m
  | .error e _ => m.put c (.stop e)

def setHolds (m : Machine Cpu) (c : Cpu) (l : Lock) (b : Bool) : Cpu → Lock → Bool :=
  Function.update m.holds c (Function.update (m.holds c) l b)

def lock (m : Machine Cpu) (c : Cpu) (l : Lock) (k : Thread Unit) : Machine Cpu :=
  if returns l.acquire m.st then
    { m.exec c l.acquire fun _ => k with
      holds := m.setHolds c l true
      owner := Function.update m.owner l (some c) }
  else
    m.exec c l.acquire fun _ => k

def unlock (m : Machine Cpu) (c : Cpu) (l : Lock) (k : Thread Unit) : Machine Cpu :=
  if returns l.release m.st then
    { m.exec c l.release fun _ => k with
      holds := m.setHolds c l false
      owner := Function.update m.owner l none }
  else
    m.exec c l.release fun _ => k

def step (m : Machine Cpu) (c : Cpu) : Machine Cpu :=
  match m.thread c with
  | .ret _ => m
  | .stop _ => m
  | .lock l k => m.lock c l k
  | .unlock l k => m.unlock c l k
  | .nextname v k => m.unlock c (.vnode v) k
  | .trylock v k => m.exec c (getVnode v) fun vn => k vn.lock
  | .count v d k => m.exec c (addRefs v d) k
  | .atom p k => m.exec c p k

/--
No CPU has begun with its thread, and none holds a lock.
-/
def start (st : St) (thread : Cpu → Thread Unit) : Machine Cpu where
  st
  thread
  holds _ _ := false
  owner _ := none

/--
What the CPUs lead to from `m` in any order of steps, each of which meets the condition `Cond`.
-/
inductive Reached (Cond : Machine Cpu → Cpu → Prop) (m : Machine Cpu) : Machine Cpu → Prop where
  | refl : Reached Cond m m
  | step {m' : Machine Cpu} (c : Cpu) (h : Reached Cond m m') (hcond : Cond m' c)
    : Reached Cond m (m'.step c)

def Any (_ : Machine Cpu) (_ : Cpu) : Prop := True

/--
The CPU `c` is in `acquire` of the lock `l`, which is taken.
-/
def Waits (m : Machine Cpu) (c : Cpu) (l : Lock) : Prop :=
  ∃ k, m.thread c = .lock l k ∧ l.acquire m.st = .error .hang m.st

def Deadlocked (m : Machine Cpu) : Prop :=
  ∃ c c' l l', c ≠ c' ∧ m.Waits c l ∧ m.owner l = some c' ∧ m.Waits c' l' ∧ m.owner l' = some c

end Machine

end Fs
end Franklin
