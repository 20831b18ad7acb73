import Franklin.Vmm.Basic

/-!
This module contains the process table of `kernel/proc.c` and the CPUs that switch between its processes,
one step of one CPU at a time. The timer interrupt is the one of the local APIC, whose handler is
`apic_timer` of `kernel/apic.c`.
-/

namespace Franklin
namespace Sched

open Vmm (Addr P2V)

def NPROC : Nat := 255

def sizeofRegs : Addr := 128#64

def sizeofStack : Addr := 56#64

inductive ProcState where
  | UNUSED
  | RUNNABLE
  | RUNNING
  deriving DecidableEq, Repr

structure Regs where
  rip : Addr
  cs : BitVec 64
  eflags : BitVec 64
  rsp : Addr
  deriving DecidableEq, Repr

/--
What a thread does with `ptable.lock`: `r` and `exec` are calls of these functions, where `exec` has the
registers that the program starts with, and `acq` and `switc` are what is left of `startproc`, which
`exec` calls.
-/
inductive Op where
  | other
  | r
  | exec (regs : Regs)
  | acq
  | switc
  deriving DecidableEq, Repr

namespace Op

/--
A thread calls `r` only if it is between its entry point, or `acq`, and `r`, which `window` tells.
-/
def ok : Bool → List Op → Bool
  | _, [] => true
  | window, other :: code => ok window code
  | window, r :: code => window && ok false code
  | _, exec _ :: _ => true
  | _, acq :: code => ok true code
  | window, switc :: _ => window

def isCall : Op → Bool
  | other | r | exec _ => true
  | acq | switc => false

end Op

/--
The function that a thread starts with: it begins with `ptable.lock` held and calls `r` at most once.
-/
structure Entry where
  rip : Addr
  code : List Op
  ok : (Op.ok true code && code.all Op.isCall) = true
  deriving DecidableEq, Repr

/--
Where a CPU is: in the thread of its process, or in `apic_timer` and the functions it calls, with
interrupts disabled. `boot` is a CPU that has no process yet, and the last three are `startproc` in
`init_proc`, which is called with interrupts enabled.
-/
inductive Pc where
  | boot
  | thread
  | acq
  | mark
  | scan
  | found (p : Nat)
  | run (prev p : Nat)
  | save (prev p : Nat)
  | load (p : Nat)
  | r
  | startAcq (p : Nat)
  | startRun (p : Nat)
  | startLoad (p : Nat)
  deriving DecidableEq, Repr

/--
Where the timer interrupts a CPU: in the thread of its process, or in `startproc`, in front of `acq` or behind it.
-/
inductive Place where
  | thread
  | startAcq
  | startRun
  | startLoad
  deriving DecidableEq, Repr

def Place.pc (p : Nat) : Place → Pc
  | thread => .thread
  | startAcq => .startAcq p
  | startRun => .startRun p
  | startLoad => .startLoad p

/--
`struct proc`, where `regs` is the structure that the pointer refers to, and `page` the page of the kernel
stack. `fresh` tells whether `stack` is the one that `allocproc` has made, which leads to the entry point,
or one that `switc` has saved in `scheduler`. `code` is what is left of the thread, `saved` is not set
while a CPU runs on the stack, and `window` is set from the entry point, or the call of `acq` in
`startproc`, to the call of `r`. `interrupted` is where the last timer interrupt goes back to.
-/
structure Proc where
  page : Addr
  regs : Regs
  stack : Addr
  state : ProcState
  pid : BitVec 32
  fresh : Bool
  code : List Op
  saved : Bool
  window : Bool
  interrupted : Place := .thread
  deriving DecidableEq, Repr

def getproc (proc : Nat → Proc) (state : ProcState) (index : Nat) : Option Nat × Nat :=
  go (NPROC - index) index
where
  /--
  The loop with `n` entries of the table ahead of it.
  -/
  go : Nat → Nat → Option Nat × Nat
    | 0, index => (none, index)
    | n + 1, index =>
      if (proc index).state = state then (some index, index) else go n (index + 1)

namespace scheduler

/--
One round of the loop of `getproc`, or the end of it, with the index as the `uint8_t` that it is. There is no
other round if a process has been found.
-/
def round (proc : Nat → Proc) (i : BitVec 8) : Option (BitVec 8) :=
  if i.toNat < NPROC then
    if (proc i.toNat).state = .RUNNABLE then none else some (i + 1#8)
  else
    some 0#8

def search (proc : Nat → Proc) : Nat → BitVec 8 → Option (BitVec 8)
  | 0, _ => none
  | fuel + 1, i =>
    match round proc i with
    | some i => search proc fuel i
    | none => some i

end scheduler

/--
The process table after `current->state = RUNNABLE` in `apic_timer`, the process of a CPU is always one of the table.
-/
def apic_timer (proc : Nat → Proc) (current : Fin NPROC) : Nat → Proc :=
  Function.update proc current { proc current with state := .RUNNABLE }

/--
`nextpid` and `index` are the static variables of `allocproc` and `scheduler`, `current` is the register
`MSR_GS` of each CPU, and `lock` the CPU that has set `ptable.lock`.
-/
structure Machine (Cpu : Type) where
  proc : Nat → Proc
  nextpid : BitVec 32
  index : Nat
  lock : Option Cpu
  current : Cpu → Nat
  pc : Cpu → Pc

namespace Machine

variable {Cpu : Type} [DecidableEq Cpu]

def setProc (m : Machine Cpu) (p : Nat) (f : Proc → Proc) : Machine Cpu :=
  { m with proc := Function.update m.proc p (f (m.proc p)) }

def setPc (m : Machine Cpu) (c : Cpu) (pc : Pc) : Machine Cpu :=
  { m with pc := Function.update m.pc c pc }

def set_current_proc (m : Machine Cpu) (c : Cpu) (p : Nat) : Machine Cpu :=
  { m with current := Function.update m.current c p }

/--
What `allocproc` writes to the process, for which `palloc` has returned `page`. The state stays as it is.
-/
def newproc (proc : Proc) (pid : BitVec 32) (entry : Entry) (page : Addr) : Proc :=
  let regs := P2V page + PGSIZE - sizeofRegs
  let stack := regs - sizeofStack
  { proc with
    pid
    page
    regs := { rip := entry.rip, cs := 0x28#64, eflags := 0x202#64, rsp := stack - 0x200#64 }
    stack
    fresh := true
    code := entry.code }

/--
`allocproc` with the process that it returns. It waits as long as the lock is taken.
-/
def allocproc (m : Machine Cpu) (entry : Entry) (page : Addr) : Option Nat × Machine Cpu :=
  match m.lock, (getproc m.proc .UNUSED 0).1 with
  | none, some p =>
    let pid := m.nextpid + 1
    (some p, { m.setProc p fun proc => newproc proc pid entry page with nextpid := pid })
  | _, _ => (none, m)

/--
`mov rsp, rsi` and the `ret` of `switc`: a new process begins at its entry point, with interrupts enabled
by `eflags`, and the others return from `scheduler` to `apic_timer`.
-/
def resume (m : Machine Cpu) (c : Cpu) (p : Nat) : Machine Cpu :=
  if (m.proc p).fresh then
    (m.setProc p fun proc => { proc with saved := false, window := true }).setPc c .thread
  else
    (m.setProc p fun proc => { proc with saved := false }).setPc c .r

/--
The `switc` of `startproc`. A stack that `switc` has saved has been used again since, so nothing is known of what is
on it, and the model lets the thread end there.
-/
def startLoad (m : Machine Cpu) (c : Cpu) (p : Nat) : Machine Cpu :=
  (m.setProc p fun proc =>
    if proc.fresh then proc else { proc with code := [], interrupted := .thread }).resume c p

def acquire (m : Machine Cpu) (c : Cpu) (next : Machine Cpu → Machine Cpu) : Machine Cpu :=
  match m.lock with
  | some _ => m
  | none => next { m with lock := some c }

def release (m : Machine Cpu) : Machine Cpu :=
  { m with lock := none }

/--
The next step of the thread of the process `p` on the CPU `c`.
-/
def threadStep (m : Machine Cpu) (c : Cpu) (p : Nat) : Machine Cpu :=
  match (m.proc p).code with
  | [] => m
  | .other :: code => m.setProc p fun proc => { proc with code }
  | .r :: code => (m.setProc p fun proc => { proc with code, window := false }).release
  | .exec regs :: _ => m.setProc p fun proc => { proc with regs, code := [.acq, .switc] }
  | .acq :: code => m.acquire c fun m => m.setProc p fun proc => { proc with code, window := true }
  | .switc :: _ => (m.setProc p fun proc => { proc with state := .RUNNING, code := [] }).startLoad c p

/--
The next step of the CPU `c`, where `rsp` is its stack pointer in `switc`.
-/
def step (m : Machine Cpu) (c : Cpu) (rsp : Addr) : Machine Cpu :=
  match m.pc c with
  | .boot => m
  | .thread => m.threadStep c (m.current c)
  | .acq => m.acquire c fun m => m.setPc c .mark
  | .mark => (m.setProc (m.current c) fun proc => { proc with state := .RUNNABLE }).setPc c .scan
  | .scan =>
    -- one round of the loop of `getproc`, or the end of it
    if m.index < NPROC then
      if (m.proc m.index).state = .RUNNABLE then
        m.setPc c (.found m.index)
      else
        { m with index := m.index + 1 }
    else
      { m with index := 0 }
  | .found p => (m.set_current_proc c p).setPc c (.run (m.current c) p)
  | .run prev p =>
    let m := m.setProc p fun proc => { proc with state := .RUNNING }
    if (m.proc prev).pid ≠ (m.proc p).pid then m.setPc c (.save prev p) else m.setPc c .r
  | .save prev p =>
    (m.setProc prev fun proc => { proc with stack := rsp, fresh := false, saved := true }).setPc c (.load p)
  | .load p => m.resume c p
  | .r =>
    let m := m.setProc (m.current c) fun proc => { proc with window := false }
    (m.setPc c ((m.proc (m.current c)).interrupted.pc (m.current c))).release
  | .startAcq p => m.acquire c fun m => m.setPc c (.startRun p)
  | .startRun p =>
    ((m.set_current_proc c p).setProc p fun proc => { proc with state := .RUNNING }).setPc c (.startLoad p)
  | .startLoad p => m.startLoad c p

def interrupt (m : Machine Cpu) (c : Cpu) (interrupted : Place) : Machine Cpu :=
  (m.setProc (m.current c) fun proc => { proc with interrupted }).setPc c .acq

def tick (m : Machine Cpu) (c : Cpu) : Machine Cpu :=
  match m.pc c with
  | .thread => m.interrupt c .thread
  | .startAcq _ => m.interrupt c .startAcq
  | .startRun _ => m.interrupt c .startRun
  | .startLoad _ => m.interrupt c .startLoad
  | .boot | .acq | .mark | .scan | .found _ | .run _ _ | .save _ _ | .load _ | .r => m

def init_proc (m : Machine Cpu) (c : Cpu) (i : Nat) : Machine Cpu :=
  if m.pc c = .boot then (m.set_current_proc c i).setPc c (.startAcq i) else m

end Machine

inductive Event (Cpu : Type) where
  | allocproc (entry : Entry) (page : Addr)
  | init_proc (c : Cpu) (i : Nat)
  | tick (c : Cpu)
  | step (c : Cpu) (rsp : Addr)

structure Given where
  slot : Nat
  pid : BitVec 32
  entry : Entry
  page : Addr
  deriving DecidableEq, Repr

namespace Machine

variable {Cpu : Type} [DecidableEq Cpu]

def next (m : Machine Cpu) : Event Cpu → Machine Cpu
  | .allocproc entry page => (m.allocproc entry page).2
  | .init_proc c i => m.init_proc c i
  | .tick c => m.tick c
  | .step c rsp => m.step c rsp

/--
What the event adds to the processes that have been returned.
-/
def given (m : Machine Cpu) : Event Cpu → List Given
  | .allocproc entry page =>
    match m.allocproc entry page with
    | (none, _) => []
    | (some slot, m') => [{ slot, pid := (m'.proc slot).pid, entry, page }]
  | _ => []

/--
What events lead to from `m`, each of which meets the condition `Cond`, with the processes that have been
returned on the way.
-/
inductive Reached (Cond : List Given → Machine Cpu → Event Cpu → Prop) (m : Machine Cpu)
    : List Given → Machine Cpu → Prop where
  | refl : Reached Cond m [] m
  | step {gs : List Given} {m' : Machine Cpu} (e : Event Cpu) (h : Reached Cond m gs m')
    (hcond : Cond gs m' e) : Reached Cond m (m'.given e ++ gs) (m'.next e)

def Any (_ : List Given) (_ : Machine Cpu) (_ : Event Cpu) : Prop := True

end Machine

end Sched
end Franklin
