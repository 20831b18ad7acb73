import Franklin.Switch.Basic

/-!
This module contains the CPUs that run kernel threads, interrupt them and switch between them.
-/

namespace Franklin
namespace Switch

/--
Where the stack of each thread lies, and `slot`, the address of `p->stack`.
-/
structure Layout (T : Type) where
  lo : T → Nat
  hi : T → Nat
  slot : T → Word
  hi_lt : ∀ t, hi t < 2 ^ 64
  disjoint : ∀ t q, t ≠ q → hi t ≤ lo q ∨ hi q ≤ lo t
  slot_ne : ∀ t q, t ≠ q → (slot t).toNat ≠ (slot q).toNat
  slot_out : ∀ t q, (slot t).toNat + 8 ≤ lo q ∨ hi q ≤ (slot t).toNat

namespace Layout

variable {T : Type}

def Cell (X : Layout T) (t : T) (a : Nat) : Prop :=
  X.lo t ≤ a ∧ a < X.hi t ∨ a = (X.slot t).toNat

/--
Code that runs on the stack of `t` does not write to what belongs to the others.
-/
def Keeps (X : Layout T) (t : T) (m m' : Mem) : Prop :=
  ∀ q, q ≠ t → ∀ a, X.Cell q a → m' a = m a

/--
A function that is entered on the stack of `t` with the stack pointer `sp` only writes below `sp`.
-/
structure Below (X : Layout T) (t : T) (sp : Word) (m m' : Mem) : Prop where
  keeps : X.Keeps t m m'
  above : ∀ a, sp.toNat ≤ a → a < X.hi t → m' a = m a

end Layout

/--
Where a CPU is: in a thread, at the entry of `trap`, at the return of `switc` to `scheduler`, at the return
of `trap` to `alltraps`, at the label `ret`, or in none of these.
-/
inductive Mode where
  | thread
  | trap
  | switched
  | trapped
  | ret
  | lost
  deriving DecidableEq, Repr

structure Call where
  regs : Regs
  mem : Mem

/--
`fresh` are the threads that `allocproc` has made and that have not run yet. `interrupted` are the
registers of a thread at its last interrupt, `entry` those at the entry of `trap` after it, and `call` what
`scheduler` has called `switc` with.
-/
structure State (Cpu T : Type) where
  regs : Cpu → Regs
  mem : Mem
  current : Cpu → T
  mode : Cpu → Mode
  fresh : T → Prop
  interrupted : T → Regs
  entry : T → Regs
  call : T → Call

namespace State

variable {Cpu T : Type} [DecidableEq Cpu] [DecidableEq T]

/--
The CPU goes on with the registers `g` and the memory `m`.
-/
def goto (s : State Cpu T) (c : Cpu) (g : Regs) (m : Mem) (mode : Mode) : State Cpu T :=
  { s with
    regs := Function.update s.regs c g
    mem := m
    mode := Function.update s.mode c mode }

/--
The stack is large enough for the interrupt frame and `alltraps`.
-/
def Fits (X : Layout T) (t : T) (g : Regs) : Prop :=
  X.lo t + 168 ≤ g.rsp.toNat ∧ g.rsp.toNat ≤ X.hi t

/--
The compiled function `trap` returns to where it was called from, and preserves what the calling
convention asks for.
-/
structure Returns (entry : Regs) (m : Mem) (g : Regs) : Prop where
  callee : entry.SameCallee g
  rsp : g.rsp = entry.rsp + 8
  rip : g.rip = m entry.rsp.toNat

/--
`scheduler` calls `switc(&prev->stack, current->stack)` on the stack of `t` to switch to `q`, below what
`trap` was entered with.
-/
structure Calls (L : Labels) (X : Layout T) (t q : T) (entry : Regs) (g : Regs) (m : Mem) : Prop where
  lo : X.lo t + 48 ≤ g.rsp.toNat
  rsp : g.rsp.toNat + 8 ≤ entry.rsp.toNat
  back : m g.rsp.toNat = L.switched
  rdi : g.rdi = X.slot t
  rsi : g.rsi = m (X.slot q).toNat

/--
`switc` has returned to `scheduler` as a function does, and what lies between it and the entry of `trap`
is as it was.
-/
structure Resumed (call : Call) (entry : Regs) (g : Regs) (m : Mem) : Prop where
  callee : call.regs.SameCallee g
  rsp : g.rsp = call.regs.rsp + 8
  frame : ∀ a, call.regs.rsp.toNat + 8 ≤ a → a < entry.rsp.toNat → m a = call.mem a

/--
One step of the CPU `c`. `run` is any code of the thread. `returns` and `leaves` are `trap` without and
with a switch, of which only the calling convention is known.
-/
inductive Step (alu : Word → Word → Word) (L : Labels) (X : Layout T) (s : State Cpu T)
    : State Cpu T → Prop where
  | run (c : Cpu) (g : Regs) (m : Mem) (hmode : s.mode c = .thread)
    (hkeeps : X.Keeps (s.current c) s.mem m) : Step alu L X s (s.goto c g m .thread)
  | interrupt (c : Cpu) (vector : Word) (hmode : s.mode c = .thread)
    (hfits : Fits X (s.current c) (s.regs c))
    : Step alu L X s
        { s.goto c (enter alu L vector (s.regs c, s.mem)).1 (enter alu L vector (s.regs c, s.mem)).2
            .trap with
          interrupted := Function.update s.interrupted (s.current c) (s.regs c)
          entry := Function.update s.entry (s.current c) (enter alu L vector (s.regs c, s.mem)).1 }
  | returns (c : Cpu) (g : Regs) (m : Mem) (hmode : s.mode c = .trap)
    (hbelow : X.Below (s.current c) (s.regs c).rsp s.mem m) (hreturns : Returns (s.regs c) s.mem g)
    : Step alu L X s (s.goto c g m (if g.rip = L.trapped then .trapped else .lost))
  | switches (c : Cpu) (q : T) (g : Regs) (m : Mem) (hmode : s.mode c = .trap)
    (hq : ∀ c', s.current c' ≠ q) (hbelow : X.Below (s.current c) (s.regs c).rsp s.mem m)
    (hcalls : Calls L X (s.current c) q (s.regs c) g m)
    : Step alu L X s
        { s.goto c (Instr.run alu switc (g, m)).1 (Instr.run alu switc (g, m)).2
            (if (Instr.run alu switc (g, m)).1.rip = L.switched then .switched
            else if (Instr.run alu switc (g, m)).1.rip = L.ret then .ret
            else .lost) with
          current := Function.update s.current c q
          fresh := fun t => s.fresh t ∧ t ≠ q
          call := Function.update s.call (s.current c) ⟨g, m⟩ }
  | leaves (c : Cpu) (g : Regs) (m : Mem) (hmode : s.mode c = .switched)
    (hbelow : X.Below (s.current c) (s.entry (s.current c)).rsp s.mem m)
    (hreturns : Resumed (s.call (s.current c)) (s.entry (s.current c)) (s.regs c) s.mem →
      Returns (s.entry (s.current c)) s.mem g)
    : Step alu L X s (s.goto c g m (if g.rip = L.trapped then .trapped else .lost))
  | trapped (c : Cpu) (hmode : s.mode c = .trapped)
    : Step alu L X s
        (s.goto c (Instr.run alu trapped (s.regs c, s.mem)).1 (Instr.run alu trapped (s.regs c, s.mem)).2
          .thread)
  | ret (c : Cpu) (hmode : s.mode c = .ret)
    : Step alu L X s
        (s.goto c (Instr.run alu ret (s.regs c, s.mem)).1 (Instr.run alu ret (s.regs c, s.mem)).2 .thread)

inductive Reached (alu : Word → Word → Word) (L : Labels) (X : Layout T) (s : State Cpu T)
    : State Cpu T → Prop where
  | refl : Reached alu L X s s
  | step {s' s'' : State Cpu T} (h : Reached alu L X s s') (hstep : Step alu L X s' s'')
    : Reached alu L X s s''

/--
What `allocproc` has put on the stack of a new thread.
-/
structure Prepared (L : Labels) (X : Layout T) (t : T) (m : Mem) : Prop where
  lo : X.lo t ≤ (m (X.slot t).toNat).toNat
  hi : (m (X.slot t).toNat).toNat + 56 ≤ X.hi t
  rip : m ((m (X.slot t).toNat).toNat + 48) = L.ret

/--
Every CPU runs a thread of its own, and the others are new.
-/
structure Start (L : Labels) (X : Layout T) (s : State Cpu T) : Prop where
  mode : ∀ c, s.mode c = .thread
  unique : ∀ c c', s.current c = s.current c' → c = c'
  fresh : ∀ t, s.fresh t ↔ ∀ c, s.current c ≠ t
  prepared : ∀ t, s.fresh t → Prepared L X t s.mem

end State

end Switch
end Franklin
