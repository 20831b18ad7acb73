import Franklin.Lib.Words

/-!
This module contains the path of a timer interrupt through `kernel/isr.asm`, `kernel/switch.asm` and the
scheduler, with the registers and the stacks that it saves. Of the compiled functions `trap`, `apic_timer`
and `scheduler` only what the calling convention promises is used.
-/

namespace Franklin
namespace Switch

open Words (push)

abbrev Word := BitVec 64

/--
The memory, which all code here accesses in aligned words of eight bytes.
-/
abbrev Mem := Nat → Word

inductive Reg where
  | rax | rbx | rcx | rdx | rsi | rdi | rbp | rsp
  | r8 | r9 | r10 | r11 | r12 | r13 | r14 | r15
  deriving DecidableEq, Repr

structure Regs where
  rax : Word
  rbx : Word
  rcx : Word
  rdx : Word
  rsi : Word
  rdi : Word
  rbp : Word
  rsp : Word
  r8 : Word
  r9 : Word
  r10 : Word
  r11 : Word
  r12 : Word
  r13 : Word
  r14 : Word
  r15 : Word
  rip : Word
  rflags : Word
  cs : Word
  ss : Word
  deriving DecidableEq, Repr

namespace Regs

def get (g : Regs) : Reg → Word
  | .rax => g.rax | .rbx => g.rbx | .rcx => g.rcx | .rdx => g.rdx
  | .rsi => g.rsi | .rdi => g.rdi | .rbp => g.rbp | .rsp => g.rsp
  | .r8 => g.r8 | .r9 => g.r9 | .r10 => g.r10 | .r11 => g.r11
  | .r12 => g.r12 | .r13 => g.r13 | .r14 => g.r14 | .r15 => g.r15

def set (g : Regs) (r : Reg) (v : Word) : Regs :=
  match r with
  | .rax => { g with rax := v } | .rbx => { g with rbx := v }
  | .rcx => { g with rcx := v } | .rdx => { g with rdx := v }
  | .rsi => { g with rsi := v } | .rdi => { g with rdi := v }
  | .rbp => { g with rbp := v } | .rsp => { g with rsp := v }
  | .r8 => { g with r8 := v } | .r9 => { g with r9 := v }
  | .r10 => { g with r10 := v } | .r11 => { g with r11 := v }
  | .r12 => { g with r12 := v } | .r13 => { g with r13 := v }
  | .r14 => { g with r14 := v } | .r15 => { g with r15 := v }

end Regs

/--
The instructions of the two files, `store b s` is `mov qword [b], s`. A call has the address that it
returns to.
-/
inductive Instr where
  | push (r : Reg)
  | pushImm (v : Word)
  | pop (r : Reg)
  | mov (d s : Reg)
  | store (b s : Reg)
  | and (r : Reg) (v : Word)
  | add (r : Reg) (v : Word)
  | cld
  | jmp (label : Word)
  | call (label back : Word)
  | ret
  | iretq
  deriving DecidableEq, Repr

/--
The addresses that are jumped to. `trapped` and `switched` are the return addresses of `call trap` in
`alltraps` and of the call of `switc` in `scheduler`.
-/
structure Labels where
  isr_apic_timer : Word
  alltraps : Word
  trap : Word
  trapped : Word
  ret : Word
  switched : Word
  switched_ne_ret : switched ≠ ret

/--
The direction flag, and the flags that an interrupt clears: IF, TF, NT and RF.
-/
def DF : Word := 0x400#64

def masked : Word := 0x14300#64

namespace Instr

/--
What an instruction does, where `alu` are the flags that arithmetic leaves. `rip` is followed only where
an instruction jumps.
-/
def exec (alu : Word → Word → Word) : Instr → Regs × Mem → Regs × Mem
  | push r, (g, m) => ({ g with rsp := g.rsp - 8 }, Words.push 8 m g.rsp (g.get r))
  | pushImm v, (g, m) => ({ g with rsp := g.rsp - 8 }, Words.push 8 m g.rsp v)
  | pop r, (g, m) => ({ g with rsp := g.rsp + 8 }.set r (m g.rsp.toNat), m)
  | mov d s, (g, m) => (g.set d (g.get s), m)
  | store b s, (g, m) => (g, Function.update m (g.get b).toNat (g.get s))
  | and r v, (g, m) => ({ g with rflags := alu g.rflags (g.get r &&& v) }.set r (g.get r &&& v), m)
  | add r v, (g, m) => ({ g with rflags := alu g.rflags (g.get r + v) }.set r (g.get r + v), m)
  | cld, (g, m) => ({ g with rflags := g.rflags &&& ~~~DF }, m)
  | jmp label, (g, m) => ({ g with rip := label }, m)
  | call label back, (g, m) => ({ g with rsp := g.rsp - 8, rip := label }, Words.push 8 m g.rsp back)
  | ret, (g, m) => ({ g with rsp := g.rsp + 8, rip := m g.rsp.toNat }, m)
  | iretq, (g, m) =>
    ({ g with
      rip := m g.rsp.toNat
      cs := m (g.rsp + 8).toNat
      rflags := m (g.rsp + 8 + 8).toNat
      rsp := m (g.rsp + 8 + 8 + 8).toNat
      ss := m (g.rsp + 8 + 8 + 8 + 8).toNat }, m)

def run (alu : Word → Word → Word) (code : List Instr) (gm : Regs × Mem) : Regs × Mem :=
  code.foldl (fun gm i => i.exec alu gm) gm

end Instr

open Instr in
def pushregs : List Instr :=
  [push .rbp, push .rax, push .rcx, push .rdx, push .rdi, push .rsi, push .r8, push .r9, push .r10, push .r11]

open Instr in
def popregs : List Instr :=
  [pop .r11, pop .r10, pop .r9, pop .r8, pop .rsi, pop .rdi, pop .rdx, pop .rcx, pop .rax, pop .rbp]

def irq_stub (L : Labels) (vector : Word) : List Instr :=
  [.pushImm vector, .jmp L.alltraps]

def alltraps (L : Labels) : List Instr :=
  .cld :: pushregs ++ [.mov .rbp .rsp, .and .rsp (~~~0xF), .mov .rdi .rbp, .call L.trap L.trapped]

def ret : List Instr :=
  popregs ++ [.add .rsp 8, .iretq]

def trapped : List Instr :=
  .mov .rsp .rbp :: ret

open Instr in
def push_callee_regs : List Instr :=
  [push .r15, push .r14, push .r13, push .r12, push .rbx, push .rbp]

open Instr in
def pop_callee_regs : List Instr :=
  [pop .rbp, pop .rbx, pop .r12, pop .r13, pop .r14, pop .r15]

def switc : List Instr :=
  push_callee_regs ++ [.store .rdi .rsp, .mov .rsp .rsi] ++ pop_callee_regs ++ [.ret]

/--
What the CPU does for an interrupt without a change of the privilege level: it aligns the stack and pushes
`ss`, `rsp`, `rflags`, `cs` and `rip`.
-/
def interrupt (L : Labels) (gm : Regs × Mem) : Regs × Mem :=
  let (g, m) := gm
  let base := g.rsp &&& ~~~0xF
  let m := push 8 m base g.ss
  let m := push 8 m (base - 8) g.rsp
  let m := push 8 m (base - 8 - 8) g.rflags
  let m := push 8 m (base - 8 - 8 - 8) g.cs
  let m := push 8 m (base - 8 - 8 - 8 - 8) g.rip
  ({ g with
    rsp := base - 8 - 8 - 8 - 8 - 8
    rflags := g.rflags &&& ~~~masked
    cs := 0x28
    rip := L.isr_apic_timer }, m)

def enter (alu : Word → Word → Word) (L : Labels) (vector : Word) (gm : Regs × Mem) : Regs × Mem :=
  Instr.run alu (irq_stub L vector ++ alltraps L) (interrupt L gm)

/--
The registers that a function has to preserve, apart from `rsp`.
-/
structure Regs.SameCallee (g g' : Regs) : Prop where
  rbx : g'.rbx = g.rbx
  rbp : g'.rbp = g.rbp
  r12 : g'.r12 = g.r12
  r13 : g'.r13 = g.r13
  r14 : g'.r14 = g.r14
  r15 : g'.r15 = g.r15

end Switch
end Franklin
