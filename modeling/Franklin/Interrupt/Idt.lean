import Mathlib.Data.BitVec
import Mathlib.Data.List.FinRange
import Mathlib.Logic.Function.Basic

/-!
This module contains the interrupt descriptor table of `kernel/idt.c`, the stubs of `kernel/isr.asm` that it names,
and what the CPU reads in it.
-/

namespace Franklin
namespace Interrupt

abbrev Addr := BitVec 64

/--
The code that gates point to. All stubs push a number and go on with `alltraps`.
-/
inductive Stub where
  | isr_handler (i : Fin 32)
  | isr_timer
  | isr_kbd
  | isr_apic_timer
  | isr_syscall
  | spurious
  deriving DecidableEq, Repr

namespace Stub

def code : Stub → BitVec 64
  | isr_handler i => BitVec.ofNat 64 i
  | isr_timer => 32
  | isr_kbd => 33
  | isr_apic_timer => 34
  | isr_syscall => 69
  | spurious => 255

def all : List Stub :=
  (List.finRange 32).map isr_handler ++ [isr_timer, isr_kbd, isr_apic_timer, isr_syscall, spurious]

theorem mem_all (stub : Stub) : stub ∈ all := by
  cases stub with
  | isr_handler i => simp [all]
  | isr_timer | isr_kbd | isr_apic_timer | isr_syscall | spurious => simp [all]

end Stub

structure Labels where
  addr : Stub → Addr
  injective : Function.Injective addr

def Labels.isr_table (L : Labels) (i : Fin 32) : Addr :=
  L.addr (.isr_handler i)

def Labels.stub (L : Labels) (a : Addr) : Option Stub :=
  Stub.all.find? fun stub => L.addr stub = a

structure IdtEntry where
  isr_low : BitVec 16
  selector : BitVec 16
  ist : BitVec 8
  attributes : BitVec 8
  isr_mid : BitVec 16
  isr_high : BitVec 32
  zero : BitVec 32
  deriving DecidableEq, Repr

namespace IdtEntry

def unset : IdtEntry where
  isr_low := 0
  selector := 0
  ist := 0
  attributes := 0
  isr_mid := 0
  isr_high := 0
  zero := 0

def offset (desc : IdtEntry) : Addr :=
  desc.isr_high ++ desc.isr_mid ++ desc.isr_low

def present (desc : IdtEntry) : Bool :=
  desc.attributes.getLsbD 7

def dpl (desc : IdtEntry) : BitVec 2 :=
  desc.attributes.extractLsb' 5 2

def isGate (desc : IdtEntry) : Bool :=
  desc.attributes.extractLsb' 0 4 = 0xE || desc.attributes.extractLsb' 0 4 = 0xF

end IdtEntry

abbrev Idt := BitVec 8 → IdtEntry

def set_idt_entry (vector : BitVec 8) (isr : Addr) (flags : BitVec 8) (idt : Idt) : Idt :=
  Function.update idt vector
    { isr_low := isr.setWidth 16
      -- kernel code segment in GDT
      selector := 0x5 <<< 3
      ist := 0
      attributes := flags
      isr_mid := (isr >>> 16).setWidth 16
      isr_high := (isr >>> 32).setWidth 32
      zero := 0 }

def new_irq (vector : BitVec 8) (isr : Addr) (idt : Idt) : Idt :=
  set_idt_entry vector isr 0x8E idt

def init_idt (isr_table : Fin 32 → Addr) (idt : Idt) : Idt :=
  (List.finRange 32).foldl (fun idt (vector : Fin 32) =>
    set_idt_entry (BitVec.ofNat 8 vector) (isr_table vector) 0x8E idt) idt

/--
An exception of the CPU. Without a gate for it the machine does not go on.
-/
def exception (L : Labels) (idt : Idt) (vector : BitVec 8) : Option Stub :=
  if (idt vector).isGate ∧ (idt vector).present then L.stub (idt vector).offset else none

/--
The stub that an interrupt leads to. `user` is for the instruction `int` of a program, whose privilege level is 3.
-/
def deliver (L : Labels) (idt : Idt) (user : Bool) (vector : BitVec 8) : Option Stub :=
  if ¬ (idt vector).isGate then
    -- general protection
    exception L idt 13
  else if user ∧ (idt vector).dpl < 3 then
    exception L idt 13
  else if ¬ (idt vector).present then
    -- segment not present
    exception L idt 11
  else
    L.stub (idt vector).offset

end Interrupt
end Franklin
