import Franklin.Interrupt.Pic
import Franklin.Interrupt.Idt

/-!
This module contains the way of an interrupt from the line of a device to its handler and back, after
`init_interrupt` of `kernel/interrupt.c`.
-/

namespace Franklin
namespace Interrupt

/--
`handling` is the stub that the CPU is in. A handler is not interrupted.
-/
structure Machine where
  pics : Pics
  idt : Idt
  PIT_COUNTER : BitVec 32
  handling : Option Stub
  halted : Bool

namespace Machine

def init_interrupt (L : Labels) (m : Machine) : Machine :=
  let m := { m with idt := init_idt L.isr_table m.idt }
  let m := { m with pics := pic_remap 0x20 m.pics }
  let m := { m with idt := new_irq 33 (L.addr .isr_kbd) m.idt }
  let m := { m with idt := new_irq 34 (L.addr .isr_apic_timer) m.idt }
  let m := { m with idt := new_irq 32 (L.addr .isr_timer) m.idt }
  let m := { m with idt := new_irq 255 (L.addr .spurious) m.idt }
  let m := { m with idt := new_irq 69 (L.addr .isr_syscall) m.idt }
  let m := { m with idt := set_idt_entry 69 (L.addr .isr_syscall) 0xEE m.idt }
  let m := { m with pics := unmask_irq 1 m.pics }
  { m with pics := unmask_irq 0 m.pics }

def timerh (m : Machine) : Machine :=
  { m with PIT_COUNTER := m.PIT_COUNTER - 1, pics := out 0x20 0x20 m.pics }

def kbd_press (m : Machine) : Machine :=
  { m with pics := out 0x20 0x20 m.pics }

/--
An exception stops the machine. `syscall` and `apic_timer` leave the controllers alone.
-/
def trap (m : Machine) (code : BitVec 64) : Machine :=
  if code < 32 then
    { m with halted := true }
  else if code = 69 then
    m
  else if code = 32 then
    m.timerh
  else if code = 33 then
    m.kbd_press
  else if code = 34 then
    m
  else
    m

end Machine

/--
`accept` is the CPU between two instructions, with interrupts enabled, and `finish` the end of the handler.
-/
inductive Event where
  | raise (line : Fin 16)
  | accept
  | finish
  deriving DecidableEq, Repr

namespace Machine

def next (L : Labels) (m : Machine) : Event → Machine
  | .raise line => { m with pics := m.pics.raise line }
  | .accept =>
    if m.halted ∨ m.handling.isSome then
      m
    else
      match m.pics.acknowledge with
      | none => m
      | some (vector, pics) =>
        match deliver L m.idt false vector with
        | some stub => { m with pics, handling := some stub }
        | none => { m with pics, halted := true }
  | .finish =>
    match m.handling with
    | none => m
    | some stub =>
      let m' := m.trap stub.code
      if m'.halted then m' else { m' with handling := none }

def run (L : Labels) (m : Machine) (events : List Event) : Machine :=
  events.foldl (next L) m

/--
Before `init_interrupt`. The masks are what the boot loader has left.
-/
structure Fresh (m : Machine) : Prop where
  idt : m.idt = fun _ => .unset
  handling : m.handling = none
  halted : m.halted = false
  master : m.pics.master.isr = 0
  slave : m.pics.slave.isr = 0

/--
No interrupt stops the machine, and none is left without an end.
-/
structure Served (m : Machine) : Prop where
  halted : m.halted = false
  master : m.handling = none → m.pics.master.isr = 0
  slave : m.handling = none → m.pics.slave.isr = 0

end Machine

end Interrupt
end Franklin
