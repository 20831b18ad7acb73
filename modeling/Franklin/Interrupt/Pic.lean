import Mathlib.Data.BitVec
import Mathlib.Data.List.FinRange

/-!
This module contains the two interrupt controllers, and the functions of `kernel/pic.c` that program them.
-/

namespace Franklin
namespace Interrupt

/--
The words that a controller expects after the first one of its initialization.
-/
inductive Icw where
  | icw2
  | icw3
  | icw4
  deriving DecidableEq, Repr

/--
`imr` are the lines that are masked, `irr` those that ask for an interrupt, and `isr` those whose interrupt is being
handled. `expects` is what is left of the initialization.
-/
structure Pic where
  imr : BitVec 8
  irr : BitVec 8
  isr : BitVec 8
  icw2 : BitVec 8
  icw3 : BitVec 8
  icw4 : BitVec 8
  expects : List Icw
  deriving DecidableEq, Repr

namespace Pic

/--
The end of the interrupt with the highest priority among those that are being handled. Line 0 comes first.
-/
def eoi (pic : Pic) : Pic :=
  { pic with isr := pic.isr &&& (pic.isr - 1) }

/--
A byte at the command port. The kernel sends nothing but the first word of the initialization and the end of an
interrupt.
-/
def command (pic : Pic) (v : BitVec 8) : Pic :=
  if v.getLsbD 4 then
    { pic with
      imr := 0
      irr := 0
      icw4 := if v.getLsbD 0 then pic.icw4 else 0
      expects := .icw2 :: (if v.getLsbD 1 then [] else [.icw3]) ++ if v.getLsbD 0 then [.icw4] else [] }
  else if v = 0x20 then
    pic.eoi
  else
    pic

def data (pic : Pic) (v : BitVec 8) : Pic :=
  match pic.expects with
  | [] => { pic with imr := v }
  | .icw2 :: rest => { pic with icw2 := v, expects := rest }
  | .icw3 :: rest => { pic with icw3 := v, expects := rest }
  | .icw4 :: rest => { pic with icw4 := v, expects := rest }

/--
A line waits for the end of the interrupts with a higher priority, and of its own one.
-/
def int (pic : Pic) : Option (Fin 8) :=
  match (List.finRange 8).find? fun i : Fin 8 => pic.isr.getLsbD i || (pic.irr &&& ~~~pic.imr).getLsbD i with
  | some i => if pic.isr.getLsbD i then none else some i
  | none => none

/--
The interrupt of a line begins. With the bit `AEOI` of the fourth word it also ends there.
-/
def acknowledge (pic : Pic) (i : Fin 8) : Pic :=
  { pic with
    irr := pic.irr &&& ~~~(1#8 <<< i.val)
    isr := if pic.icw4.getLsbD 1 then pic.isr else pic.isr ||| 1#8 <<< i.val }

/--
The upper bits of a vector come from the second word.
-/
def vector (pic : Pic) (i : Fin 8) : BitVec 8 :=
  pic.icw2 &&& 0xF8 ||| BitVec.ofNat 8 i

end Pic

structure Pics where
  master : Pic
  slave : Pic
  deriving DecidableEq, Repr

namespace Pics

/--
The output of the slave is line 2 of the master.
-/
def wired (pics : Pics) : Pic :=
  if pics.slave.int.isSome then { pics.master with irr := pics.master.irr ||| 0b100 } else pics.master

/--
The CPU accepts an interrupt. On a line that the third word of the master names, the slave with the number of the
line sends the vector, or nobody.
-/
def acknowledge (pics : Pics) : Option (BitVec 8 × Pics) :=
  match pics.wired.int with
  | none => none
  | some i =>
    let master := pics.master.acknowledge i
    if ¬ pics.master.icw3.getLsbD i then
      some (pics.master.vector i, { pics with master })
    else if pics.slave.icw3.setWidth 3 ≠ BitVec.ofNat 3 i then
      some (0xFF, { pics with master })
    else
      match pics.slave.int with
      | some j => some (pics.slave.vector j, { master, slave := pics.slave.acknowledge j })
      | none => some (pics.slave.vector 7, { pics with master })

/--
A device asks for an interrupt on one of the lines of the master, then those of the slave.
-/
def raise (pics : Pics) (line : Fin 16) : Pics :=
  if line = 2 then
    pics
  else if line < 8 then
    { pics with master := { pics.master with irr := pics.master.irr ||| 1#8 <<< line.val } }
  else
    { pics with slave := { pics.slave with irr := pics.slave.irr ||| 1#8 <<< (line.val - 8) } }

end Pics

def PIC1_COMMAND : BitVec 8 := 0x20

def PIC1_DATA : BitVec 8 := 0x21

def PIC2_COMMAND : BitVec 8 := 0xA0

def PIC2_DATA : BitVec 8 := 0xA1

def ICW1 : BitVec 8 := 0b000010000

def out (port buffer : BitVec 8) (pics : Pics) : Pics :=
  if port = PIC1_COMMAND then { pics with master := pics.master.command buffer }
  else if port = PIC1_DATA then { pics with master := pics.master.data buffer }
  else if port = PIC2_COMMAND then { pics with slave := pics.slave.command buffer }
  else if port = PIC2_DATA then { pics with slave := pics.slave.data buffer }
  else pics

/--
`in` at a port of the controllers. The command ports give the lines that ask for an interrupt.
-/
def inb (port : BitVec 8) (pics : Pics) : BitVec 8 :=
  if port = PIC1_COMMAND then pics.master.irr
  else if port = PIC1_DATA then pics.master.imr
  else if port = PIC2_COMMAND then pics.slave.irr
  else if port = PIC2_DATA then pics.slave.imr
  else 0xFF

def unmask_irq (irq : BitVec 8) (pics : Pics) : Pics :=
  let imr := inb 0x21 pics
  let imr := imr ^^^ 1#8 <<< irq.toNat
  out 0x21 imr pics

def pic_remap (offset : BitVec 8) (pics : Pics) : Pics :=
  -- the masks get cleared by the initialization
  let mask := inb PIC1_DATA pics
  let mask2 := inb PIC2_DATA pics
  let pics := out PIC1_COMMAND (ICW1 ||| 0x01) pics
  let pics := out PIC2_COMMAND (ICW1 ||| 0x01) pics
  let pics := out PIC1_DATA offset pics
  let pics := out PIC2_DATA offset pics
  -- the slave is at line 2
  let pics := out PIC1_DATA 0b100 pics
  let pics := out PIC2_DATA 0b10 pics
  let pics := out PIC1_DATA 0x01 pics
  let pics := out PIC2_DATA 0x01 pics
  let pics := out PIC1_DATA mask pics
  out PIC2_DATA mask2 pics

end Interrupt
end Franklin
