import Franklin.Lib.Cstring
import Franklin.Lib.Endian
import Mathlib.Data.Nat.Find

/-!
This module contains `copyargs` of `kernel/proc.c` and a reader of the stack that it builds.

The stack is in a block of memory that starts at the address `base`. The pointer `*stack` is represented by its
index in the block, and a write outside of the block has no result.
-/

namespace Franklin
namespace Exec

def AT_NULL : BitVec 64 := 0#64
def AT_PHDR : BitVec 64 := 3#64
def AT_PHENT : BitVec 64 := 4#64
def AT_PHNUM : BitVec 64 := 5#64
def AT_ENTRY : BitVec 64 := 9#64

def STACKSIZE : Nat := 0x40000

structure Auxval where
  at_entry : BitVec 64
  at_phdr : BitVec 64
  at_phent : BitVec 64
  at_phnum : BitVec 64
  deriving DecidableEq

structure Arg where
  byte : Nat → UInt8
  -- `strlen` does not look at the first byte.
  ends : ∃ n, 1 ≤ n ∧ byte n = 0

namespace Arg

def length (arg : Arg) : Nat :=
  Nat.find arg.ends

theorem exists_zero (arg : Arg) : ∃ n, arg.byte n = 0 := by
  rcases arg.ends with ⟨n, _, hn⟩
  exact ⟨n, hn⟩

/--
The bytes in front of the first one that is zero.
-/
def text (arg : Arg) : List UInt8 :=
  (List.range (Nat.find arg.exists_zero)).map arg.byte

end Arg

def address (base : BitVec 64) (i : Int) : BitVec 64 :=
  base + BitVec.ofInt 64 i

namespace copyargs

def push (b : Block) (sp : Int) (v : BitVec 64) : Option (Block × Int) := do
  let sp := sp - 8
  let b ← b.store sp v
  some (b, sp)

def pushPair (b : Block) (sp : Int) (type val : BitVec 64) : Option (Block × Int) := do
  let sp := sp - 16
  let b ← b.store sp type
  let b ← b.store (sp + 8) val
  some (b, sp)

def strings (b : Block) (sp : Int) : List Arg → Option (Block × Int)
  | [] => some (b, sp)
  | arg :: argv => do
    let length := arg.length
    let sp := sp - length - 1
    let b ← strcpy length b sp arg.byte
    strings b sp argv

def pointers (base : BitVec 64) (b : Block) (sp oldrsp i : Int) : List Arg → Option Block
  | [] => some b
  | arg :: argv => do
    let oldrsp := oldrsp - (arg.length + 1)
    let b ← b.store (sp + 8 * i) (address base oldrsp)
    pointers base b sp oldrsp (i + 1) argv

def pairs (b : Block) (sp : Int) (aux : Auxval) : Option (Block × Int) := do
  let (b, sp) ← push b sp 0#64
  -- The second operand of `*--(*stack) = 0, *--(*stack)` writes nothing.
  let sp := sp - 8
  let (b, sp) ← pushPair b sp AT_ENTRY aux.at_entry
  let (b, sp) ← pushPair b sp AT_PHDR aux.at_phdr
  let (b, sp) ← pushPair b sp AT_PHENT aux.at_phent
  pushPair b sp AT_PHNUM aux.at_phnum

end copyargs

def copyargs (base : BitVec 64) (b : Block) (sp : Int) (argv : List Arg) (aux : Auxval) : Option (Block × Int) := do
  let oldrsp := sp
  let (b, sp) ← copyargs.strings b sp argv
  let (b, sp) ← copyargs.pairs b sp aux
  let (b, sp) ← copyargs.push b sp 0#64
  let sp := sp - 8 * argv.length
  let b ← copyargs.pointers base b sp oldrsp 0 argv
  copyargs.push b sp (BitVec.ofNat 64 argv.length)

structure Image where
  argc : BitVec 64
  argv : List (List UInt8)
  envp : List (BitVec 64)
  auxv : List (BitVec 64 × BitVec 64)
  deriving DecidableEq

namespace decode

def index (base addr : BitVec 64) : Int :=
  (addr - base).toNat

/--
The bytes up to a zero, `fuel` is a bound for their number.
-/
def string (b : Block) : Nat → Int → Option (List UInt8)
  | 0, _ => none
  | fuel + 1, i => do
    let c ← b.get i
    if c = 0 then
      some []
    else
      let s ← string b fuel (i + 1)
      some (c :: s)

/--
The strings whose `n` addresses are stored from the index `i` on.
-/
def strings (base : BitVec 64) (b : Block) (fuel : Nat) (i : Int) : Nat → Option (List (List UInt8))
  | 0 => some []
  | n + 1 => do
    let addr ← b.load i
    let s ← string b fuel (index base addr)
    let ss ← strings base b fuel (i + 8) n
    some (s :: ss)

/--
The words up to a zero, and the index behind it.
-/
def words (b : Block) : Nat → Int → Option (List (BitVec 64) × Int)
  | 0, _ => none
  | fuel + 1, i => do
    let v ← b.load i
    if v = 0#64 then
      some ([], i + 8)
    else
      let (vs, i) ← words b fuel (i + 8)
      some (v :: vs, i)

def pairs (b : Block) : Nat → Int → Option (List (BitVec 64 × BitVec 64))
  | 0, _ => none
  | fuel + 1, i => do
    let type ← b.load i
    if type = AT_NULL then
      some []
    else
      let val ← b.load (i + 8)
      let ps ← pairs b fuel (i + 16)
      some ((type, val) :: ps)

end decode

/--
The stack from the index `sp` on in the order of the System V ABI.
-/
def decode (fuel : Nat) (base : BitVec 64) (b : Block) (sp : Int) : Option Image := do
  let argc ← b.load sp
  let argv ← decode.strings base b fuel (sp + 8) argc.toNat
  let null ← b.load (sp + 8 + 8 * argc.toNat)
  if null ≠ 0#64 then
    none
  else
    let (envp, i) ← decode.words b fuel (sp + 8 + 8 * argc.toNat + 8)
    let auxv ← decode.pairs b fuel i
    some { argc, argv, envp, auxv }

end Exec
end Franklin
