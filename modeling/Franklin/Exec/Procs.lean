import Franklin.Exec.Lemmas.Exec
import Franklin.Lib.Journal

/-!
This module contains the programs that `exec` has started, each with the lower half of an address space of its own.
-/

namespace Franklin
namespace Exec

open Vmm (Addr Mem walk P2V PTE_GET_ADDR PTE_PRESENT PTE_RW PTE_USER)

abbrev UserAddr := BitVec 47

/--
What a program reads in the lower half of its address space.
-/
def readUser (mem : Mem) (top_level : Addr) (a : UserAddr) : Option UInt8 :=
  readVirt mem top_level (a.setWidth 64)

/--
The entry of a page that a program may write to.
-/
def Writable (entry : BitVec 64) : Prop :=
  entry &&& PTE_PRESENT ≠ 0#64 ∧ entry &&& PTE_RW ≠ 0#64 ∧ entry &&& PTE_USER ≠ 0#64

instance (entry : BitVec 64) : Decidable (Writable entry) := by
  unfold Writable
  infer_instance

/--
The memory after a program has written a byte, `none` is a page fault.
-/
def writeVirt (mem : Mem) (top_level : Addr) (vaddr : BitVec 64) (b : UInt8) : Option Mem :=
  let entry := walk mem top_level vaddr
  if Writable entry then
    some (writeBytes mem (P2V (PTE_GET_ADDR entry) + BitVec.ofNat 64 (vaddr.toNat % PGSIZE)) 1 fun _ => b)
  else
    none

/--
`vmap p` is the address space that the last `exec` of the process `p` has made. The variables that `kernel` has for
the current process are those of the last one that has called `exec`.
-/
structure Procs (P : Type) where
  kernel : State
  vmap : P → Option Addr

/--
What changes the memory of programs: `exec` puts a new program in the place of the old one, `image` is what it finds
in its lower half, and a program writes a byte.
-/
inductive Access (P : Type) where
  | exec (p : P) (image : UserAddr → Option UInt8)
  | store (p : P) (a : UserAddr) (b : UInt8)

namespace Access

variable {P : Type} [DecidableEq P]

def effect : Access P → P × UserAddr → Option (Option UInt8)
  | exec p image, key => if key.1 = p then some (image key.2) else none
  | store p a b, key => if key = (p, a) then some (some b) else none

end Access

/--
`init_vm` has been called, before that no free page held a word with the present bit.
-/
def Booted (image : Vmm.KernelImage) (kernel_top : Addr) (s : State) : Prop :=
  ∃ (s₀ : State) (vm : Vmm.Vm), (∀ page ∈ s₀.vm.supply, PTE_GET_ADDR page = page) ∧
    (∀ page ∈ s₀.vm.supply, ∀ i, s₀.mem (P2V page) i &&& PTE_PRESENT = 0#64) ∧
    Vmm.init_vm s₀.vm image = some (kernel_top, vm) ∧ s = s₀.withVm vm

def opened (fuel : Nat) (locals : Locals) (name : Fs.Name) (s : State) : Option Fs.File :=
  match Fs.vfs_open name .VNON false fuel s.fs with
  | .ok (_, vn) _ => vn.map s.file <|> locals.vn
  | .error _ _ => none

/--
The segments of the file fit the pages that `loadelf` allocates for them, and the arguments fit the stack.
-/
structure Contained (fuel : Nat) (locals : Locals) (name : Fs.Name) (argv : List Arg) (s : State) : Prop where
  segments : ∀ vn, opened fuel locals name s = some vn → ∀ phdr ∈ segments locals vn, Fits vn phdr
  args : imageSize argv ≤ STACKSIZE

/--
The rest of the kernel changes files and allocates pages. It frees none.
-/
structure Rest (s s' : State) : Prop where
  mem : s'.mem = s.mem
  held : Held s s'

namespace Procs

variable {P : Type} [DecidableEq P]

/--
The runs after the boot, with what the processes have done to their memory.
-/
inductive Run (image : Vmm.KernelImage) (kernel_top : Addr) : List (Access P) → Procs P → Prop where
  | boot {s : State} : Booted image kernel_top s → Run image kernel_top [] { kernel := s, vmap := fun _ => none }
  | exec {log : List (Access P)} {s : Procs P} {p : P} {fuel : Nat} {locals : Locals} {name : Fs.Name}
    {argv : List Arg} {sp : Addr} {s' : State} :
    Run image kernel_top log s → Contained fuel locals name argv s.kernel →
    Exec.exec fuel locals kernel_top name argv s.kernel = .ok sp s' →
    Run image kernel_top (log ++ [.exec p (readUser s'.mem s'.vmap)])
      { kernel := s', vmap := Function.update s.vmap p (some s'.vmap) }
  | store {log : List (Access P)} {s : Procs P} {p : P} {m : Addr} {a : UserAddr} {b : UInt8} {mem : Mem} :
    Run image kernel_top log s → s.vmap p = some m → writeVirt s.kernel.mem m (a.setWidth 64) b = some mem →
    Run image kernel_top (log ++ [.store p a b]) { s with kernel := { s.kernel with mem } }
  | rest {log : List (Access P)} {s : Procs P} {s' : State} :
    Run image kernel_top log s → Rest s.kernel s' → Run image kernel_top log { s with kernel := s' }

end Procs

end Exec
end Franklin
