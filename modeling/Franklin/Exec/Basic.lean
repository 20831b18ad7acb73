import Franklin.Exec.Copyargs
import Franklin.Exec.Memory
import Franklin.Fs.File
import Franklin.Fs.Vfs
import Franklin.Slab.Heap

/-!
This module contains `exec` and `loadelf` of `kernel/proc.c`.
-/

namespace Franklin
namespace Exec

open Vmm (Addr Mem Vm P2V PTE_PRESENT PTE_RW PTE_USER PTE_NX)

def PT_LOAD : BitVec 64 := 1#64
def PT_PHDR : BitVec 64 := 6#64

def PF_X : BitVec 64 := 1#64
def PF_W : BitVec 64 := 2#64

/--
The member of a structure that starts at an offset and has a number of bytes.
-/
def field (b : Block) (offset width : Nat) : BitVec 64 :=
  BitVec.ofNat 64 (Endian.value (fun k => b.byte (offset + k)) width)

-- `Elf64_Ehdr`
def sizeofEhdr : Nat := 64
def e_entry (elf : Block) : BitVec 64 := field elf 24 8
def e_phoff (elf : Block) : BitVec 64 := field elf 32 8
def e_phentsize (elf : Block) : BitVec 64 := field elf 54 2
def e_phnum (elf : Block) : BitVec 64 := field elf 56 2

-- `Elf64_Phdr`
def sizeofPhdr : Nat := 56
def p_type (phdr : Block) : BitVec 64 := field phdr 0 4
def p_flags (phdr : Block) : BitVec 64 := field phdr 4 4
def p_offset (phdr : Block) : BitVec 64 := field phdr 8 8
def p_vaddr (phdr : Block) : BitVec 64 := field phdr 16 8
def p_filesz (phdr : Block) : BitVec 64 := field phdr 32 8
def p_memsz (phdr : Block) : BitVec 64 := field phdr 40 8

def DIV_ROUNDUP (n d : BitVec 64) : BitVec 64 :=
  (n + d - 1) / d

def pgsize : BitVec 64 :=
  BitVec.ofNat 64 PGSIZE

def pagecount (phdr : Block) : BitVec 64 :=
  DIV_ROUNDUP (p_memsz phdr) pgsize

def flags (phdr : Block) : BitVec 64 :=
  let flags := PTE_PRESENT ||| PTE_USER
  let flags := if p_flags phdr &&& PF_W ≠ 0#64 then flags ||| PTE_RW else flags
  if p_flags phdr &&& PF_X = 0#64 then flags ||| PTE_NX else flags

structure Regs where
  rsp : BitVec 64
  rip : BitVec 64
  cs : BitVec 64
  ss : BitVec 64
  eflags : BitVec 64
  deriving DecidableEq

/--
A copy of bytes from a file to the `pages` pages at the physical address `page`.
-/
structure Copy where
  page : Addr
  pages : Nat
  dest : Addr
  count : Nat

/--
`file v` is the vnode `v` with its contents, `heap`, `slabs` and `id` are the words and the variables of
`kernel/slab.c`, and `regs` and `vmap` belong to the current process. `rsp0` is the member of the task state
segment. `copies` is not in the source, it records what `loadelf` copies from files.
-/
structure State where
  fs : Fs.St
  file : Nat → Fs.File
  mem : Mem
  bm : Pmm.Bitmap
  heap : Nat → Nat
  slabs : Nat
  id : Nat
  regs : Regs
  vmap : Addr
  rsp0 : Addr
  copies : List Copy

/--
What the local variables of `loadelf` and `exec` hold before they are written. `vn` is the vnode that the pointer
refers to, if it refers to one.
-/
structure Locals where
  vn : Option Fs.File
  elf : Nat → UInt8
  phdr : Nat → UInt8
  aux : Auxval

def supply (bm : Pmm.Bitmap) : Nat → List Addr
  | 0 => []
  | n + 1 =>
    match Pmm.palloc bm 1 with
    | none => []
    | some (page, bm) => BitVec.ofNat 64 page :: supply bm n

def taken (bm : Pmm.Bitmap) : Nat → Pmm.Bitmap
  | 0 => bm
  | n + 1 =>
    match Pmm.palloc bm 1 with
    | none => bm
    | some (_, bm) => taken bm n

namespace State

/--
The state as `kernel/vmm.c` sees it, there are no more calls of `palloc(1)` with a result than pages.
-/
def vm (s : State) : Vm where
  mem := s.mem
  supply := supply s.bm s.bm.pages

def withVm (s : State) (vm : Vm) : State :=
  { s with
    mem := vm.mem
    bm := taken s.bm (s.vm.supply.length - vm.supply.length) }

end State

abbrev Prog := EStateM Fs.Stop State

def palloc (pages : Nat) : Prog Addr := fun s =>
  match Pmm.palloc s.bm pages with
  | none => .error .fault s
  | some (page, bm) => .ok (BitVec.ofNat 64 page) { s with bm }

def kalloc (size fuel : Nat) : Prog Nat := fun s =>
  match Slab.Heap.kalloc { mem := s.heap, slabs := s.slabs, id := s.id, bm := s.bm } size fuel with
  | none => .error .fault s
  | some (ptr, heap) => .ok ptr { s with heap := heap.mem, slabs := heap.slabs, id := heap.id, bm := heap.bm }

def sizeofVmMap : Nat := 16

def newvm_map.copy (kernel_top : Addr) : Prog Addr := fun s =>
  match Vmm.newvm_map s.vm kernel_top with
  | none => .error .fault s
  | some (top_level, vm) => .ok top_level (s.withVm vm)

def newvm_map (fuel : Nat) (kernel_top : Addr) : Prog Addr := do
  let _ ← kalloc sizeofVmMap fuel
  newvm_map.copy kernel_top

def mappages (top_level : Addr) (vaddr paddr size flags : BitVec 64) : Prog Unit := fun s =>
  match Vmm.mappages s.vm top_level vaddr paddr size flags with
  | none => .error .fault s
  | some (_, vm) => .ok () (s.withVm vm)

/--
`vfs_open(name, &vn, 0, 0)`, the result is what it stores in `vn`.
-/
def vfs_open (name : Fs.Name) (fuel : Nat) : Prog (Option Fs.File) := fun s =>
  match Fs.vfs_open name .VNON false fuel s.fs with
  | .ok (_, vn) fs => .ok (vn.map s.file) { s with fs }
  | .error e fs => .error e { s with fs }

/--
`vfs_read` into a local variable. The vnode is the same afterwards, its locks are free again.
-/
def readLocal (vn : Fs.File) (buf : Block) (offset count : BitVec 64) : Prog Block := fun s =>
  match Fs.vfs_read buf offset count vn with
  | .ok (_, buf) _ => .ok buf s
  | .error e _ => .error e s

def Copies (vn : Fs.File) (offset count : BitVec 64) : Prop :=
  vn.lock = false ∧ vn.type ≠ .VDIR ∧ vn.ramlock = false ∧ ¬ vn.size < offset + count
    ∧ ¬ (vn.data matches .null)

instance (vn : Fs.File) (offset count : BitVec 64) : Decidable (Copies vn offset count) := by
  unfold Copies
  infer_instance

def copied (vn : Fs.File) (paddr : Addr) (pages : Nat) (offset count : BitVec 64) : List Copy :=
  if Copies vn offset count then
    [{ page := paddr, pages, dest := P2V paddr, count := count.toNat }]
  else
    []

def readPages (vn : Fs.File) (paddr : Addr) (pages : Nat) (offset count : BitVec 64) : Prog Unit := fun s =>
  let dest := P2V paddr
  let copies := copied vn paddr pages offset count ++ s.copies
  match Fs.vfs_read (window s.mem dest count.toNat) offset count vn with
  | .ok (_, buf) _ => .ok () { s with mem := writeBytes s.mem dest count.toNat buf.byte, copies }
  | .error e _ => .error e { s with copies }

namespace loadelf

def segment (vmap : Addr) (vn : Fs.File) (phdr : Block) : Prog Unit := do
  let paddr ← palloc (pagecount phdr).toNat
  -- map the segment
  mappages vmap (p_vaddr phdr) paddr (pagecount phdr * pgsize) (flags phdr)
  -- read it into memory
  readPages vn paddr (pagecount phdr).toNat (p_offset phdr) (p_filesz phdr)

def loop (vmap : Addr) (vn : Fs.File) (elf phdr : Block) (aux : Auxval) (i : Nat) : Nat → Prog Auxval
  | 0 => pure aux
  | n + 1 => do
    -- The result is not looked at, a read that fails leaves `phdr` as it was.
    let phdr ← readLocal vn phdr (e_phoff elf + BitVec.ofNat 64 (i * sizeofPhdr)) (BitVec.ofNat 64 sizeofPhdr)
    if p_type phdr = PT_LOAD then
      segment vmap vn phdr
      loop vmap vn elf phdr aux (i + 1) n
    else if p_type phdr = PT_PHDR then
      loop vmap vn elf phdr { aux with at_phdr := p_vaddr phdr } (i + 1) n
    else
      loop vmap vn elf phdr aux (i + 1) n

def file (locals : Locals) (vmap : Addr) (vn : Fs.File) : Prog Auxval := do
  let elf ← readLocal vn { size := sizeofEhdr, byte := locals.elf } 0#64 (BitVec.ofNat 64 sizeofEhdr)
  let aux ← loop vmap vn elf { size := sizeofPhdr, byte := locals.phdr } locals.aux 0 (e_phnum elf).toNat
  pure { aux with at_entry := e_entry elf, at_phent := e_phentsize elf, at_phnum := e_phnum elf }

end loadelf

def loadelf (fuel : Nat) (locals : Locals) (name : Fs.Name) (vmap : Addr) : Prog Auxval := do
  let vn ← vfs_open name fuel
  -- The result is not looked at, without a vnode `vn` is what it was.
  match vn <|> locals.vn with
  | none => throw .fault
  | some vn => loadelf.file locals vmap vn

namespace exec

def stackva : BitVec 64 := 0x70000000000#64

/--
`exec` up to the call of `copyargs`, with the new address space, the physical address of the stack and `aux`.
-/
def load (fuel : Nat) (locals : Locals) (kernel_top : Addr) (name : Fs.Name) : Prog (Addr × Addr × Auxval) := do
  let vmap ← newvm_map fuel kernel_top
  let aux ← loadelf fuel locals name vmap
  -- allocate and map the stack
  let stack ← palloc (STACKSIZE / PGSIZE)
  mappages vmap stackva stack (BitVec.ofNat 64 STACKSIZE) (PTE_PRESENT ||| PTE_RW ||| PTE_USER)
  modify fun s =>
    { s with
      regs :=
        { rsp := stackva + BitVec.ofNat 64 STACKSIZE, rip := aux.at_entry, cs := 0x43, ss := 0x3b, eflags := 0x202 }
      vmap }
  pure (vmap, stack, aux)

/--
The memory below the physical address `paddr` as the kernel sees it.
-/
def below (s : State) (paddr : Addr) : Block :=
  window s.mem (P2V 0#64) paddr.toNat

/--
`copyargs` on the stack that ends at the physical address `paddr`, with `*stack` behind it.
-/
def putargs (paddr : Addr) (argv : List Arg) (aux : Auxval) : Prog Addr := fun s =>
  match copyargs (P2V 0#64) (below s paddr) paddr.toNat argv aux with
  | none => .error .fault s
  | some (b, sp) => .ok (address (P2V 0#64) sp) { s with mem := writeBytes s.mem (P2V 0#64) paddr.toNat b.byte }

def sizeofTss : Nat := 12

end exec

/--
`exec` up to the call of `startproc`, the result is `stack`.
-/
def exec (fuel : Nat) (locals : Locals) (kernel_top : Addr) (name : Fs.Name) (argv : List Arg) : Prog Addr := do
  let (_, stack, aux) ← exec.load fuel locals kernel_top name
  let stacktop := P2V (stack + BitVec.ofNat 64 STACKSIZE)
  let stack ← exec.putargs (stack + BitVec.ofNat 64 STACKSIZE) argv aux
  modify fun s => { s with regs := { s.regs with rsp := s.regs.rsp - (stacktop - stack) } }
  let _ ← kalloc exec.sizeofTss fuel
  let page ← palloc 1
  modify fun s => { s with rsp0 := P2V (page + pgsize) }
  pure stack

end Exec
end Franklin
