import Franklin.Lib.Radix
import Franklin.Pmm.Basic

/-!
This module contains the page tables of `kernel/vmm.c`.

The memory is a map from the (virtual) address of a page and an index of type `BitVec 9` to the word
`page[index]`, as every access of `vmm.c` goes through a `uint64_t*` to the start of a page. A
`struct vm_map` is represented by its `top_level`.
-/

namespace Franklin
namespace Vmm

abbrev Addr := BitVec 64

abbrev Mem := Addr → BitVec 9 → BitVec 64

def EINVAL : Int := 22

def HHDM_OFFSET : Addr := 0xffff800000000000#64

def PTE_PRESENT : BitVec 64 := 1#64 <<< 0
def PTE_RW : BitVec 64 := 1#64 <<< 1
def PTE_USER : BitVec 64 := 1#64 <<< 2
def PTE_NX : BitVec 64 := 1#64 <<< 63

def PTE_ADDR_MASK : BitVec 64 := 0x000ffffffffff000#64

def PTE_GET_ADDR (value : BitVec 64) : BitVec 64 :=
  value &&& PTE_ADDR_MASK

def V2P (v : Addr) : Addr :=
  v - HHDM_OFFSET

def P2V (p : Addr) : Addr :=
  p + HHDM_OFFSET

/--
`supply` are the pages that the calls of `palloc(1)` return, in this order.
-/
structure Vm where
  mem : Mem
  supply : List Addr

def palloc (vm : Vm) : Option (Addr × Vm) :=
  match vm.supply with
  | [] => none
  | page :: supply => some (page, { vm with supply })

/--
The outer `Option` is `none` if `palloc` has no page, the inner one is the pointer that is returned.
-/
def get_next_level (vm : Vm) (top_level : Addr) (idx : BitVec 9) (alloc : Bool)
    : Option (Option Addr × Vm) :=
  if vm.mem top_level idx &&& PTE_PRESENT ≠ 0#64 then
    some (some (P2V (PTE_GET_ADDR (vm.mem top_level idx))), vm)
  else if !alloc then
    some (none, vm)
  else
    match palloc vm with
    | none => none
    | some (entry, vm) =>
      -- memset(P2V(entry), 0, PGSIZE)
      let mem := Radix.fill vm.mem (P2V entry) 0#64
      let mem := Radix.store mem top_level idx (entry ||| PTE_PRESENT ||| PTE_RW ||| PTE_USER)
      some (some (P2V entry), { vm with mem })

def index (vaddr : BitVec 64) (shift : Nat) : BitVec 9 :=
  (vaddr >>> shift).setWidth 9

/--
The entry `&pml1[idx]` as a table and an index. There is no result if a level is missing: without
`alloc` the next level is then looked up through a NULL pointer.
-/
def va2pte (vm : Vm) (top_level : Addr) (vaddr : BitVec 64) (alloc : Bool)
    : Option ((Addr × BitVec 9) × Vm) :=
  let pml4 := top_level
  match get_next_level vm pml4 (index vaddr 39) alloc with
  | some (some pml3, vm) =>
    match get_next_level vm pml3 (index vaddr 30) alloc with
    | some (some pml2, vm) =>
      match get_next_level vm pml2 (index vaddr 21) alloc with
      | some (some pml1, vm) => some ((pml1, index vaddr 12), vm)
      | _ => none
    | _ => none
  | _ => none

def mappage2 (vm : Vm) (top_level : Addr) (vaddr paddr flags : BitVec 64) : Option (Int × Vm) :=
  match va2pte vm top_level vaddr true with
  | none => none
  | some ((pml1, idx), vm) =>
    -- If page is already mapped
    if vm.mem pml1 idx &&& PTE_PRESENT ≠ 0#64 then
      some (-EINVAL, vm)
    else
      some (0, { vm with mem := Radix.store vm.mem pml1 idx (paddr ||| flags) })

/--
`n` rounds of the loop of `mappages`, the first one with `i`.
-/
def mappages.go (vm : Vm) (top_level : Addr) (vaddr paddr flags i : BitVec 64) : Nat → Option Vm
  | 0 => some vm
  | n + 1 =>
    let offset := i * BitVec.ofNat 64 PGSIZE
    match mappage2 vm top_level (vaddr + offset) (paddr + offset) flags with
    | none => none
    -- The result of `mappage2` is not looked at.
    | some (_, vm) => mappages.go vm top_level vaddr paddr flags (i + 1#64) n

def mappages (vm : Vm) (top_level : Addr) (vaddr paddr size flags : BitVec 64) : Option (Int × Vm) :=
  let pagecount := size.toNat / PGSIZE
  match mappages.go vm top_level vaddr paddr flags 0#64 pagecount with
  | none => none
  | some vm => some (0, vm)

/--
`level` counts down to the mapped pages. No table is written, so only the page bitmap is returned.
-/
def destroy_level (vm : Vm) (bm : Pmm.Bitmap) (pml : Addr) (start stop : Nat) : Nat → Pmm.Bitmap
  | 0 => Pmm.freepg bm (V2P pml).toNat 1
  | level + 1 =>
    let bm := (List.range' start (stop - start)).foldl
      (fun bm i =>
        match get_next_level vm pml (BitVec.ofNat 9 i) false with
        | some (some nextlevel, _) =>
          -- `nextlevel == NULL`
          if nextlevel = 0#64 then
            bm
          else
            destroy_level vm bm nextlevel 0 512 level
        | _ => bm)
      bm
    Pmm.freepg bm (V2P pml).toNat 1

def destroyvm (vm : Vm) (bm : Pmm.Bitmap) (top_level : Addr) : Pmm.Bitmap :=
  -- end at 256 to not destroy kernel mappings
  destroy_level vm bm top_level 0 256 4

/--
`kernel_top` is the top level of `kernel_vm_map`. The lower half of the new top level is left as it
was.
-/
def newvm_map (vm : Vm) (kernel_top : Addr) : Option (Addr × Vm) :=
  match palloc vm with
  | none => none
  | some (page, vm) =>
    let top_level := P2V page
    some (top_level, { vm with mem := copyKernel vm.mem top_level kernel_top })
where
  -- copy kernel mappings
  copyKernel (mem : Mem) (top_level kernel_top : Addr) : Mem :=
    Function.update mem top_level fun i =>
      if 256 ≤ i.toNat then mem kernel_top i else mem top_level i

/--
What `init_vm` learns from the linker script and from the bootloader.
-/
structure KernelImage where
  text_start_addr : BitVec 64
  text_end_addr : BitVec 64
  rodata_start_addr : BitVec 64
  rodata_end_addr : BitVec 64
  data_start_addr : BitVec 64
  data_end_addr : BitVec 64
  virtual_base : BitVec 64
  physical_base : BitVec 64

def ALIGN_UP (n d : BitVec 64) : BitVec 64 :=
  (n + d - 1) / d * d

def ALIGN_DOWN (n d : BitVec 64) : BitVec 64 :=
  n / d * d

namespace init_vm

def pgsize : BitVec 64 :=
  BitVec.ofNat 64 PGSIZE

/--
`for (i = start; i < start + n; ++i) get_next_level(top_level, i, true)`.
-/
def mapHigherHalf (vm : Vm) (top_level : Addr) (i : BitVec 9) : Nat → Option Vm
  | 0 => some vm
  | n + 1 =>
    match get_next_level vm top_level i true with
    | none => none
    | some (_, vm) => mapHigherHalf vm top_level (i + 1#9) n

/--
`n` rounds of the loop that maps a segment of the kernel.
-/
def mapSegment (vm : Vm) (top_level : Addr) (image : KernelImage) (flags vaddr : BitVec 64)
    : Nat → Option Vm
  | 0 => some vm
  | n + 1 =>
    let paddr := vaddr - image.virtual_base + image.physical_base
    match mappage2 vm top_level vaddr paddr flags with
    | none => none
    | some (_, vm) => mapSegment vm top_level image flags (vaddr + pgsize) n

/--
The rounds of `for (vaddr = start; vaddr < stop; vaddr += PGSIZE)` once `start` and `stop` are
aligned.
-/
def segmentPages (start stop : BitVec 64) : Nat :=
  ((ALIGN_UP stop pgsize).toNat - (ALIGN_DOWN start pgsize).toNat) / PGSIZE

def mapSegments (vm : Vm) (top_level : Addr) (image : KernelImage) (flags start stop : BitVec 64)
    : Option Vm :=
  mapSegment vm top_level image flags (ALIGN_DOWN start pgsize) (segmentPages start stop)

/--
The rounds of `for (vaddr = 0x1000; vaddr < 0x100000000 / 2; vaddr += PGSIZE)`.
-/
def lowerPages : Nat :=
  (0x100000000 / 2 - 0x1000) / PGSIZE

def mapLowerHalf (vm : Vm) (top_level : Addr) (vaddr : BitVec 64) : Nat → Option Vm
  | 0 => some vm
  | n + 1 =>
    match mappage2 vm top_level vaddr vaddr (PTE_PRESENT ||| PTE_RW ||| PTE_USER) with
    | none => none
    | some (_, vm) =>
      match mappage2 vm top_level (vaddr + HHDM_OFFSET) vaddr
          (PTE_PRESENT ||| PTE_NX ||| PTE_RW ||| PTE_USER) with
      | none => none
      | some (_, vm) => mapLowerHalf vm top_level (vaddr + pgsize) n

end init_vm

def init_vm (vm : Vm) (image : KernelImage) : Option (Addr × Vm) := do
  let (page, vm) ← palloc vm
  let top_level := P2V page
  -- memset(top_level, 0, PGSIZE)
  let vm := { vm with mem := Radix.fill vm.mem top_level 0#64 }
  /- map higher half -/
  let vm ← init_vm.mapHigherHalf vm top_level 256#9 256
  /- map the text segment of the kernel -/
  let vm ← init_vm.mapSegments vm top_level image (PTE_PRESENT ||| PTE_USER)
    image.text_start_addr image.text_end_addr
  /- map the rodata segment of the kernel -/
  let vm ← init_vm.mapSegments vm top_level image (PTE_PRESENT ||| PTE_NX ||| PTE_USER)
    image.rodata_start_addr image.rodata_end_addr
  /- map the data segment of the kernel -/
  let vm ← init_vm.mapSegments vm top_level image (PTE_PRESENT ||| PTE_NX ||| PTE_RW ||| PTE_USER)
    image.data_start_addr image.data_end_addr
  /- map lower half -/
  let vm ← init_vm.mapLowerHalf vm top_level 0x1000#64 init_vm.lowerPages
  return (top_level, vm)

end Vmm
end Franklin
