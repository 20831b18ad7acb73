import Franklin.Slab.Basic

/-!
This module contains the kernel heap on top of the page allocator of `kernel/pmm.c`: the pages that `palloc` returns
are no longer given, and the page bitmap is part of the state.
-/

namespace Franklin
namespace Slab

structure Heap where
  mem : Nat → Nat
  slabs : Nat
  id : Nat
  bm : Pmm.Bitmap

namespace Heap

def slabber (heap : Heap) : Slabber :=
  { mem := heap.mem, slabs := heap.slabs, id := heap.id, inUse := Pmm.bitmap_test heap.bm }

def update (st : Slabber) (bm : Pmm.Bitmap) : Heap :=
  { mem := st.mem, slabs := st.slabs, id := st.id, bm }

/--
`kalloc` calls `palloc` at most once. The pages hold what they held before.
-/
def kalloc (heap : Heap) (size fuel : Nat) : Option (Nat × Heap) :=
  match kalloc.pages heap.slabber size fuel with
  | 0 => (Slab.kalloc heap.slabber size ⟨0, heap.mem⟩ fuel).map fun res => (res.1, update res.2 heap.bm)
  | pages + 1 =>
    match Pmm.palloc heap.bm (pages + 1) with
    | none => none
    | some (paddr, bm) =>
      (Slab.kalloc heap.slabber size ⟨paddr, heap.mem⟩ fuel).map fun res => (res.1, update res.2 bm)

/--
The arguments of the call of `freepg` that `kfree` makes, if it makes one.
-/
def kfree.freed (st : Slabber) (ptr fuel : Nat) : Option (Nat × Nat) :=
  if ptr = 0 then
    none
  else if ptr % PGSIZE = 0 then
    -- kfreelarge
    let metadata := ptr - PGSIZE
    some (V2P metadata, st.mem metadata)
  else
    match SList.find st.mem (Slab.kfree.matches? ptr) fuel st.slabs with
    | some (some slab) =>
      -- freeslab
      if st.refcount slab = 1 then
        some (V2P slab, 1)
      else
        none
    | _ => none

def kfree (heap : Heap) (ptr fuel : Nat) : Option Heap :=
  match Slab.kfree heap.slabber ptr fuel with
  | .ret st =>
    match kfree.freed heap.slabber ptr fuel with
    | none => some (update st heap.bm)
    | some (addr, length) => some (update st (Pmm.freepg heap.bm addr length))
  -- It panics or does not return.
  | _ => none

end Heap
end Slab
end Franklin
