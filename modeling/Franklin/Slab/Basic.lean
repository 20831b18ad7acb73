import Franklin.Lib.SList
import Franklin.Vmm.Basic
import Mathlib.Logic.Function.Basic

/-!
This module contains the kernel heap of `kernel/slab.c`. The memory is a map from the (virtual)
address of an aligned word to the word, every member of `struct slab` and of `struct block` is
one of them.
-/

namespace Franklin
namespace Slab

def V2P (v : Nat) : Nat :=
  (2 ^ 64 - Vmm.HHDM_OFFSET.toNat + v) % 2 ^ 64

def P2V (p : Nat) : Nat :=
  (Vmm.HHDM_OFFSET.toNat + p) % 2 ^ 64

def DIV_ROUNDUP (n d : Nat) : Nat :=
  (n + d - 1) % 2 ^ 64 / d

/--
`slabs` is `slabber.slabs.first` and `id` the counter in `newslab`. `inUse` are the pages that
`palloc` must not hand out, by their number.
-/
structure Slabber where
  mem : Nat → Nat
  slabs : Nat
  id : Nat
  inUse : Nat → Bool

def sizeofSlab : Nat := 40

-- The members of `struct slab`, `slabs.next` is its first word.
def Slabber.size (st : Slabber) (slab : Nat) : Nat := st.mem (slab + 8)
def Slabber.refcount (st : Slabber) (slab : Nat) : Nat := st.mem (slab + 16)
def Slabber.freelist (st : Slabber) (slab : Nat) : Nat := st.mem (slab + 32)

def Slabber.store (st : Slabber) (addr val : Nat) : Slabber :=
  { st with mem := Function.update st.mem addr val }

/--
The address that a call of `palloc` returns, and what the pages hold at that time.
-/
structure Pages where
  paddr : Nat
  contents : Nat → Nat

def palloc (st : Slabber) (pages : Nat) (pg : Pages) : Slabber :=
  { st with
    mem := fun a =>
      if P2V pg.paddr ≤ a ∧ a < P2V pg.paddr + pages * PGSIZE then pg.contents a else st.mem a
    inUse := fun page =>
      decide (pg.paddr / PGSIZE ≤ page ∧ page < pg.paddr / PGSIZE + pages) || st.inUse page }

def freepg (st : Slabber) (addr length : Nat) : Slabber :=
  { st with
    inUse := fun page =>
      st.inUse page && !decide (addr / PGSIZE ≤ page ∧ page < addr / PGSIZE + length % 2 ^ 32) }

def roundup (n : BitVec 32) : BitVec 32 :=
  let n := n - 1#32
  let n := n ||| (n >>> 1)
  let n := n ||| (n >>> 2)
  let n := n ||| (n >>> 4)
  let n := n ||| (n >>> 8)
  let n := n ||| (n >>> 16)
  n + 1#32

/--
The loop that chains the blocks up to `limit`. Every round moves `block` by `size` bytes, so `PGSIZE`
rounds are enough for the sizes that `kalloc` asks for.
-/
def newslab.linkBlocks (size limit : Nat) : Nat → (Nat → Nat) → Nat → Nat → (Nat → Nat)
  | 0, mem, _, _ => mem
  | fuel + 1, mem, block, start =>
    if block + size < limit then
      linkBlocks size limit fuel (Function.update mem block start) start (start + size)
    else
      mem

def newslab (st : Slabber) (size : Nat) (pg : Pages) : Nat × Slabber :=
  let st := palloc st 1 pg
  let slab := P2V pg.paddr
  let block := slab + sizeofSlab
  let st := st.store (slab + 8) size
  let st := st.store (slab + 16) 0
  -- `id` is an int, the other half of its word is padding.
  let st := st.store (slab + 24) (st.mem (slab + 24) / 2 ^ 32 * 2 ^ 32 + st.id)
  let st := { st with id := (st.id + 1) % 2 ^ 32 }
  let st := st.store (slab + 32) block
  let st :=
    { st with
      mem := newslab.linkBlocks size (slab + PGSIZE) PGSIZE st.mem block (block + size) }
  let st := st.store slab st.slabs
  (slab, { st with slabs := slab })

def allocblock (st : Slabber) (slab : Nat) : Nat × Slabber :=
  let st := st.store (slab + 16) ((st.refcount slab + 1) % 2 ^ 64)
  let block := st.freelist slab
  (block, st.store (slab + 32) (st.mem block))

def kalloclarge (st : Slabber) (size : Nat) (pg : Pages) : Nat × Slabber :=
  let pagecount := DIV_ROUNDUP size PGSIZE
  let st := palloc st ((pagecount + 1) % 2 ^ 64) pg
  if pg.paddr = 0 then
    (0, st)
  else
    let metadata := P2V pg.paddr
    ((metadata + PGSIZE) % 2 ^ 64, st.store metadata pagecount)

def kalloc.blockSize (size : Nat) : Nat :=
  let size := if size < 8 then 8 else size
  (roundup (BitVec.ofNat 32 size)).toNat

def kalloc.findSlab (st : Slabber) (size fuel : Nat) : Option (Option Nat) :=
  SList.find st.mem (fun slab => st.size slab = size ∧ st.freelist slab ≠ 0) fuel st.slabs

/--
`pg` is what `palloc` returns if it is called. There is no result if the loop over the slabs has not
ended after `fuel` rounds.
-/
def kalloc (st : Slabber) (size : Nat) (pg : Pages) (fuel : Nat) : Option (Nat × Slabber) :=
  if PGSIZE < size then
    some (kalloclarge st size pg)
  else
    let size := kalloc.blockSize size
    match kalloc.findSlab st size fuel with
    | none => none
    | some (some slab) => some (allocblock st slab)
    | some none =>
      let (slab, st) := newslab st size pg
      some (allocblock st slab)

def kalloc.pages (st : Slabber) (size fuel : Nat) : Nat :=
  if PGSIZE < size then
    (DIV_ROUNDUP size PGSIZE + 1) % 2 ^ 64
  else
    match kalloc.findSlab st (kalloc.blockSize size) fuel with
    | some none => 1
    | _ => 0

def kfreelarge (st : Slabber) (ptr : Nat) : Slabber :=
  let metadata := ptr - PGSIZE
  freepg st (V2P metadata) (st.mem metadata)

def freeslab (st : Slabber) (slab fuel : Nat) : Option Slabber :=
  if slab = st.slabs then
    some (freepg { st with slabs := st.mem st.slabs } (V2P slab) 1)
  else
    match SList.findPrev st.mem slab fuel st.slabs with
    | none => none
    | some current =>
      some (freepg (st.store current (st.mem (st.mem current))) (V2P slab) 1)

namespace kfree

inductive Outcome where
  | ret (st : Slabber)
  | panic (msg : String)
  | hang

/--
The test of `kfree` for the slab that `ptr` belongs to.
-/
def matches? (ptr slab : Nat) : Bool :=
  let startaddr := (2 ^ 64 - (PGSIZE - sizeofSlab) + slab) % 2 ^ 64
  !(ptr < startaddr || slab ≤ ptr)

end kfree

open kfree in
def kfree (st : Slabber) (ptr fuel : Nat) : Outcome :=
  if ptr = 0 then
    .ret st
  else if ptr % PGSIZE = 0 then
    .ret (kfreelarge st ptr)
  else
    match SList.find st.mem (matches? ptr) fuel st.slabs with
    | none => .hang
    | some none => .ret st
    | some (some slab) =>
      if st.refcount slab = 0 then
        .panic "kfree, double free"
      else
        let st := st.store (slab + 16) (st.refcount slab - 1)
        if st.refcount slab = 0 then
          match freeslab st slab fuel with
          | none => .hang
          | some st => .ret st
        else
          -- SLIST_INSERT_HEAD(block, &slab->freelist, blocks)
          let st := st.store ptr (st.freelist slab)
          .ret (st.store (slab + 32) ptr)

/-!
The heap together with the callers of `kalloc` and `kfree`.
-/

structure Alloc where
  ptr : Nat
  size : Nat
  deriving DecidableEq

structure Sys where
  st : Slabber
  live : List Alloc

inductive Call where
  | kalloc (size : Nat) (pg : Pages)
  | kfree (ptr : Nat)
  | write (addr val : Nat)

/--
The pages lie in the direct map and are not in use.
-/
structure Pages.Fresh (pg : Pages) (st : Slabber) (pages : Nat) : Prop where
  aligned : pg.paddr % PGSIZE = 0
  bound : pg.paddr + pages * PGSIZE < 2 ^ 47
  unused : ∀ page, pg.paddr / PGSIZE ≤ page → page < pg.paddr / PGSIZE + pages → st.inUse page = false

inductive Step : Sys → Call → Sys → Prop where
  | kalloc {st st' : Slabber} {live : List Alloc} {size ptr fuel : Nat} {pg : Pages}
      (hsize : size < 2 ^ 64) (hpg : pg.Fresh st (kalloc.pages st size fuel))
      (h : kalloc st size pg fuel = some (ptr, st'))
      : Step ⟨st, live⟩ (.kalloc size pg) ⟨st', if ptr = 0 then live else ⟨ptr, size⟩ :: live⟩
  | kfree {st st' : Slabber} {live : List Alloc} {a : Alloc} {fuel : Nat}
      (ha : a ∈ live) (h : kfree st a.ptr fuel = .ret st')
      : Step ⟨st, live⟩ (.kfree a.ptr) ⟨st', live.erase a⟩
  -- The owner of an allocation writes to it.
  | write {st : Slabber} {live : List Alloc} {a : Alloc} {addr val : Nat}
      (ha : a ∈ live) (halign : addr % 8 = 0) (haddr : a.ptr ≤ addr ∧ addr < a.ptr + a.size)
      : Step ⟨st, live⟩ (.write addr val) ⟨st.store addr val, live⟩

def Sys.boot (mem : Nat → Nat) (inUse : Nat → Bool) : Sys :=
  { st := { mem, slabs := 0, id := 0, inUse }, live := [] }

/--
The states that are reached with calls that satisfy `ok` in the state they are made in.
-/
inductive Run (ok : Sys → Call → Prop) : Sys → Prop where
  | boot (mem : Nat → Nat) (inUse : Nat → Bool) : Run ok (Sys.boot mem inUse)
  | step {sys sys' : Sys} {call : Call} (hrun : Run ok sys) (hok : ok sys call)
      (hstep : Step sys call sys') : Run ok sys'

end Slab
end Franklin
