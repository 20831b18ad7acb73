import Franklin.Slab.Lemmas.Roundup
import Mathlib.Tactic.Ring

/-!
This module contains what `newslab` and `allocblock` do to the memory.
-/

namespace Franklin
namespace Slab

def pageAddr (page : Nat) : Nat :=
  Vmm.HHDM_OFFSET.toNat + page * PGSIZE

theorem pageAddr_eq (page : Nat) : pageAddr page = 18446603336221196288 + page * 4096 := by
  rfl

theorem P2V_eq_pageAddr {p : Nat} (halign : p % PGSIZE = 0) (hbound : p < 2 ^ 47)
    : P2V p = pageAddr (p / PGSIZE) := by
  have hoff : Vmm.HHDM_OFFSET.toNat = 18446603336221196288 := rfl
  rw [pageAddr_eq]
  unfold P2V
  rw [hoff]
  unfold PGSIZE at *
  omega

theorem V2P_pageAddr {page : Nat} (hbound : page * PGSIZE < 2 ^ 47)
    : V2P (pageAddr page) = page * PGSIZE := by
  have hoff : Vmm.HHDM_OFFSET.toNat = 18446603336221196288 := rfl
  rw [pageAddr_eq]
  unfold V2P
  rw [hoff]
  unfold PGSIZE at *
  omega

theorem mem_run_of_mem_page {f n page a : Nat} (h1 : pageAddr f ≤ a) (h2 : a < pageAddr f + n * PGSIZE)
    (h1' : pageAddr page ≤ a) (h2' : a < pageAddr page + PGSIZE) : f ≤ page ∧ page < f + n := by
  unfold pageAddr PGSIZE at *
  generalize Vmm.HHDM_OFFSET.toNat = off at *
  omega

theorem eq_of_mem_page {page page' a : Nat} (h1 : pageAddr page ≤ a) (h2 : a < pageAddr page + PGSIZE)
    (h1' : pageAddr page' ≤ a) (h2' : a < pageAddr page' + PGSIZE) : page = page' := by
  have := mem_run_of_mem_page h1 (show a < pageAddr page + 1 * PGSIZE by omega) h1' h2'
  omega

theorem palloc_slabs (st : Slabber) (n : Nat) (pg : Pages) : (palloc st n pg).slabs = st.slabs := by
  unfold palloc
  dsimp only

theorem palloc_mem {st : Slabber} {n a : Nat} {pg : Pages}
    (h : ¬(P2V pg.paddr ≤ a ∧ a < P2V pg.paddr + n * PGSIZE)) : (palloc st n pg).mem a = st.mem a := by
  unfold palloc
  dsimp only
  rw [if_neg h]

theorem palloc_inUse {st : Slabber} {n page : Nat} {pg : Pages}
    : (palloc st n pg).inUse page = true ↔
        (pg.paddr / PGSIZE ≤ page ∧ page < pg.paddr / PGSIZE + n) ∨ st.inUse page = true := by
  unfold palloc
  dsimp only
  rw [Bool.or_eq_true, decide_eq_true_iff]

theorem DIV_ROUNDUP_spec {n : Nat} (h : n ≤ 2 ^ 64 - PGSIZE)
    : n ≤ DIV_ROUNDUP n PGSIZE * PGSIZE ∧ DIV_ROUNDUP n PGSIZE + 1 < 2 ^ 64 := by
  unfold DIV_ROUNDUP PGSIZE at *
  omega

namespace newslab

variable {size limit : Nat}

theorem linkBlocks_frame {fuel : Nat} {mem : Nat → Nat} {block a : Nat} (hsize : 0 < size)
    (ha : a < block ∨ limit ≤ a + size)
    : linkBlocks size limit fuel mem block (block + size) a = mem a := by
  induction fuel generalizing mem block with
  | zero => simp [linkBlocks]
  | succ fuel ih =>
    unfold linkBlocks
    split
    . rw [ih (by omega)]
      apply Function.update_of_ne
      omega
    . rfl

theorem linkBlocks_link {fuel : Nat} {mem : Nat → Nat} {block : Nat} (hsize : 0 < size)
    (hfuel : limit ≤ block + fuel) (j : Nat) (hj : block + j * size + size < limit)
    : linkBlocks size limit fuel mem block (block + size) (block + j * size)
        = block + j * size + size := by
  induction fuel generalizing mem block j with
  | zero => omega
  | succ fuel ih =>
    unfold linkBlocks
    rw [if_pos (by omega)]
    cases j with
    | zero =>
      rw [Nat.zero_mul, Nat.add_zero]
      rw [linkBlocks_frame hsize (by omega)]
      apply Function.update_self
    | succ j =>
      have hmul : block + (j + 1) * size = block + size + j * size := by ring
      rw [hmul] at hj ⊢
      apply ih <;> omega

end newslab

structure newslab.Spec (st : Slabber) (blksize slab : Nat) (contents : Nat → Nat) (st' : Slabber)
    : Prop where
  slabs : st'.slabs = slab
  next : st'.mem slab = st.slabs
  size : st'.size slab = blksize
  refcount : st'.refcount slab = 0
  freelist : st'.freelist slab = slab + sizeofSlab
  link : ∀ j, sizeofSlab + j * blksize + blksize < PGSIZE →
    st'.mem (slab + sizeofSlab + j * blksize) = slab + sizeofSlab + j * blksize + blksize
  last : ∀ a, slab + sizeofSlab ≤ a → a < slab + PGSIZE → slab + PGSIZE ≤ a + blksize →
    st'.mem a = contents a
  frame : ∀ a, a < slab ∨ slab + PGSIZE ≤ a → st'.mem a = st.mem a

theorem newslab_fst (st : Slabber) (size : Nat) (pg : Pages)
    : (newslab st size pg).1 = P2V pg.paddr := by
  rfl

theorem newslab_inUse (st : Slabber) (size : Nat) (pg : Pages)
    : (newslab st size pg).2.inUse = (palloc st 1 pg).inUse := by
  rfl

theorem newslab_spec {st : Slabber} {size : Nat} {pg : Pages} (hsize : 0 < size)
    : newslab.Spec st size (P2V pg.paddr) pg.contents (newslab st size pg).2 := by
  generalize hslab : P2V pg.paddr = slab
  constructor
  case slabs =>
    rw [← hslab]
    rfl
  case link =>
    intro j hj
    have hne : slab + sizeofSlab + j * size ≠ slab := by
      unfold sizeofSlab
      omega
    simp only [newslab, Slabber.store, hslab]
    rw [Function.update_of_ne hne]
    apply newslab.linkBlocks_link hsize
    . omega
    . omega
  all_goals
    simp only [Slabber.size, Slabber.refcount, Slabber.freelist, newslab, Slabber.store, hslab]
  case next =>
    rw [Function.update_self]
    simp only [palloc]
  case size =>
    rw [Function.update_of_ne (by omega)]
    rw [newslab.linkBlocks_frame hsize (by unfold sizeofSlab; omega)]
    rw [Function.update_of_ne (by omega), Function.update_of_ne (by omega),
      Function.update_of_ne (by omega), Function.update_self]
  case refcount =>
    rw [Function.update_of_ne (by omega)]
    rw [newslab.linkBlocks_frame hsize (by unfold sizeofSlab; omega)]
    rw [Function.update_of_ne (by omega), Function.update_of_ne (by omega), Function.update_self]
  case freelist =>
    rw [Function.update_of_ne (by omega)]
    rw [newslab.linkBlocks_frame hsize (by unfold sizeofSlab; omega)]
    rw [Function.update_self]
  case last =>
    intro a ha1 ha2 ha3
    unfold sizeofSlab at ha1
    rw [Function.update_of_ne (by omega)]
    rw [newslab.linkBlocks_frame hsize (by omega)]
    rw [Function.update_of_ne (by omega), Function.update_of_ne (by omega),
      Function.update_of_ne (by omega), Function.update_of_ne (by omega)]
    simp only [palloc, hslab]
    rw [if_pos (by omega)]
  case frame =>
    intro a ha
    unfold PGSIZE at *
    rw [Function.update_of_ne (by omega)]
    rw [newslab.linkBlocks_frame hsize (by unfold sizeofSlab; omega)]
    rw [Function.update_of_ne (by omega), Function.update_of_ne (by omega),
      Function.update_of_ne (by omega), Function.update_of_ne (by omega)]
    simp only [palloc, hslab]
    rw [if_neg (by unfold PGSIZE; omega)]

theorem allocblock_fst (st : Slabber) (slab : Nat) : (allocblock st slab).1 = st.freelist slab := by
  simp [allocblock, Slabber.store, Slabber.freelist]

theorem allocblock_mem {st : Slabber} {slab : Nat} (hfree : st.freelist slab ≠ slab + 16)
    : (allocblock st slab).2.mem =
        Function.update (Function.update st.mem (slab + 16) ((st.refcount slab + 1) % 2 ^ 64))
          (slab + 32) (st.mem (st.freelist slab)) := by
  simp [allocblock, Slabber.store, Slabber.freelist] at *
  rw [Function.update_of_ne hfree]

end Slab
end Franklin
