import Franklin.Slab.Lemmas.Large

/-!
This module contains the allocations of at most a page: which block `kalloc` hands out, and when the
invariant survives it.
-/

namespace Franklin
namespace Slab

namespace kalloc

/--
The block that `kalloc` is about to hand out, with the link that is stored in it. The first block of
a new slab still has the link that its page was returned with.
-/
def block (st : Slabber) (size : Nat) (pg : Pages) (fuel : Nat) : Option (Nat × Nat) :=
  match findSlab st size fuel with
  | none => none
  | some (some slab) => some (st.freelist slab, st.mem (st.freelist slab))
  | some none => some (P2V pg.paddr + sizeofSlab, pg.contents (P2V pg.paddr + sizeofSlab))

/--
The block of `kalloc` is not the last one of its page, or its link is NULL. `newslab` never sets the
link of the last block.
-/
def LinkOk (st : Slabber) (size : Nat) (pg : Pages) : Prop :=
  ∀ fuel b link, block st (blockSize size) pg fuel = some (b, link) →
    b % PGSIZE + blockSize size < PGSIZE ∨ link = 0

def InPage (st : Slabber) (size : Nat) (pg : Pages) : Prop :=
  ∀ fuel b link, block st (blockSize size) pg fuel = some (b, link) → b % PGSIZE + size ≤ PGSIZE

end kalloc

variable {st st' : Slabber} {own : Nat → Owner} {slabs : List Nat}

theorem Inv.findSlab_eq_some {size slab fuel : Nat} (h : Inv st own slabs)
    (hfind : kalloc.findSlab st size fuel = some (some slab))
    : ∃ page k, slab = pageAddr page ∧ own page = .slab size k ∧ st.freelist slab ≠ 0 := by
  have hfound := h.chain.eq_find?_of_find_eq hfind
  have hpred := List.find?_some hfound
  rcases List.mem_map.mp (List.mem_of_find?_eq_some hfound) with ⟨page, hpage, heq⟩
  rcases (h.mem_slabs page).mp hpage with ⟨s, k, hown⟩
  simp only [ne_eq, decide_eq_true_eq] at hpred
  refine ⟨page, k, heq.symm, ?_, hpred.2⟩
  rw [hown, ← hpred.1, ← heq, (h.slab page s k hown).size_eq]

theorem pageAddr_add_mod (page : Nat) {d : Nat} (hd : d < PGSIZE)
    : (pageAddr page + d) % PGSIZE = d := by
  have haligned : Vmm.HHDM_OFFSET.toNat % PGSIZE = 0 := rfl
  unfold pageAddr
  generalize Vmm.HHDM_OFFSET.toNat = off at *
  unfold PGSIZE at *
  omega

structure Grows (own own' : Nat → Owner) (page s k ptr : Nat) : Prop where
  own_eq : own' = Function.update own page (.slab s (k + 1))
  before : own page = .slab s k ∨ own page = .none ∧ k = 0
  ptr_eq : ptr = pageAddr page + sizeofSlab + k * s
  in_page : sizeofSlab + k * s < PGSIZE

theorem Inv.kalloc_slab {size slab fuel : Nat} {pg : Pages} (h : Inv st own slabs)
    (hfind : kalloc.findSlab st (kalloc.blockSize size) fuel = some (some slab))
    (hlink : kalloc.LinkOk st size pg)
    : ∃ own' slabs' page k, Inv (allocblock st slab).2 own' slabs' ∧
        Grows own own' page (kalloc.blockSize size) k (allocblock st slab).1 := by
  rcases h.findSlab_eq_some hfind with ⟨page, k, rfl, hown, hfree⟩
  rcases h.freelist_eq hown hfree with ⟨hfirst, hlt⟩
  have hblock : kalloc.block st (kalloc.blockSize size) pg fuel
      = some (st.freelist (pageAddr page), st.mem (st.freelist (pageAddr page))) := by
    simp [kalloc.block, hfind]
  have hmod : st.freelist (pageAddr page) % PGSIZE = sizeofSlab + k * kalloc.blockSize size := by
    rw [hfirst, Nat.add_assoc, pageAddr_add_mod page hlt]
  have hlast := hlink fuel _ _ hblock
  rw [hmod] at hlast
  refine ⟨_, slabs, page, k, h.after_allocblock hown hfree hlast, rfl, Or.inl hown, ?_, hlt⟩
  rw [allocblock_fst, hfirst]

theorem Inv.kalloc_newslab {size fuel : Nat} {pg : Pages} (h : Inv st own slabs)
    (hsize : 8 ≤ kalloc.blockSize size) (hpg : pg.Fresh st 1)
    (hfind : kalloc.findSlab st (kalloc.blockSize size) fuel = some none)
    (hlink : kalloc.LinkOk st size pg)
    : ∃ own' slabs' page k,
        Inv (allocblock (newslab st (kalloc.blockSize size) pg).2 (P2V pg.paddr)).2 own' slabs' ∧
        Grows own own' page (kalloc.blockSize size) k
          (allocblock (newslab st (kalloc.blockSize size) pg).2 (P2V pg.paddr)).1 := by
  have hinv := h.after_newslab hpg hsize
  have hspec : newslab.Spec st (kalloc.blockSize size) (P2V pg.paddr) pg.contents _ :=
    newslab_spec (show 0 < kalloc.blockSize size by omega)
  have hblock : kalloc.block st (kalloc.blockSize size) pg fuel
      = some (P2V pg.paddr + sizeofSlab, pg.contents (P2V pg.paddr + sizeofSlab)) := by
    simp [kalloc.block, hfind]
  have hlast := hlink fuel _ _ hblock
  have hfresh : own (pg.paddr / PGSIZE) = .none := h.own_eq_none hpg (Nat.le_refl _) (by omega)
  rw [hpg.P2V_eq] at *
  generalize pg.paddr / PGSIZE = page at *
  generalize (newslab st (kalloc.blockSize size) pg).2 = st1 at *
  generalize kalloc.blockSize size = s at *
  have hlt : sizeofSlab < PGSIZE := by decide
  rw [pageAddr_add_mod page hlt] at hlast
  have hfree : st1.freelist (pageAddr page) ≠ 0 := by
    rw [hspec.freelist]
    unfold sizeofSlab
    omega
  have hlast' : sizeofSlab + 0 * s + s < PGSIZE ∨ st1.mem (st1.freelist (pageAddr page)) = 0 := by
    rw [hspec.freelist]
    by_cases hin : sizeofSlab + s < PGSIZE
    . apply Or.inl
      omega
    . rw [hspec.last]
      . apply Or.inr
        cases hlast with
        | inl hlt => contradiction
        | inr hnull => apply hnull
      . omega
      . omega
      . omega
  refine ⟨_, _, page, 0, hinv.after_allocblock (Function.update_self _ _ _) hfree hlast', ?_, ?_, ?_, ?_⟩
  . rw [Function.update_idem]
  . exact Or.inr ⟨hfresh, rfl⟩
  . rw [allocblock_fst, hspec.freelist]
    omega
  . omega

theorem kalloc_eq_some {size ptr fuel : Nat} {pg : Pages} (hsize : size ≤ PGSIZE)
    (hk : kalloc st size pg fuel = some (ptr, st'))
    : (∃ slab, kalloc.findSlab st (kalloc.blockSize size) fuel = some (some slab) ∧
        kalloc.pages st size fuel = 0 ∧ allocblock st slab = (ptr, st')) ∨
      (kalloc.findSlab st (kalloc.blockSize size) fuel = some none ∧ kalloc.pages st size fuel = 1 ∧
        allocblock (newslab st (kalloc.blockSize size) pg).2 (P2V pg.paddr) = (ptr, st')) := by
  unfold kalloc at hk
  unfold kalloc.pages
  rw [if_neg (by omega)] at *
  dsimp only at hk
  split at hk
  . contradiction
  . next slab hfind =>
    rw [Option.some.injEq] at hk
    exact Or.inl ⟨slab, hfind, by simp [hfind], hk⟩
  . next hfind =>
    rw [Option.some.injEq] at hk
    exact Or.inr ⟨hfind, by simp [hfind], hk⟩

theorem kalloc.block_of_kalloc {size ptr fuel : Nat} {pg : Pages}
    (hsize : size ≤ PGSIZE) (hk : kalloc st size pg fuel = some (ptr, st'))
    : ∃ link, kalloc.block st (kalloc.blockSize size) pg fuel = some (ptr, link) := by
  rcases kalloc.blockSize_eq hsize with ⟨e, he, _, _, hpow⟩
  have hpos : 0 < kalloc.blockSize size := by
    rw [hpow]
    apply Nat.two_pow_pos
  unfold kalloc.block
  cases kalloc_eq_some hsize hk with
  | inl hslab =>
    rcases hslab with ⟨slab, hfind, _, halloc⟩
    rw [hfind]
    dsimp only
    rw [← allocblock_fst, halloc]
    exact ⟨_, rfl⟩
  | inr hnew =>
    rcases hnew with ⟨hfind, _, halloc⟩
    have hspec : newslab.Spec st (kalloc.blockSize size) (P2V pg.paddr) pg.contents _ :=
      newslab_spec hpos
    rw [hfind]
    dsimp only
    rw [← hspec.freelist, ← allocblock_fst, halloc]
    exact ⟨_, rfl⟩

theorem Inv.kalloc_small {size ptr fuel : Nat} {pg : Pages} (h : Inv st own slabs)
    (hsize : size ≤ PGSIZE) (hpg : pg.Fresh st (kalloc.pages st size fuel))
    (hlink : kalloc.LinkOk st size pg) (hk : kalloc st size pg fuel = some (ptr, st'))
    : ∃ own' slabs' page k, Inv st' own' slabs' ∧
        Grows own own' page (kalloc.blockSize size) k ptr := by
  cases kalloc_eq_some hsize hk with
  | inl hslab =>
    rcases hslab with ⟨slab, hfind, _, halloc⟩
    have := h.kalloc_slab hfind hlink
    rwa [halloc] at this
  | inr hnew =>
    rcases hnew with ⟨hfind, hpages, halloc⟩
    rcases kalloc.blockSize_eq hsize with ⟨e, he, _, _, hpow⟩
    have h8 : 8 ≤ kalloc.blockSize size := by
      rw [hpow]
      apply Nat.pow_le_pow_right (show 0 < 2 by omega) he
    rw [hpages] at hpg
    have := h.kalloc_newslab h8 hpg hfind hlink
    rwa [halloc] at this

end Slab
end Franklin
