import Franklin.Slab.Lemmas.Disjoint
import Mathlib.Order.CompletePartialOrder
import Mathlib.Order.Interval.Set.Disjoint

/-!
This module contains the runs of the heap in which the live allocations stay apart.
-/

namespace Franklin
namespace Slab

def Alloc.range (a : Alloc) : Set Nat :=
  Set.Ico a.ptr (a.ptr + a.size)

def Slabber.OnList (st : Slabber) (slab : Nat) : Prop :=
  SList.Visits st.mem st.slabs slab

/--
The live allocations overlap neither each other, nor the header of a slab on the list, nor the metadata
page of a live large allocation.
-/
structure Sys.Separated (sys : Sys) : Prop where
  pairwise : sys.live.Pairwise fun a b => Disjoint a.range b.range
  header : ∀ a ∈ sys.live, ∀ slab, sys.st.OnList slab →
    Disjoint a.range (Set.Ico slab (slab + sizeofSlab))
  metadata : ∀ a ∈ sys.live, ∀ b ∈ sys.live, PGSIZE < b.size →
    Disjoint a.range (Set.Ico (b.ptr - PGSIZE) b.ptr)

/--
The calls that keep clear of what goes wrong in `newslab`, `kfree` and `DIV_ROUNDUP`: a small
allocation ends in its page and its link is not the one that was never set, a large one does not wrap
around, and the page behind a block that is freed does not hold a slab.
-/
def Sys.Sound (sys : Sys) : Call → Prop
  | .kalloc size pg =>
    if PGSIZE < size then
      size ≤ 2 ^ 64 - PGSIZE
    else
      kalloc.InPage sys.st size pg ∧ kalloc.LinkOk sys.st size pg
  | .kfree ptr =>
    ptr % PGSIZE = 0 ∨ ¬sys.st.OnList (ptr / PGSIZE * PGSIZE + PGSIZE)
  | .write _ _ => True

structure Sys.Inv (sys : Sys) (own : Nat → Owner) (slabs : List Nat) : Prop where
  heap : Slab.Inv sys.st own slabs
  live : LiveInv own sys.live
  fits : ∀ a ∈ sys.live, a.Fits

theorem Sys.Inv.boot (mem : Nat → Nat) (inUse : Nat → Bool)
    : (Sys.boot mem inUse).Inv (fun _ => .none) [] where
  heap := Slab.Inv.boot mem inUse
  live := by
    constructor
    . intro a ha
      cases ha
    . apply List.Pairwise.nil
  fits := by
    intro a ha
    cases ha

variable {st st' : Slabber} {own : Nat → Owner} {slabs : List Nat} {live : List Alloc}

structure Sys.Kept (sys : Sys) (own : Nat → Owner) (slabs : List Nat) : Prop where
  heap : Slab.Inv sys.st own slabs
  live : LiveInv own sys.live

theorem Sys.Inv.kept {sys : Sys} (h : sys.Inv own slabs) : sys.Kept own slabs :=
  ⟨h.heap, h.live⟩

theorem pageAddr_ne_zero (page : Nat) : pageAddr page ≠ 0 := by
  rw [pageAddr_eq]
  omega

theorem Sys.Kept.after_kalloc_small {size ptr fuel : Nat} {pg : Pages}
    (h : Sys.Kept ⟨st, live⟩ own slabs) (hsize : size ≤ PGSIZE)
    (hpg : pg.Fresh st (kalloc.pages st size fuel))
    (hlink : kalloc.LinkOk st size pg) (hk : kalloc st size pg fuel = some (ptr, st'))
    : ptr ≠ 0 ∧ ∃ own' slabs', Sys.Kept ⟨st', ⟨ptr, size⟩ :: live⟩ own' slabs' := by
  rcases h.heap.kalloc_small hsize hpg hlink hk with ⟨own', slabs', page, k, hinv, hgrows⟩
  rcases kalloc.blockSize_eq hsize with ⟨e, _, _, hle, hpow⟩
  constructor
  . rw [hgrows.ptr_eq]
    unfold sizeofSlab
    omega
  . exact ⟨own', slabs', hinv, hgrows.live h.heap h.live (by omega) hsize⟩

theorem Sys.Kept.after_kalloclarge {size : Nat} {pg : Pages} (h : Sys.Kept ⟨st, live⟩ own slabs)
    (hsize : PGSIZE < size) (hle : size ≤ 2 ^ 64 - PGSIZE)
    (hpg : pg.Fresh st ((DIV_ROUNDUP size PGSIZE + 1) % 2 ^ 64)) (hpaddr : pg.paddr ≠ 0)
    : (kalloclarge st size pg).1 ≠ 0
        ∧ ∃ own', Sys.Kept ⟨(kalloclarge st size pg).2, ⟨(kalloclarge st size pg).1, size⟩ :: live⟩ own' slabs := by
  rcases DIV_ROUNDUP_spec hle with ⟨hcover, hlt⟩
  unfold kalloclarge
  dsimp only
  rw [if_neg hpaddr]
  dsimp only
  rw [Nat.mod_eq_of_lt hlt] at *
  have hinv := h.heap.after_palloc hpg
  have hbound := hpg.bound
  have hdiv := Nat.div_add_mod pg.paddr PGSIZE
  rw [hpg.aligned, Nat.mul_comm] at hdiv
  have hfree : ∀ page, pg.paddr / PGSIZE ≤ page → page ≤ pg.paddr / PGSIZE + DIV_ROUNDUP size PGSIZE →
      own page = .none := by
    intro page h1 h2
    apply h.heap.own_eq_none hpg h1
    omega
  have hused : ∀ page, pg.paddr / PGSIZE ≤ page → page ≤ pg.paddr / PGSIZE + DIV_ROUNDUP size PGSIZE →
      (palloc st (DIV_ROUNDUP size PGSIZE + 1) pg).inUse page = true := by
    intro page h1 h2
    rw [palloc_inUse]
    apply Or.inl
    omega
  have hnext : (P2V pg.paddr + PGSIZE) % 2 ^ 64 = pageAddr (pg.paddr / PGSIZE + 1) := by
    rw [hpg.P2V_eq, pageAddr_eq, pageAddr_eq]
    unfold PGSIZE at *
    omega
  rw [hnext, hpg.P2V_eq]
  generalize pg.paddr / PGSIZE = f at *
  generalize DIV_ROUNDUP size PGSIZE = c at *
  refine ⟨pageAddr_ne_zero (f + 1), claim own f c, ?_, h.live.after_claim hinv hfree hsize hcover⟩
  apply hinv.after_claim hfree hused
  rw [Nat.add_assoc, Nat.add_mul]
  omega

theorem Sys.Kept.after_kalloc {size ptr fuel : Nat} {pg : Pages} (h : Sys.Kept ⟨st, live⟩ own slabs)
    (hok : if PGSIZE < size then size ≤ 2 ^ 64 - PGSIZE else kalloc.LinkOk st size pg)
    (hpg : pg.Fresh st (kalloc.pages st size fuel)) (hk : kalloc st size pg fuel = some (ptr, st'))
    : ∃ own' slabs', Sys.Kept ⟨st', if ptr = 0 then live else ⟨ptr, size⟩ :: live⟩ own' slabs' := by
  split at hok
  . next hlarge =>
    unfold kalloc at hk
    rw [if_pos hlarge, Option.some.injEq] at hk
    unfold kalloc.pages at hpg
    rw [if_pos hlarge] at hpg
    by_cases hpaddr : pg.paddr = 0
    . unfold kalloclarge at hk
      rw [if_pos hpaddr, Prod.mk.injEq] at hk
      rcases hk with ⟨rfl, rfl⟩
      rw [if_pos rfl]
      exact ⟨own, slabs, h.heap.after_palloc hpg, h.live⟩
    . rcases h.after_kalloclarge hlarge hok hpg hpaddr with ⟨hne, own', hkept⟩
      rw [hk] at hne hkept
      rw [if_neg hne]
      exact ⟨own', slabs, hkept⟩
  . next hsmall =>
    rcases h.after_kalloc_small (by omega) hpg hok hk with ⟨hne, hkept⟩
    rw [if_neg hne]
    exact hkept

theorem Sys.Inv.after_kalloc {size ptr fuel : Nat} {pg : Pages} (h : Sys.Inv ⟨st, live⟩ own slabs)
    (hsound : Sys.Sound ⟨st, live⟩ (.kalloc size pg))
    (hpg : pg.Fresh st (kalloc.pages st size fuel)) (hk : kalloc st size pg fuel = some (ptr, st'))
    : ∃ own' slabs', Sys.Inv ⟨st', if ptr = 0 then live else ⟨ptr, size⟩ :: live⟩ own' slabs' := by
  simp only [Sys.Sound] at hsound
  have hok : if PGSIZE < size then size ≤ 2 ^ 64 - PGSIZE else kalloc.LinkOk st size pg := by
    split at hsound
    . next hlarge =>
      rw [if_pos hlarge]
      exact hsound
    . next hsmall =>
      rw [if_neg hsmall]
      exact hsound.2
  rcases h.kept.after_kalloc hok hpg hk with ⟨own', slabs', hkept⟩
  refine ⟨own', slabs', hkept.heap, hkept.live, ?_⟩
  intro a ha hmod
  have howned := hkept.live.owned a ha
  dsimp only at ha
  split at ha
  . exact h.fits a ha hmod
  . cases List.mem_cons.mp ha with
    | inr hmem => exact h.fits a hmem hmod
    | inl heq =>
      subst heq
      cases howned with
      | inr hlarge => exact absurd hlarge.ptr_mod hmod
      | inl hsmall =>
        rcases hsmall with ⟨_, _, _, _, _, _, _, _, hsize⟩
        rcases kalloc.block_of_kalloc hsize hk with ⟨link, hblock⟩
        rw [if_neg (Nat.not_lt.mpr hsize)] at hsound
        exact hsound.1 fuel ptr link hblock

theorem Inv.eq_of_matches {page page' ptr : Nat} (h : Inv st own slabs) (hpage' : page' ∈ slabs)
    (h1 : pageAddr page ≤ ptr) (h2 : ptr < pageAddr page + PGSIZE)
    (hmatch : kfree.matches? ptr (pageAddr page') = true) : page' = page + 1 := by
  rcases (h.mem_slabs page').mp hpage' with ⟨s, k, hown⟩
  have hbound := h.bound page' (by simp [hown])
  unfold kfree.matches? at hmatch
  simp only [Bool.not_eq_true', Bool.or_eq_false_iff, decide_eq_false_iff_not] at hmatch
  rw [pageAddr_eq] at *
  unfold PGSIZE sizeofSlab at *
  omega

theorem Inv.find_matches {page ptr fuel : Nat} {res : Option Nat} (h : Inv st own slabs)
    (h1 : pageAddr page ≤ ptr) (h2 : ptr < pageAddr page + PGSIZE)
    (hfind : SList.find st.mem (kfree.matches? ptr) fuel st.slabs = some res)
    : res = none ∨ res = some (pageAddr (page + 1)) ∧ page + 1 ∈ slabs := by
  have hfound := h.chain.eq_find?_of_find_eq hfind
  cases res with
  | none => exact Or.inl rfl
  | some slab =>
    rcases List.mem_map.mp (List.mem_of_find?_eq_some hfound) with ⟨page', hpage', heq⟩
    have hmatch := List.find?_some hfound
    rw [← heq] at hmatch
    have hnext := h.eq_of_matches hpage' h1 h2 hmatch
    rw [hnext] at heq hpage'
    rw [← heq]
    exact Or.inr ⟨rfl, hpage'⟩

theorem Inv.onList_iff (h : Inv st own slabs) {slab : Nat}
    : st.OnList slab ↔ ∃ page ∈ slabs, pageAddr page = slab := by
  unfold Slabber.OnList
  rw [h.chain.visits_iff, List.mem_map]

theorem Inv.find_matches_eq_none {a : Alloc} {fuel : Nat} {res : Option Nat} (h : Inv st own slabs)
    (ha : a.Small own) (hnext : ¬st.OnList (a.ptr / PGSIZE * PGSIZE + PGSIZE))
    (hfind : SList.find st.mem (kfree.matches? a.ptr) fuel st.slabs = some res) : res = none := by
  rcases ha with ⟨page, s, k, j, hown, hj, hptr, _⟩
  have hlt := ((h.slab page s k hown).block_lt hj).1
  cases h.find_matches (show pageAddr page ≤ a.ptr by omega) (by omega) hfind with
  | inl hnone => apply hnone
  | inr hsome =>
    exfalso
    apply hnext
    rw [h.onList_iff]
    refine ⟨page + 1, hsome.2, ?_⟩
    have hdiv := Nat.div_add_mod a.ptr PGSIZE
    have hmod : a.ptr % PGSIZE = sizeofSlab + j * s := by
      rw [hptr, Nat.add_assoc, pageAddr_add_mod page hlt]
    rw [hmod, Nat.mul_comm] at hdiv
    unfold pageAddr at *
    rw [Nat.succ_mul]
    omega

theorem Inv.kfree_small {a : Alloc} {fuel : Nat} (h : Inv st own slabs) (ha : a.Small own)
    (hnext : ¬st.OnList (a.ptr / PGSIZE * PGSIZE + PGSIZE)) (hk : kfree st a.ptr fuel = .ret st')
    : st' = st := by
  unfold kfree at hk
  rw [if_neg (h.ptr_mod_of_small ha)] at hk
  split at hk
  . cases hk
    rfl
  . split at hk
    . cases hk
    . cases hk
      rfl
    . next slab hfind => cases h.find_matches_eq_none ha hnext hfind

theorem Sys.Kept.after_kfree {a : Alloc} {fuel : Nat} (h : Sys.Kept ⟨st, live⟩ own slabs)
    (hok : a.ptr % PGSIZE = 0 ∨ ¬st.OnList (a.ptr / PGSIZE * PGSIZE + PGSIZE)) (ha : a ∈ live)
    (hk : kfree st a.ptr fuel = .ret st')
    : ∃ own', Sys.Kept ⟨st', live.erase a⟩ own' slabs := by
  cases h.live.owned a ha with
  | inl hsmall =>
    cases hok with
    | inl hmod => exact absurd hmod (h.heap.ptr_mod_of_small hsmall)
    | inr hnext =>
      have heq := h.heap.kfree_small hsmall hnext hk
      rw [heq]
      exact ⟨own, h.heap, h.live.erase a⟩
  | inr hlarge =>
    have hmod := hlarge.ptr_mod
    rcases hlarge with ⟨f, c, hown, hptr, _⟩
    unfold kfree at hk
    rw [if_neg (by rw [hptr]; apply pageAddr_ne_zero), if_pos hmod] at hk
    cases hk
    rw [hptr]
    exact ⟨unclaim own f c, h.heap.after_kfreelarge hown, h.live.after_kfreelarge ha hptr⟩

theorem Sys.Inv.step {sys sys' : Sys} {call : Call} (h : sys.Inv own slabs) (hsound : sys.Sound call)
    (hstep : Step sys call sys') : ∃ own' slabs', sys'.Inv own' slabs' := by
  cases hstep with
  | kalloc _ hpg hk => apply h.after_kalloc hsound hpg hk
  | kfree ha hk =>
    rcases h.kept.after_kfree hsound ha hk with ⟨own', hkept⟩
    exact ⟨own', slabs, hkept.heap, hkept.live, fun b hb => h.fits b (List.mem_of_mem_erase hb)⟩
  | write ha _ haddr =>
    refine ⟨own, slabs, ?_, h.live, h.fits⟩
    apply h.heap.after_write (h.live.owned _ ha) (h.fits _ ha) haddr.1 haddr.2

theorem Run.exists_inv {sys : Sys} (h : Run Sys.Sound sys) : ∃ own slabs, sys.Inv own slabs := by
  induction h with
  | boot mem inUse => exact ⟨_, _, Sys.Inv.boot mem inUse⟩
  | step _ hsound hstep ih =>
    rcases ih with ⟨own, slabs, hinv⟩
    apply hinv.step hsound hstep

theorem Sys.Inv.separated {sys : Sys} (h : sys.Inv own slabs) : sys.Separated where
  pairwise := by
    apply List.Pairwise.imp_of_mem _ h.live.distinct
    intro a b ha hb hne
    rw [Set.disjoint_left]
    intro x hxa hxb
    rcases h.heap.covers (h.live.owned a ha) (h.fits a ha) hxa.1 hxa.2 with ⟨page, h1, h2, hcov⟩
    rcases h.heap.covers (h.live.owned b hb) (h.fits b hb) hxb.1 hxb.2 with ⟨page', h1', h2', hcov'⟩
    have heq := eq_of_mem_page h1 h2 h1' h2'
    subst heq
    apply hne
    apply hcov.ptr_eq hcov'
  header := by
    intro a ha slab hslab
    rw [h.heap.onList_iff] at hslab
    rcases hslab with ⟨page', hpage', rfl⟩
    rcases (h.heap.mem_slabs page').mp hpage' with ⟨s, k, hown⟩
    rw [Set.disjoint_left]
    intro x hxa hx
    rcases h.heap.covers (h.live.owned a ha) (h.fits a ha) hxa.1 hxa.2 with ⟨page, h1, h2, hcov⟩
    apply hcov.not_guarded h.heap h1 h2
    refine Or.inl ⟨page', s, k, hown, hx.1, ?_, Or.inl hx.2⟩
    have := hx.2
    unfold sizeofSlab at this
    unfold PGSIZE
    omega
  metadata := by
    intro a ha b hb hsize
    cases h.live.owned b hb with
    | inl hsmall =>
      rcases hsmall with ⟨_, _, _, _, _, _, _, _, hle⟩
      omega
    | inr hlarge =>
      rcases hlarge with ⟨f, c, hown, hptr, _⟩
      have hsucc : pageAddr (f + 1) = pageAddr f + PGSIZE := by
        unfold pageAddr
        rw [Nat.succ_mul]
        omega
      rw [Set.disjoint_left]
      intro x hxa hx
      rw [hptr, hsucc, Nat.add_sub_cancel] at hx
      rcases h.heap.covers (h.live.owned a ha) (h.fits a ha) hxa.1 hxa.2 with ⟨page, h1, h2, hcov⟩
      have heq := eq_of_mem_page h1 h2 hx.1 hx.2
      subst heq
      cases hcov with
      | block s k j hown' =>
        rw [hown] at hown'
        cases hown'
      | page f' c' hown' hne =>
        rw [hown, Owner.large.injEq] at hown'
        exact hne hown'.1

theorem Run.live_separated {sys : Sys} (h : Run Sys.Sound sys) : sys.Separated := by
  rcases h.exists_inv with ⟨own, slabs, hinv⟩
  apply hinv.separated

/-!
The loops of the calls end in these runs: the list of slabs is finite, and `kfree` finds no slab whose
reference count is zero.
-/

theorem Inv.exists_kalloc_eq_some (h : Inv st own slabs) (size : Nat) (pg : Pages)
    : ∃ fuel res, kalloc st size pg fuel = some res := by
  refine ⟨slabs.length + 1, ?_⟩
  have hfind : kalloc.findSlab st (kalloc.blockSize size) (slabs.length + 1) = some _ :=
    h.chain.find_eq (by simp)
  unfold kalloc
  split
  . exact ⟨_, rfl⟩
  . dsimp only
    rw [hfind]
    split
    . next heq => cases heq
    . exact ⟨_, rfl⟩
    . exact ⟨_, rfl⟩

theorem Inv.exists_kfree_eq_ret {a : Alloc} (h : Inv st own slabs) (hown : a.Owned own)
    (hsound : Sys.Sound ⟨st, live⟩ (.kfree a.ptr)) : ∃ fuel st', kfree st a.ptr fuel = .ret st' := by
  refine ⟨slabs.length + 1, ?_⟩
  unfold kfree
  split
  . exact ⟨_, rfl⟩
  . split
    . exact ⟨_, rfl⟩
    . next hmod =>
      cases hown with
      | inr hlarge => exact absurd hlarge.ptr_mod hmod
      | inl hsmall =>
        have hfind : SList.find st.mem (kfree.matches? a.ptr) (slabs.length + 1) st.slabs = some _ :=
          h.chain.find_eq (by simp)
        cases hsound with
        | inl hzero => contradiction
        | inr hnext =>
          rw [hfind, h.find_matches_eq_none hsmall hnext hfind]
          exact ⟨_, rfl⟩

theorem Run.call_returns {sys : Sys} (h : Run Sys.Sound sys)
    : (∀ size pg, ∃ fuel res, kalloc sys.st size pg fuel = some res) ∧
      ∀ a ∈ sys.live, sys.Sound (.kfree a.ptr) → ∃ fuel st', kfree sys.st a.ptr fuel = .ret st' := by
  rcases h.exists_inv with ⟨own, slabs, hinv⟩
  constructor
  . apply hinv.heap.exists_kalloc_eq_some
  . intro a ha hsound
    apply hinv.heap.exists_kfree_eq_ret (hinv.live.owned a ha) hsound

/-!
Runs on pages that hold only zeros.
-/

def zeroPages (paddr : Nat) : Pages :=
  { paddr, contents := fun _ => 0 }

def Sys.zero : Sys :=
  Sys.boot (fun _ => 0) (fun _ => false)

def Sys.kallocZero (sys : Sys) (size paddr fuel : Nat) : Option Sys :=
  match kalloc sys.st size (zeroPages paddr) fuel with
  | none => none
  | some (ptr, st) => some ⟨st, if ptr = 0 then sys.live else ⟨ptr, size⟩ :: sys.live⟩

theorem Sys.step_of_kallocZero {sys sys' : Sys} {size paddr fuel : Nat} (hsize : size < 2 ^ 64)
    (hpg : (zeroPages paddr).Fresh sys.st (kalloc.pages sys.st size fuel))
    (h : sys.kallocZero size paddr fuel = some sys')
    : Step sys (.kalloc size (zeroPages paddr)) sys' := by
  unfold Sys.kallocZero at h
  split at h
  . cases h
  . next hk =>
    cases h
    apply Step.kalloc hsize hpg hk

theorem Pages.fresh_one {st : Slabber} {pg : Pages} (halign : pg.paddr % PGSIZE = 0)
    (hbound : pg.paddr + PGSIZE < 2 ^ 47) (hunused : st.inUse (pg.paddr / PGSIZE) = false)
    : pg.Fresh st 1 where
  aligned := halign
  bound := by omega
  unused := by
    intro page h1 h2
    obtain rfl : page = pg.paddr / PGSIZE := by omega
    apply hunused

def twoPages : Option Sys :=
  (Sys.zero.kallocZero 4096 0x1000 1).bind fun sys => sys.kallocZero 4096 0x2000 2

theorem kalloc_page_overlaps_header
    : ∃ sys, Run (fun _ call => ∃ paddr, call = .kalloc 4096 (zeroPages paddr)) sys ∧
        ¬sys.Separated := by
  have hfirst : (Sys.zero.kallocZero 4096 0x1000 1).isSome = true := by decide +kernel
  rcases Option.isSome_iff_exists.mp hfirst with ⟨sys, hsys⟩
  have hpages : (Sys.zero.kallocZero 4096 0x1000 1).map (fun sys => (kalloc.pages sys.st 4096 2, sys.st.inUse 2)) =
      some (1, false) := by
    decide +kernel
  have hsecond : twoPages.map (fun sys => (sys.live, sys.st.slabs))
      = some ([⟨18446603336221204520, 4096⟩, ⟨18446603336221200424, 4096⟩], 18446603336221204480) := by
    decide +kernel
  rw [hsys, Option.map_some, Option.some.injEq, Prod.mk.injEq] at hpages
  unfold twoPages at hsecond
  rw [hsys, Option.bind_some, Option.map_eq_some_iff] at hsecond
  rcases hsecond with ⟨sys', hsys', hres⟩
  rw [Prod.mk.injEq] at hres
  refine ⟨sys', ?_, ?_⟩
  . apply Run.step _ ⟨0x2000, rfl⟩ (Sys.step_of_kallocZero (by decide) _ hsys')
    . apply Run.step (Run.boot _ _) ⟨0x1000, rfl⟩ (Sys.step_of_kallocZero (by decide) _ hsys)
      apply Pages.fresh_one
      . rfl
      . decide
      . rfl
    . rw [hpages.1]
      apply Pages.fresh_one
      . rfl
      . decide
      . apply hpages.2
  . intro hsep
    have hheader : SList.Visits sys'.st.mem sys'.st.slabs 18446603336221204480 := by
      rw [hres.2]
      apply SList.Visits.head
      decide
    have := hsep.header ⟨18446603336221200424, 4096⟩ (by rw [hres.1]; simp) _ hheader
    rw [Set.disjoint_left] at this
    apply @this 18446603336221204480
    . constructor <;> decide
    . constructor <;> decide

theorem Sys.zero_block {size paddr fuel b link : Nat}
    (h : kalloc.block Sys.zero.st size (zeroPages paddr) fuel = some (b, link))
    : b = P2V paddr + sizeofSlab ∧ link = 0 := by
  cases fuel with
  | zero => simp [kalloc.block, kalloc.findSlab, SList.find] at h
  | succ fuel =>
    have hfind : kalloc.findSlab Sys.zero.st size (fuel + 1) = some none := by
      simp [kalloc.findSlab, SList.find, Sys.zero, Sys.boot]
    simp only [kalloc.block, hfind, zeroPages, Option.some.injEq, Prod.mk.injEq] at h
    exact ⟨h.1.symm, h.2.symm⟩

theorem Sys.zero_linkOk (size paddr : Nat) : kalloc.LinkOk Sys.zero.st size (zeroPages paddr) := by
  intro fuel b link h
  exact Or.inr (Sys.zero_block h).2

theorem Sys.zero_sound {size : Nat} (hsize : size ≤ PGSIZE) (paddr : Nat)
    (hin : (P2V paddr + sizeofSlab) % PGSIZE + size ≤ PGSIZE)
    : Sys.zero.Sound (.kalloc size (zeroPages paddr)) := by
  simp only [Sys.Sound]
  rw [if_neg (by omega)]
  refine ⟨?_, Sys.zero_linkOk size paddr⟩
  intro fuel b link h
  rw [(Sys.zero_block h).1]
  apply hin

theorem run_small_and_large {ok : Sys → Call → Prop} (hsmall : ok Sys.zero (.kalloc 16 (zeroPages 0x1000)))
    (hlarge : ∀ sys, ok sys (.kalloc 5000 (zeroPages 0x5000)))
    : ∃ sys, Run ok sys ∧ sys.live = [⟨18446603336221220864, 5000⟩, ⟨18446603336221200424, 16⟩] := by
  have hfirst : (Sys.zero.kallocZero 16 0x1000 1).isSome = true := by decide +kernel
  rcases Option.isSome_iff_exists.mp hfirst with ⟨sys, hsys⟩
  have hunused : (Sys.zero.kallocZero 16 0x1000 1).map (fun sys => sys.st.inUse 5 || sys.st.inUse 6 || sys.st.inUse 7)
      = some false := by
    decide +kernel
  have hsecond : ((Sys.zero.kallocZero 16 0x1000 1).bind fun sys => sys.kallocZero 5000 0x5000 1).map Sys.live
      = some [⟨18446603336221220864, 5000⟩, ⟨18446603336221200424, 16⟩] := by
    decide +kernel
  rw [hsys, Option.map_some, Option.some.injEq, Bool.or_eq_false_iff, Bool.or_eq_false_iff] at hunused
  rw [hsys, Option.bind_some, Option.map_eq_some_iff] at hsecond
  rcases hsecond with ⟨sys', hsys', hlive⟩
  have hrun : Run ok sys' := by
    apply Run.step _ (hlarge sys) (Sys.step_of_kallocZero (by decide) _ hsys')
    . apply Run.step (Run.boot _ _) hsmall (Sys.step_of_kallocZero (by decide) _ hsys)
      apply Pages.fresh_one
      . rfl
      . decide
      . rfl
    . have hpages : kalloc.pages sys.st 5000 1 = 3 := by
        simp [kalloc.pages, PGSIZE, DIV_ROUNDUP]
      rw [hpages]
      constructor
      . rfl
      . decide
      . intro page h1 h2
        simp only [zeroPages, PGSIZE] at h1 h2
        obtain rfl | rfl | rfl : page = 5 ∨ page = 6 ∨ page = 7 := by omega
        . apply hunused.1.1
        . apply hunused.1.2
        . apply hunused.2
  exact ⟨sys', hrun, hlive⟩

theorem separated_small_and_large
    : ∃ sys, Run Sys.Sound sys ∧
        sys.live = [⟨18446603336221220864, 5000⟩, ⟨18446603336221200424, 16⟩] ∧ sys.Separated := by
  have hlarge : ∀ sys, Sys.Sound sys (.kalloc 5000 (zeroPages 0x5000)) := by
    intro sys
    simp [Sys.Sound, PGSIZE]
  rcases run_small_and_large (Sys.zero_sound (by decide) 0x1000 (by decide +kernel)) hlarge with ⟨sys, hrun, hlive⟩
  exact ⟨sys, hrun, hlive, hrun.live_separated⟩

end Slab
end Franklin
