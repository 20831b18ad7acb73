import Franklin.Pmm.Lemmas.Scan
import Franklin.Slab.Heap
import Franklin.Slab.Lemmas.Newslab

/-!
This module contains the heap as an instance of the slab allocator, and its large allocations: which bits of the page
bitmap `kalloc` sets for them and which of these `kfree` clears.
-/

namespace Franklin

namespace Pmm

theorem freeRun_of_palloc {bm bm' : Bitmap} {n addr : Nat} (hn : n < 2 ^ 63) (h : palloc bm n = some (addr, bm'))
    : ∃ p, addr = p * PGSIZE ∧ bm' = setRun bm p n ∧ FreeRun bm p n ∧ ∀ p' < p, ¬FreeRun bm p' n := by
  rcases palloc.At.of_palloc_eq_some h with ⟨q, _, hq, _, hclear⟩
  have hlt := bm.pages_lt
  rw [show q + ((q + n) % 2 ^ 64 - q) = q + n by omega] at hclear
  have hrun : FreeRun bm q n := by
    constructor
    . by_contra hout
      have := (hclear bm.pages hq (by omega)).1
      omega
    . intro i hi1 hi2
      exact (hclear i hi1 hi2).2
  rcases palloc_eq_some hrun with ⟨p, hpalloc, hrun, hleast⟩
  rw [hpalloc, Option.some.injEq, Prod.mk.injEq] at h
  exact ⟨p, h.1.symm, h.2.symm, hrun, hleast⟩

end Pmm

open Pmm (bitmap_test)

namespace Slab

theorem V2P_P2V_add {x y : Nat} (h : x + y < 2 ^ 64) : V2P ((P2V x + y) % 2 ^ 64) = x + y := by
  have hoff : Vmm.HHDM_OFFSET.toNat = 18446603336221196288 := rfl
  unfold V2P P2V
  rw [hoff]
  omega

theorem V2P_P2V {x : Nat} (h : x < 2 ^ 64) : V2P (P2V x) = x := by
  have hoff : Vmm.HHDM_OFFSET.toNat = 18446603336221196288 := rfl
  unfold V2P P2V
  rw [hoff]
  omega

theorem P2V_mod (p : Nat) : P2V (p * PGSIZE) % PGSIZE = 0 := by
  have hoff : Vmm.HHDM_OFFSET.toNat = 18446603336221196288 := rfl
  unfold P2V PGSIZE
  rw [hoff]
  omega

theorem P2V_lt (p : Nat) : P2V p < 2 ^ 64 := by
  unfold P2V
  omega

theorem DIV_ROUNDUP_lt (n : Nat) : DIV_ROUNDUP n PGSIZE < 2 ^ 52 := by
  unfold DIV_ROUNDUP PGSIZE
  omega

namespace Heap

variable {heap heap' : Heap} {n ptr fuel : Nat}

theorem slabber_update (st : Slabber) (bm : Pmm.Bitmap) (h : ∀ page, st.inUse page = bitmap_test bm page)
    : (update st bm).slabber = st := by
  have hinUse : bitmap_test bm = st.inUse := by
    funext page
    exact (h page).symm
  unfold slabber update
  dsimp only
  rw [hinUse]

theorem freepg_inUse (st : Slabber) (bm : Pmm.Bitmap) (addr length : Nat)
    (h : ∀ page, st.inUse page = bitmap_test bm page) (page : Nat)
    : (freepg st addr length).inUse page = bitmap_test (Pmm.freepg bm addr length) page := by
  have htaken : page ∈ (Pmm.freepg bm addr length).taken ↔
      page ∈ bm.taken ∧ page ∉ Set.Ico (addr / PGSIZE) (addr / PGSIZE + length % 2 ^ 32) := by
    unfold Pmm.freepg
    rw [Pmm.resetRun_taken, Set.mem_sdiff]
  rw [Pmm.Bitmap.mem_taken, Pmm.Bitmap.mem_taken, ← h, Set.mem_Ico] at htaken
  unfold freepg
  rw [Bool.eq_iff_iff, htaken, Bool.and_eq_true, Bool.not_eq_true', decide_eq_false_iff_not]

theorem palloc_inUse_eq (heap : Heap) (p : Nat) (pages : Nat) (contents : Nat → Nat) (page : Nat)
    : (palloc heap.slabber pages ⟨p * PGSIZE, contents⟩).inUse page
        = bitmap_test (Pmm.setRun heap.bm p pages) page := by
  have htaken : page ∈ (Pmm.setRun heap.bm p pages).taken ↔ page ∈ heap.bm.taken ∨ page ∈ Set.Ico p (p + pages) := by
    rw [Pmm.setRun_taken, Set.mem_union]
  rw [Pmm.Bitmap.mem_taken, Pmm.Bitmap.mem_taken, Set.mem_Ico] at htaken
  have hfirst : p * PGSIZE / PGSIZE = p := Nat.mul_div_cancel p (by decide)
  rw [Bool.eq_iff_iff, htaken, palloc_inUse, hfirst, or_comm]
  rfl

theorem kalloc_inUse {st st' : Slabber} {size : Nat} {pg : Pages} (h : Slab.kalloc st size pg fuel = some (ptr, st'))
    : st'.inUse = (palloc st (kalloc.pages st size fuel) pg).inUse := by
  have hzero : (palloc st 0 pg).inUse = st.inUse := by
    funext page
    rw [Bool.eq_iff_iff, palloc_inUse]
    constructor
    . rintro (hin | hused)
      . omega
      . exact hused
    . exact Or.inr
  unfold Slab.kalloc at h
  unfold Slab.kalloc.pages
  split at h
  . next hlarge =>
    rw [if_pos hlarge, kalloclarge, Option.some.injEq] at *
    split at h
    . rw [← (Prod.mk.inj h).2]
    . rw [← (Prod.mk.inj h).2]
      rfl
  . next hsmall =>
    rw [if_neg hsmall]
    dsimp only at h
    split at h
    . contradiction
    . next slab hfind =>
      rw [hfind]
      rw [Option.some.injEq] at h
      rw [← (Prod.mk.inj h).2]
      exact hzero.symm
    . next hfind =>
      rw [hfind]
      rw [Option.some.injEq] at h
      rw [← (Prod.mk.inj h).2]
      rfl

theorem freeslab_inUse {st st' : Slabber} {slab : Nat} (h : freeslab st slab fuel = some st')
    : st'.inUse = (freepg st (V2P slab) 1).inUse := by
  unfold freeslab at h
  split at h
  . cases h
    rfl
  . split at h
    . contradiction
    . cases h
      rfl

theorem kfree_inUse {st st' : Slabber} (h : Slab.kfree st ptr fuel = .ret st')
    : st'.inUse = match kfree.freed st ptr fuel with
        | none => st.inUse
        | some (addr, length) => (freepg st addr length).inUse := by
  unfold Slab.kfree at h
  unfold kfree.freed
  split at h
  . next hnull =>
    cases h
    rw [if_pos hnull]
  . next hnull =>
    rw [if_neg hnull]
    split at h
    . next halign =>
      cases h
      rw [if_pos halign]
      rfl
    . next halign =>
      rw [if_neg halign]
      split at h
      . contradiction
      . next hfind =>
        cases h
        rw [hfind]
      . next slab hfind =>
        rw [hfind]
        have hcount : (st.store (slab + 16) (st.refcount slab - 1)).refcount slab = st.refcount slab - 1 := by
          simp [Slabber.store, Slabber.refcount]
        dsimp only at h ⊢
        rw [hcount] at h
        split at h
        . contradiction
        . next hpos =>
          split at h
          . next hzero =>
            rw [if_pos (by omega)]
            split at h
            . contradiction
            . next st₁ hfree =>
              cases h
              rw [freeslab_inUse hfree]
              rfl
          . next hne =>
            rw [if_neg (by omega)]
            cases h
            rfl

theorem kfree_slabber (h : heap.kfree ptr fuel = some heap')
    : Slab.kfree heap.slabber ptr fuel = .ret heap'.slabber := by
  unfold Heap.kfree at h
  split at h
  . next st hret =>
    have hinUse := kfree_inUse hret
    rw [hret]
    split at h
    . next hfreed =>
      rw [hfreed] at hinUse
      rw [Option.some.injEq] at h
      rw [← h, slabber_update]
      intro page
      rw [hinUse]
      rfl
    . next addr length hfreed =>
      rw [hfreed] at hinUse
      rw [Option.some.injEq] at h
      rw [← h, slabber_update]
      intro page
      rw [hinUse]
      apply freepg_inUse
      intro page
      rfl
  . contradiction

theorem kalloc_pages_lt (st : Slabber) (size fuel : Nat) : kalloc.pages st size fuel < 2 ^ 63 := by
  unfold kalloc.pages
  split
  . have hround := DIV_ROUNDUP_lt size
    have hle := Nat.mod_le (DIV_ROUNDUP size PGSIZE + 1) (2 ^ 64)
    omega
  . split
    . decide
    . decide

theorem kalloc_eq_some {size : Nat} (h : heap.kalloc size fuel = some (ptr, heap'))
    : ∃ p st, Slab.kalloc heap.slabber size ⟨p * PGSIZE, heap.mem⟩ fuel = some (ptr, st) ∧
        heap' = update st (Pmm.setRun heap.bm p (kalloc.pages heap.slabber size fuel)) ∧
        Pmm.FreeRun heap.bm p (kalloc.pages heap.slabber size fuel) := by
  have hlt := kalloc_pages_lt heap.slabber size fuel
  unfold Heap.kalloc at h
  split at h
  . next hzero =>
    rcases Option.map_eq_some_iff.mp h with ⟨⟨ptr', st⟩, hk, heq⟩
    rcases Prod.mk.inj heq with ⟨rfl, rfl⟩
    rw [hzero]
    refine ⟨0, st, ?_, rfl, Nat.zero_le _, fun i _ hi => absurd hi (by omega)⟩
    rw [Nat.zero_mul]
    exact hk
  . next pages hpages =>
    split at h
    . contradiction
    . next paddr bm hpalloc =>
      rw [hpages] at hlt ⊢
      rcases Pmm.freeRun_of_palloc hlt hpalloc with ⟨p, rfl, rfl, hrun, _⟩
      rcases Option.map_eq_some_iff.mp h with ⟨⟨ptr', st⟩, hk, heq⟩
      rcases Prod.mk.inj heq with ⟨rfl, rfl⟩
      exact ⟨p, st, hk, rfl, hrun⟩

theorem kalloc_slabber {size : Nat} (h : heap.kalloc size fuel = some (ptr, heap'))
    : ∃ p contents, Slab.kalloc heap.slabber size ⟨p * PGSIZE, contents⟩ fuel = some (ptr, heap'.slabber) ∧
        Pmm.FreeRun heap.bm p (kalloc.pages heap.slabber size fuel) := by
  rcases kalloc_eq_some h with ⟨p, st, hk, rfl, hrun⟩
  refine ⟨p, heap.mem, ?_, hrun⟩
  rw [hk, slabber_update]
  intro page
  rw [kalloc_inUse hk]
  apply palloc_inUse_eq

theorem kalloc_bm {size : Nat} (h : heap.kalloc size fuel = some (ptr, heap'))
    : ∃ p, heap'.bm = Pmm.setRun heap.bm p (kalloc.pages heap.slabber size fuel) ∧
        Pmm.FreeRun heap.bm p (kalloc.pages heap.slabber size fuel) := by
  rcases kalloc_eq_some h with ⟨p, st, _, rfl, hrun⟩
  exact ⟨p, rfl, hrun⟩

theorem kalloc_isSome {addr : Nat} {bm : Pmm.Bitmap} (hn : n ≤ PGSIZE)
    (hfind : kalloc.findSlab heap.slabber (kalloc.blockSize n) fuel ≠ none)
    (hpalloc : Pmm.palloc heap.bm 1 = some (addr, bm))
    : ∃ ptr heap', heap.kalloc n fuel = some (ptr, heap') ∧ (heap'.bm = heap.bm ∨ heap'.bm = bm) := by
  have hsmall : ¬ PGSIZE < n := Nat.not_lt.mpr hn
  unfold Heap.kalloc kalloc.pages Slab.kalloc
  rw [if_neg hsmall]
  cases hres : kalloc.findSlab heap.slabber (kalloc.blockSize n) fuel with
  | none => exact absurd hres hfind
  | some res =>
    cases res with
    | some slab =>
      dsimp only
      rw [if_neg hsmall, hres]
      exact ⟨_, _, rfl, Or.inl rfl⟩
    | none =>
      dsimp only
      rw [hpalloc]
      dsimp only
      rw [if_neg hsmall, hres]
      exact ⟨_, _, rfl, Or.inr rfl⟩

theorem newslab_link (st : Slabber) (size : Nat) (pg : Pages)
    : (newslab st size pg).2.mem (newslab st size pg).1 = st.slabs := by
  simp only [newslab, Slabber.store, Function.update_self]
  rfl

theorem allocblock_link (st : Slabber) (slab : Nat) : (allocblock st slab).2.mem slab = st.mem slab := by
  simp only [allocblock, Slabber.store]
  rw [Function.update_of_ne (by omega), Function.update_of_ne (by omega)]

theorem kalloc_first {addr : Nat} {bm : Pmm.Bitmap} (hslabs : heap.slabs = 0) (hn : n ≤ PGSIZE)
    (hpalloc : Pmm.palloc heap.bm 1 = some (addr, bm))
    : ∃ ptr st, heap.kalloc n (fuel + 1) = some (ptr, update st bm) ∧ st.mem st.slabs = 0 := by
  have hsmall : ¬ PGSIZE < n := Nat.not_lt.mpr hn
  have hfind : ∀ size, kalloc.findSlab heap.slabber size (fuel + 1) = some none := by
    intro size
    unfold kalloc.findSlab SList.find
    exact if_pos hslabs
  have hpages : kalloc.pages heap.slabber n (fuel + 1) = 1 := by
    unfold kalloc.pages
    rw [if_neg hsmall, hfind]
  have hk : Slab.kalloc heap.slabber n ⟨addr, heap.mem⟩ (fuel + 1) =
      some (allocblock (newslab heap.slabber (kalloc.blockSize n) ⟨addr, heap.mem⟩).2
        (newslab heap.slabber (kalloc.blockSize n) ⟨addr, heap.mem⟩).1) := by
    unfold Slab.kalloc
    rw [if_neg hsmall]
    dsimp only
    rw [hfind]
  unfold Heap.kalloc
  rw [hpages]
  dsimp only
  rw [hpalloc]
  dsimp only
  rw [hk]
  refine ⟨_, _, rfl, ?_⟩
  exact (allocblock_link _ _).trans ((newslab_link _ _ _).trans hslabs)

theorem findSlab_of_link {st : Slabber} {size : Nat} (h : st.mem st.slabs = 0)
    : kalloc.findSlab st size (fuel + 2) ≠ none := by
  unfold kalloc.findSlab SList.find
  split
  . exact Option.some_ne_none _
  . split
    . exact Option.some_ne_none _
    . unfold SList.find
      rw [if_pos h]
      exact Option.some_ne_none _

theorem kalloc_large (hn : PGSIZE < n) (h : heap.kalloc n fuel = some (ptr, heap'))
    : ∃ p, heap'.bm = Pmm.setRun heap.bm p (DIV_ROUNDUP n PGSIZE + 1) ∧
        Pmm.FreeRun heap.bm p (DIV_ROUNDUP n PGSIZE + 1) ∧
        (∀ p' < p, ¬Pmm.FreeRun heap.bm p' (DIV_ROUNDUP n PGSIZE + 1)) ∧
        ptr = (if p = 0 then 0 else (P2V (p * PGSIZE) + PGSIZE) % 2 ^ 64) ∧
        (p ≠ 0 → heap'.mem (P2V (p * PGSIZE)) = DIV_ROUNDUP n PGSIZE) := by
  have hlt := DIV_ROUNDUP_lt n
  have hpages : kalloc.pages heap.slabber n fuel = DIV_ROUNDUP n PGSIZE + 1 := by
    unfold Slab.kalloc.pages
    rw [if_pos hn, Nat.mod_eq_of_lt (by omega)]
  unfold Heap.kalloc at h
  rw [hpages] at h
  dsimp only at h
  split at h
  . contradiction
  . next paddr bm hpalloc =>
    rcases Pmm.freeRun_of_palloc (by omega) hpalloc with ⟨p, rfl, rfl, hrun, hleast⟩
    have hnull : p * PGSIZE = 0 ↔ p = 0 := by
      unfold PGSIZE
      omega
    unfold Slab.kalloc at h
    rw [if_pos hn, Option.map_some, Option.some.injEq, Prod.mk.injEq] at h
    rcases h with ⟨hptr, rfl⟩
    refine ⟨p, rfl, hrun, hleast, ?_, ?_⟩
    . rw [← hptr]
      unfold kalloclarge
      simp only [hnull]
      split <;> rfl
    . intro hp
      unfold kalloclarge
      simp only [hnull, if_neg hp]
      apply Function.update_self

theorem kalloc_large_isSome (fuel : Nat) (hn : PGSIZE < n)
    (h : ∃ p, Pmm.FreeRun heap.bm p (DIV_ROUNDUP n PGSIZE + 1))
    : ∃ ptr heap', heap.kalloc n fuel = some (ptr, heap') := by
  have hlt := DIV_ROUNDUP_lt n
  have hpages : kalloc.pages heap.slabber n fuel = DIV_ROUNDUP n PGSIZE + 1 := by
    unfold Slab.kalloc.pages
    rw [if_pos hn, Nat.mod_eq_of_lt (by omega)]
  rcases h with ⟨q, hq⟩
  rcases Pmm.palloc_eq_some hq with ⟨p, hpalloc, _⟩
  unfold Heap.kalloc
  rw [hpages]
  dsimp only
  rw [hpalloc]
  unfold Slab.kalloc
  simp only [if_pos hn, Option.map_some]
  exact ⟨_, _, rfl⟩

theorem kfree_large (fuel : Nat) (hne : ptr ≠ 0) (halign : ptr % PGSIZE = 0)
    : ∃ heap', heap.kfree ptr fuel = some heap' ∧
        heap'.bm = Pmm.freepg heap.bm (V2P (ptr - PGSIZE)) (heap.mem (ptr - PGSIZE)) := by
  have hret : Slab.kfree heap.slabber ptr fuel = .ret (kfreelarge heap.slabber ptr) := by
    unfold Slab.kfree
    rw [if_neg hne, if_pos halign]
  have hfreed : kfree.freed heap.slabber ptr fuel = some (V2P (ptr - PGSIZE), heap.mem (ptr - PGSIZE)) := by
    unfold kfree.freed
    rw [if_neg hne, if_pos halign]
    rfl
  unfold Heap.kfree
  rw [hret, hfreed]
  exact ⟨_, rfl, rfl⟩

theorem sub_of_ptr {p : Nat} (h : ptr = (P2V (p * PGSIZE) + PGSIZE) % 2 ^ 64) (hptr : ptr ≠ 0)
    : ptr - PGSIZE = P2V (p * PGSIZE) ∧ ptr % PGSIZE = 0 := by
  have hlt := P2V_lt (p * PGSIZE)
  have hmod := P2V_mod p
  unfold PGSIZE at *
  omega

theorem kfree_kalloc_test (fuel' : Nat) (hn1 : PGSIZE < n) (hn2 : n < 2 ^ 40)
    (hk : heap.kalloc n fuel = some (ptr, heap')) (hptr : ptr ≠ 0)
    : ∃ p heap'', heap'.kfree ptr fuel' = some heap'' ∧
        bitmap_test heap.bm (p + DIV_ROUNDUP n PGSIZE) = false ∧
        ∀ i, bitmap_test heap''.bm i = true ↔
          bitmap_test heap.bm i = true ∨ i = p + DIV_ROUNDUP n PGSIZE := by
  rcases kalloc_large hn1 hk with ⟨p, hbm, hrun, _, hptr', hcount⟩
  have hp : p ≠ 0 := by
    intro hp
    rw [if_pos hp] at hptr'
    contradiction
  rw [if_neg hp] at hptr'
  rcases sub_of_ptr hptr' hptr with ⟨hmeta, halign⟩
  rcases kfree_large fuel' hptr halign with ⟨heap'', hkfree, hfree⟩
  refine ⟨p, heap'', hkfree, hrun.2 _ (by omega) (by omega), ?_⟩
  have hlt := heap.bm.pages_lt
  have hend := hrun.1
  have hcountlt : DIV_ROUNDUP n PGSIZE < 2 ^ 32 := by
    unfold DIV_ROUNDUP PGSIZE
    omega
  have hfirst : p * PGSIZE / PGSIZE = p := Nat.mul_div_cancel p (by decide)
  intro i
  -- The count in the metadata leaves out the metadata page itself.
  rw [← Pmm.Bitmap.mem_taken, hfree, hmeta, V2P_P2V (by unfold PGSIZE; omega), hcount hp]
  unfold Pmm.freepg
  rw [hfirst, Nat.mod_eq_of_lt hcountlt, Pmm.resetRun_taken, hbm, Pmm.setRun_taken]
  simp only [Set.mem_sdiff, Set.mem_union, Pmm.Bitmap.mem_taken, Set.mem_Ico]
  constructor
  . rintro ⟨htaken | hin, hout⟩
    . exact Or.inl htaken
    . right
      omega
  . rintro (htaken | heq)
    . refine ⟨Or.inl htaken, ?_⟩
      intro hin
      rw [hrun.2 i hin.1 (by omega)] at htaken
      cases htaken
    . subst heq
      refine ⟨Or.inr ?_, ?_⟩ <;> omega

theorem kfree_kalloc_leaks (fuel' : Nat) (hn1 : PGSIZE < n) (hn2 : n < 2 ^ 40)
    (hk : heap.kalloc n fuel = some (ptr, heap')) (hptr : ptr ≠ 0)
    : ¬∃ heap'', heap'.kfree ptr fuel' = some heap'' ∧
        ∀ i, bitmap_test heap''.bm i = bitmap_test heap.bm i := by
  rcases kfree_kalloc_test fuel' hn1 hn2 hk hptr with ⟨p, heap'', hkfree, hfree, hbits⟩
  rintro ⟨heap₁, hkfree₁, hsame⟩
  rw [hkfree, Option.some.injEq] at hkfree₁
  subst hkfree₁
  have hleaked := (hbits (p + DIV_ROUNDUP n PGSIZE)).mpr (Or.inr rfl)
  rw [hsame, hfree] at hleaked
  contradiction

def oneTaken : Heap :=
  { mem := fun _ => 0
    slabs := 0
    id := 0
    bm := { addr := 0x2000, size := 1, byte := fun _ => 1#8, size_lt := Pmm.Heap.oneByte_lt } }

theorem kfree_kalloc_10000 :
    ∃ ptr heap', oneTaken.kalloc 10000 0 = some (ptr, heap') ∧
      ¬∃ heap'', heap'.kfree ptr 0 = some heap'' ∧
        ∀ i, bitmap_test heap''.bm i = bitmap_test oneTaken.bm i := by
  have hk : oneTaken.kalloc 10000 0 = some (0xffff800000002000, _) := rfl
  exact ⟨_, _, hk, kfree_kalloc_leaks 0 (by decide) (by decide) hk (by decide)⟩

theorem kfree_leaves_page :
    ∃ ptr heap' heap'', oneTaken.kalloc 10000 0 = some (ptr, heap') ∧ ptr ≠ 0 ∧
      heap'.kfree ptr 0 = some heap'' ∧ bitmap_test oneTaken.bm 4 = false ∧ bitmap_test heap''.bm 4 = true := by
  have hk : oneTaken.kalloc 10000 0 = some (0xffff800000002000, _) := rfl
  refine ⟨_, _, _, hk, by decide, rfl, by decide, ?_⟩
  decide

/--
The page of each of the `n` bytes from `ptr` on has a bit, which was clear in `heap` and is set in `heap'`.
-/
def Reserves (heap heap' : Heap) (ptr n : Nat) : Prop :=
  ∀ a < n, V2P ((ptr + a) % 2 ^ 64) / PGSIZE < heap.bm.pages ∧
    bitmap_test heap.bm (V2P ((ptr + a) % 2 ^ 64) / PGSIZE) = false ∧
    bitmap_test heap'.bm (V2P ((ptr + a) % 2 ^ 64) / PGSIZE) = true

def Provides (heap : Heap) (n fuel : Nat) : Prop :=
  ∃ ptr heap', heap.kalloc n fuel = some (ptr, heap') ∧ (ptr = 0 ∨ heap.Reserves heap' ptr n)

/--
The first free page is one for which `kalloclarge` returns NULL: page 0, or the last one below the end of the
direct map, behind which the pointer wraps around.
-/
def NullPage (bm : Pmm.Bitmap) : Prop :=
  ∃ p, (p = 0 ∨ p = 2 ^ 35 - 1) ∧ Pmm.FreeRun bm p 1 ∧ ∀ p' < p, ¬Pmm.FreeRun bm p' 1

theorem DIV_ROUNDUP_of_gt {n : Nat} (h1 : 2 ^ 64 - PGSIZE < n) (h2 : n < 2 ^ 64) : DIV_ROUNDUP n PGSIZE = 0 := by
  unfold DIV_ROUNDUP PGSIZE at *
  omega

theorem ptr_eq_zero_iff {p : Nat} (hp : p < 2 ^ 52)
    : (if p = 0 then 0 else (P2V (p * PGSIZE) + PGSIZE) % 2 ^ 64) = 0 ↔ p = 0 ∨ p = 2 ^ 35 - 1 := by
  have hoff : Vmm.HHDM_OFFSET.toNat = 18446603336221196288 := rfl
  unfold P2V PGSIZE
  rw [hoff]
  split <;> omega

theorem V2P_ptr_add {p a : Nat} (h : p * PGSIZE + PGSIZE + a < 2 ^ 64)
    : V2P (((P2V (p * PGSIZE) + PGSIZE) % 2 ^ 64 + a) % 2 ^ 64) / PGSIZE = p + 1 + a / PGSIZE := by
  rw [Nat.mod_add_mod, Nat.add_assoc, V2P_P2V_add (by omega)]
  unfold PGSIZE
  omega

/--
`kalloc` keeps its promise exactly if there is a run for the pages it computes and the size does not wrap around in
the rounding.
-/
theorem kalloc_provides_iff (fuel : Nat) (hn1 : PGSIZE < n) (hn2 : n < 2 ^ 64)
    : heap.Provides n fuel ↔ (∃ p, Pmm.FreeRun heap.bm p (DIV_ROUNDUP n PGSIZE + 1)) ∧
        (n ≤ 2 ^ 64 - PGSIZE ∨ NullPage heap.bm) := by
  have hpages := heap.bm.pages_lt
  constructor
  . rintro ⟨ptr, heap', hk, hptr⟩
    rcases kalloc_large hn1 hk with ⟨p, hbm, hrun, hleast, hptr', _⟩
    refine ⟨⟨p, hrun⟩, ?_⟩
    by_contra hwrap
    simp only [not_or, Nat.not_le] at hwrap
    have hzero := DIV_ROUNDUP_of_gt hwrap.1 hn2
    rw [hzero] at hrun hleast hbm
    have hend := hrun.1
    cases hptr with
    | inl hnull =>
      apply hwrap.2
      refine ⟨p, ?_, hrun, hleast⟩
      rw [← ptr_eq_zero_iff (by omega), ← hptr', hnull]
    | inr hreserves =>
      -- The only page that was reserved is the one in front of the pointer.
      rcases hreserves 0 (by omega) with ⟨_, hclear, hset⟩
      rw [← Pmm.Bitmap.mem_taken, hbm, Pmm.setRun_taken, Set.mem_union, Pmm.Bitmap.mem_taken, hclear] at hset
      have hpage : V2P ((ptr + 0) % 2 ^ 64) / PGSIZE = p := by
        rcases hset with hset | hin
        . cases hset
        . rw [Set.mem_Ico] at hin
          exact Nat.le_antisymm (Nat.le_of_lt_succ hin.2) hin.1
      rw [hptr'] at hpage
      split at hpage
      . next hp =>
        rw [hp] at hpage
        exact absurd hpage (by decide)
      . rw [V2P_ptr_add (by unfold PGSIZE; omega), Nat.zero_div] at hpage
        omega
  . rintro ⟨⟨q, hq⟩, hwrap⟩
    rcases kalloc_large_isSome fuel hn1 ⟨q, hq⟩ with ⟨ptr, heap', hk⟩
    rcases kalloc_large hn1 hk with ⟨p, hbm, hrun, hleast, hptr, _⟩
    refine ⟨ptr, heap', hk, ?_⟩
    have hend := hrun.1
    by_cases hnull : ptr = 0
    . exact Or.inl hnull
    . right
      rw [hptr, ptr_eq_zero_iff (by omega)] at hnull
      have hle : n ≤ 2 ^ 64 - PGSIZE := by
        cases hwrap with
        | inl hle => exact hle
        | inr hpage =>
          by_contra hgt
          rw [DIV_ROUNDUP_of_gt (by omega) hn2] at hrun hleast
          rcases hpage with ⟨p', hp', hrun', hleast'⟩
          rcases Nat.lt_trichotomy p p' with hlt | heq | hlt
          . exact hleast' p hlt hrun
          . exact hnull (heq ▸ hp')
          . exact hleast p' hlt hrun'
      have hcover := (DIV_ROUNDUP_spec hle).1
      intro a ha
      have hdiv : a / PGSIZE < DIV_ROUNDUP n PGSIZE := by
        rw [Nat.div_lt_iff_lt_mul (by decide)]
        omega
      rw [hptr, if_neg (fun hp => hnull (Or.inl hp)), V2P_ptr_add (by unfold PGSIZE at *; omega)]
      generalize a / PGSIZE = d at *
      refine ⟨by omega, hrun.2 _ (by omega) (by omega), ?_⟩
      rw [← Pmm.Bitmap.mem_taken, hbm, Pmm.setRun_taken]
      apply Or.inr
      rw [Set.mem_Ico]
      omega

theorem kalloc_provides_10000 : oneTaken.Provides 10000 0 :=
  (kalloc_provides_iff 0 (by decide) (by decide)).mpr ⟨⟨1, by decide⟩, Or.inl (by decide)⟩

theorem not_kalloc_provides :
    (oneTaken.kalloc (2 ^ 64 - 1) 0).map Prod.fst = some 0xffff800000002000 ∧
      ¬oneTaken.Provides (2 ^ 64 - 1) 0 := by
  have hk : oneTaken.kalloc (2 ^ 64 - 1) 0 = some (0xffff800000002000, _) := rfl
  refine ⟨rfl, ?_⟩
  rintro ⟨ptr, heap', hk', hptr⟩
  rw [hk, Option.some.injEq, Prod.mk.injEq] at hk'
  rcases hk' with ⟨rfl, rfl⟩
  cases hptr with
  | inl hnull => exact absurd hnull (by decide)
  | inr hreserves =>
    have hset := (hreserves 0 (by decide)).2.2
    exact absurd hset (by decide)

end Heap
end Slab
end Franklin
