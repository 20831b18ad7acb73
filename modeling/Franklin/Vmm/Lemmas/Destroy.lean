import Franklin.Pmm.Lemmas.Bitmap
import Franklin.Vmm.Lemmas.Mappages
import Franklin.Vmm.Lemmas.Newvm

/-!
This module contains the pages that `destroyvm` frees: the top level, and every table and page that is reached
through its lower half.
-/

open Radix

namespace Franklin
namespace Vmm

def pageOf (t : Addr) : Nat :=
  (V2P t).toNat / PGSIZE

def nextNonNull (value : BitVec 64) : Option Addr :=
  match next value with
  | some t => if t = 0#64 then none else some t
  | none => none

theorem nextNonNull_eq_some_iff {value : BitVec 64} {t : Addr}
    : nextNonNull value = some t ↔ next value = some t ∧ t ≠ 0#64 := by
  unfold nextNonNull
  cases next value with
  | none => simp
  | some s =>
    dsimp only
    split
    . next hnull =>
      simp only [reduceCtorEq, Option.some.injEq, false_iff, not_and, not_not]
      rintro rfl
      exact hnull
    . next hne =>
      simp only [Option.some.injEq, iff_self_and]
      rintro rfl
      exact hne

/--
The pages that are reached from `pml` in at most `level` steps, the first of which is an index in `start`..`stop`.
-/
def Reached (mem : Mem) (pml : Addr) (start stop level : Nat) : Set Nat :=
  {p | ∃ path t, path.length ≤ level ∧
    (∀ i : BitVec 9, path.head? = some i → start ≤ i.toNat ∧ i.toNat < stop) ∧
    follow nextNonNull mem pml path = some t ∧ p = pageOf t}

theorem foldl_taken {f : Pmm.Bitmap → Nat → Pmm.Bitmap} {freed : Nat → Set Nat}
    (h : ∀ bm i, (f bm i).taken = bm.taken \ freed i) (l : List Nat) (bm : Pmm.Bitmap)
    : (l.foldl f bm).taken = bm.taken \ {p | ∃ i ∈ l, p ∈ freed i} := by
  induction l generalizing bm with
  | nil => simp
  | cons i l ih =>
    rw [List.foldl_cons, ih, h]
    ext p
    simp only [Set.mem_sdiff, Set.mem_ofPred_eq, List.mem_cons, exists_eq_or_imp, not_or, and_assoc]

theorem freepg_taken (bm : Pmm.Bitmap) (t : Addr)
    : (Pmm.freepg bm (V2P t).toNat 1).taken = bm.taken \ {pageOf t} := by
  unfold Pmm.freepg
  rw [Pmm.resetRun_taken]
  ext p
  simp only [Set.mem_sdiff, Set.mem_Ico, Set.mem_singleton_iff, pageOf]
  apply and_congr_right
  omega

theorem get_next_level_false (vm : Vm) (pml : Addr) (i : BitVec 9)
    : get_next_level vm pml i false = some (next (vm.mem pml i), vm) := by
  unfold get_next_level next
  split
  . rfl
  . rfl

theorem reached_zero (mem : Mem) (pml : Addr) (start stop : Nat)
    : Reached mem pml start stop 0 = {pageOf pml} := by
  ext p
  constructor
  . rintro ⟨path, t, hlength, _, hfollow, rfl⟩
    obtain rfl := List.length_eq_zero_iff.mp (Nat.le_zero.mp hlength)
    cases hfollow
    rfl
  . rintro rfl
    exact ⟨[], pml, Nat.le_refl 0, by simp, rfl, rfl⟩

theorem mem_reached_succ {mem : Mem} {pml : Addr} {start stop level p : Nat}
    : p ∈ Reached mem pml start stop (level + 1) ↔ p = pageOf pml ∨
        ∃ i : BitVec 9, (start ≤ i.toNat ∧ i.toNat < stop) ∧
          ∃ t, nextNonNull (mem pml i) = some t ∧ p ∈ Reached mem t 0 512 level := by
  constructor
  . rintro ⟨path, t, hlength, hhead, hfollow, rfl⟩
    cases path with
    | nil =>
      cases hfollow
      exact Or.inl rfl
    | cons i path =>
      right
      refine ⟨i, hhead i rfl, ?_⟩
      simp only [follow] at hfollow
      split at hfollow
      . contradiction
      . next s hs =>
        refine ⟨s, hs, path, t, ?_, ?_, hfollow, rfl⟩
        . simpa using hlength
        . intro j _
          exact ⟨Nat.zero_le _, j.isLt⟩
  . rintro (rfl | ⟨i, hi, s, hs, path, t, hlength, _, hfollow, rfl⟩)
    . exact ⟨[], pml, Nat.zero_le _, by simp, rfl, rfl⟩
    . refine ⟨i :: path, t, ?_, ?_, ?_, rfl⟩
      . simpa using hlength
      . intro j hj
        cases hj
        exact hi
      . simp only [follow, hs]
        exact hfollow

theorem destroy_level_taken (vm : Vm) (bm : Pmm.Bitmap) (pml : Addr) {start stop level : Nat}
    (hstop : stop ≤ 512)
    : (destroy_level vm bm pml start stop level).taken = bm.taken \ Reached vm.mem pml start stop level := by
  induction level generalizing bm pml start stop with
  | zero =>
    unfold destroy_level
    rw [freepg_taken, reached_zero]
  | succ level ih =>
    unfold destroy_level
    dsimp only
    rw [freepg_taken, @foldl_taken _ (fun i => {p | ∃ t, nextNonNull (vm.mem pml (BitVec.ofNat 9 i)) = some t ∧
      p ∈ Reached vm.mem t 0 512 level})]
    . ext p
      rw [Set.mem_sdiff, Set.mem_sdiff, Set.mem_sdiff, mem_reached_succ, and_assoc]
      apply and_congr_right
      intro _
      rw [← not_or, or_comm]
      apply not_congr
      apply or_congr Iff.rfl
      constructor
      . rintro ⟨i, hi, hreached⟩
        have hi := List.mem_range'_1.mp hi
        refine ⟨BitVec.ofNat 9 i, ?_, hreached⟩
        rw [BitVec.toNat_ofNat, Nat.mod_eq_of_lt (by omega)]
        omega
      . rintro ⟨i, hi, hreached⟩
        refine ⟨i.toNat, List.mem_range'_1.mpr (by omega), ?_⟩
        rw [BitVec.ofNat_toNat, BitVec.setWidth_eq]
        exact hreached
    . intro bm i
      rw [get_next_level_false]
      unfold nextNonNull
      cases hnext : next (vm.mem pml (BitVec.ofNat 9 i)) with
      | none => simp
      | some t =>
        dsimp only
        split
        . simp
        . rw [ih bm t (Nat.le_refl 512)]
          simp

def Owned (mem : Mem) (top_level : Addr) (p : Nat) : Prop :=
  p = pageOf top_level ∨
    (∃ path t, path ≠ [] ∧ path.length ≤ 3 ∧ LowerPath path ∧
      follow next mem top_level path = some t ∧ p = pageOf t) ∨
    ∃ vaddr, (index vaddr 39).toNat < 256 ∧ walk mem top_level vaddr &&& PTE_PRESENT ≠ 0#64 ∧
      p = (PTE_GET_ADDR (walk mem top_level vaddr)).toNat / PGSIZE

structure Destroys (vm : Vm) (top_level : Addr) : Prop where
  bits : ∀ bm p, Pmm.bitmap_test (destroyvm vm bm top_level) p = true ↔
    Pmm.bitmap_test bm p = true ∧ ¬Owned vm.mem top_level p
  upper : ∀ bm path t, path ≠ [] → path.length ≤ 4 →
    (∀ i : BitVec 9, path.head? = some i → 256 ≤ i.toNat) →
    follow next vm.mem top_level path = some t → ¬Owned vm.mem top_level (pageOf t) →
    Pmm.bitmap_test (destroyvm vm bm top_level) (pageOf t) = Pmm.bitmap_test bm (pageOf t)

def NoNull (mem : Mem) (top_level : Addr) : Prop :=
  ∀ path, path ≠ [] → path.length ≤ 4 → LowerPath path → follow next mem top_level path ≠ some 0#64

theorem pageOf_P2V (a : Addr) : pageOf (P2V a) = a.toNat / PGSIZE := by
  unfold pageOf V2P P2V
  rw [BitVec.add_sub_cancel]

theorem owned_iff {mem : Mem} {top_level : Addr} {p : Nat}
    : Owned mem top_level p ↔ ∃ path t, path.length ≤ 4 ∧ LowerPath path ∧
        follow next mem top_level path = some t ∧ p = pageOf t := by
  constructor
  . rintro (rfl | ⟨path, t, _, hlength, hlower, hfollow, rfl⟩ | ⟨vaddr, hvaddr, hpresent, rfl⟩)
    . exact ⟨[], top_level, by simp, by simp [LowerPath], rfl, rfl⟩
    . exact ⟨path, t, by omega, hlower, hfollow, rfl⟩
    . refine ⟨levels vaddr ++ [index vaddr 12], P2V (PTE_GET_ADDR (walk mem top_level vaddr)), by simp [levels],
        lowerPath_levels hvaddr _, ?_, by rw [pageOf_P2V]⟩
      rw [follow_concat_eq_some_iff]
      unfold walk leaf at hpresent ⊢
      cases hfollow : follow next mem top_level (levels vaddr) with
      | none =>
        rw [hfollow] at hpresent
        exact absurd BitVec.zero_and hpresent
      | some t =>
        rw [hfollow] at hpresent
        refine ⟨t, rfl, ?_⟩
        unfold next
        rw [if_pos hpresent]
  . rintro ⟨path, t, hlength, hlower, hfollow, rfl⟩
    by_cases hnil : path = []
    . subst hnil
      cases hfollow
      exact Or.inl rfl
    . right
      by_cases h3 : path.length ≤ 3
      . exact Or.inl ⟨path, t, hnil, h3, hlower, hfollow, rfl⟩
      . right
        -- The last index leads to an entry for a page.
        obtain ⟨front, i, rfl⟩ := (List.eq_nil_or_concat' path).resolve_left hnil
        simp only [List.length_append, List.length_singleton] at hlength h3
        obtain ⟨a, b, c, habc⟩ := List.length_eq_three.mp (show front.length = 3 by omega)
        obtain ⟨vaddr, hlevels, hindex⟩ := exists_vaddr a b c i
        rw [← habc] at hlevels
        obtain ⟨s, hs, hnext⟩ := (follow_concat_eq_some_iff next).mp hfollow
        have hwalk : walk mem top_level vaddr = mem s i := by
          unfold walk leaf
          rw [hlevels, hindex, hs]
        unfold next at hnext
        split at hnext
        . next hpresent =>
          refine ⟨vaddr, ?_, ?_, ?_⟩
          . have hhead : (levels vaddr ++ [i]).head? = some (index vaddr 39) := rfl
            rw [hlevels] at hhead
            exact hlower _ hhead
          . rwa [hwalk]
          . rw [hwalk, ← Option.some.inj hnext, pageOf_P2V]
        . contradiction

theorem eq_of_page_eq {a b : Addr} (ha : PTE_GET_ADDR a = a) (hb : PTE_GET_ADDR b = b)
    (h : a.toNat / PGSIZE = b.toNat / PGSIZE) : a = b := by
  have hshift : a >>> 12 = b >>> 12 := by
    apply BitVec.eq_of_toNat_eq
    rw [BitVec.toNat_ushiftRight, BitVec.toNat_ushiftRight, Nat.shiftRight_eq_div_pow, Nat.shiftRight_eq_div_pow]
    exact h
  apply BitVec.eq_of_getLsbD_eq
  intro k hk
  by_cases hlow : k < 12
  . have hmask : PTE_ADDR_MASK.getLsbD k = false := by
      revert hlow k
      decide
    rw [getLsbD_of_page ha hmask, getLsbD_of_page hb hmask]
  . have hbit := congrArg (fun v => v.getLsbD (k - 12)) hshift
    simp only [BitVec.getLsbD_ushiftRight] at hbit
    rwa [Nat.add_sub_cancel' (Nat.le_of_not_lt hlow)] at hbit

theorem follow_of_nextNonNull {mem : Mem} {t t' : Addr} {path : List (BitVec 9)}
    (h : follow nextNonNull mem t path = some t') : follow next mem t path = some t' := by
  induction path using List.reverseRecOn generalizing t' with
  | nil => exact h
  | append_singleton path i ih =>
    obtain ⟨s, hs, hnext⟩ := (follow_concat_eq_some_iff nextNonNull).mp h
    exact (follow_concat_eq_some_iff next).mpr ⟨s, ih hs, (nextNonNull_eq_some_iff.mp hnext).1⟩

theorem follow_nextNonNull {mem : Mem} {t t' : Addr} {path : List (BitVec 9)}
    (h : ∀ front rest, path = front ++ rest → front ≠ [] → follow next mem t front ≠ some 0#64)
    (hfollow : follow next mem t path = some t') : follow nextNonNull mem t path = some t' := by
  induction path using List.reverseRecOn generalizing t' with
  | nil => exact hfollow
  | append_singleton path i ih =>
    obtain ⟨s, hs, hnext⟩ := (follow_concat_eq_some_iff next).mp hfollow
    rw [follow_concat_eq_some_iff]
    refine ⟨s, ih ?_ hs, nextNonNull_eq_some_iff.mpr ⟨hnext, ?_⟩⟩
    . intro front rest heq hne
      apply h front (rest ++ [i]) _ hne
      rw [heq, List.append_assoc]
    . rintro rfl
      exact h (path ++ [i]) [] (by simp) (by simp) hfollow

theorem bitmap_test_destroyvm (vm : Vm) (bm : Pmm.Bitmap) (top_level : Addr) (p : Nat)
    : Pmm.bitmap_test (destroyvm vm bm top_level) p = true ↔
        Pmm.bitmap_test bm p = true ∧ ¬∃ path t, path.length ≤ 4 ∧ LowerPath path ∧
          follow nextNonNull vm.mem top_level path = some t ∧ p = pageOf t := by
  have htaken : p ∈ (destroyvm vm bm top_level).taken ↔
      p ∈ bm.taken ∧ p ∉ Reached vm.mem top_level 0 256 4 := by
    unfold destroyvm
    rw [destroy_level_taken vm bm top_level (by decide), Set.mem_sdiff]
  rw [Pmm.Bitmap.mem_taken, Pmm.Bitmap.mem_taken] at htaken
  rw [htaken]
  apply and_congr_right
  intro _
  apply not_congr
  unfold Reached LowerPath
  simp

theorem Destroys.of_reached {vm : Vm} {top_level : Addr}
    (h : ∀ p, Owned vm.mem top_level p → ∃ path t, path.length ≤ 4 ∧ LowerPath path ∧
      follow nextNonNull vm.mem top_level path = some t ∧ p = pageOf t) : Destroys vm top_level := by
  have hbits : ∀ bm p, Pmm.bitmap_test (destroyvm vm bm top_level) p = true ↔
      Pmm.bitmap_test bm p = true ∧ ¬Owned vm.mem top_level p := by
    intro bm p
    rw [bitmap_test_destroyvm]
    apply and_congr_right
    intro _
    apply not_congr
    constructor
    . rintro ⟨path, t, hlength, hlower, hfollow, rfl⟩
      exact owned_iff.mpr ⟨path, t, hlength, hlower, follow_of_nextNonNull hfollow, rfl⟩
    . apply h
  refine ⟨hbits, ?_⟩
  intro bm path t _ _ _ _ hother
  rw [Bool.eq_iff_iff, hbits]
  exact and_iff_left hother

def lowerHalf (top_level : Addr) : Shape Addr (BitVec 9) :=
  tables (fun root => root = top_level) (fun i => i.toNat < 256)

theorem lowerHalf_reaches_iff {mem : Mem} {top_level t : Addr} {path : List (BitVec 9)}
    : (lowerHalf top_level).Reaches next mem path t ↔
        path.length ≤ 3 ∧ LowerPath path ∧ follow next mem top_level path = some t := by
  simp [lowerHalf, tables, Shape.Reaches, Shape.Path, LowerPath, and_assoc]

theorem LowerPath.of_append {front rest : List (BitVec 9)} (h : LowerPath (front ++ rest)) : LowerPath front := by
  intro i hi
  apply h
  rw [List.head?_append, hi]
  rfl

theorem Destroys.of_noNull {vm : Vm} {top_level : Addr} (h : NoNull vm.mem top_level) : Destroys vm top_level := by
  apply Destroys.of_reached
  intro p hp
  obtain ⟨path, t, hlength, hlower, hfollow, rfl⟩ := owned_iff.mp hp
  refine ⟨path, t, hlength, hlower, follow_nextNonNull ?_ hfollow, rfl⟩
  rintro front rest rfl hne
  rw [List.length_append] at hlength
  exact h front hne (by omega) hlower.of_append

theorem Destroys.of_null {vm : Vm} (hforest : (lowerHalf 0#64).Forest next vm.mem) : Destroys vm 0#64 := by
  apply Destroys.of_reached
  intro p hp
  obtain ⟨path, t, hlength, hlower, hfollow, rfl⟩ := owned_iff.mp hp
  by_cases ht : t = 0#64
  . subst ht
    exact ⟨[], 0#64, by simp, by simp [LowerPath], rfl, rfl⟩
  . refine ⟨path, t, hlength, hlower, follow_nextNonNull ?_ hfollow, rfl⟩
    rintro front rest rfl hne hnull
    cases rest with
    | nil =>
      rw [List.append_nil, hnull] at hfollow
      exact ht (Option.some.inj hfollow).symm
    | cons i rest =>
      rw [List.length_append, List.length_cons] at hlength
      have hreaches : (lowerHalf 0#64).Reaches next vm.mem front 0#64 :=
        lowerHalf_reaches_iff.mpr ⟨by omega, hlower.of_append, hnull⟩
      exact hne (hforest front [] 0#64 hreaches (Shape.Reaches.root rfl))

theorem Destroys.noNull {vm : Vm} {top_level : Addr} (hpage : PTE_GET_ADDR (V2P top_level) = V2P top_level)
    (htop : top_level ≠ 0#64) (h : Destroys vm top_level) : NoNull vm.mem top_level := by
  intro path _ hlength hlower hfollow
  have hnull : PTE_GET_ADDR (V2P 0#64) = V2P 0#64 := by decide
  have howned := owned_iff.mpr ⟨path, 0#64, hlength, hlower, hfollow, rfl⟩
  obtain ⟨bm, hset⟩ : ∃ bm, Pmm.bitmap_test bm (pageOf 0#64) = true := by
    refine ⟨Pmm.bitmap_set ⟨0, 0, fun _ => 0#8, by decide⟩ (pageOf 0#64), ?_⟩
    rw [Pmm.bitmap_test_set]
    simp
  -- The bit of the page at NULL is cleared, but no page is freed that could be this one.
  have hfreed := mt (bitmap_test_destroyvm vm bm top_level (pageOf 0#64)).mpr
    (fun htest => ((h.bits _ _).mp htest).2 howned)
  rw [not_and_not_right] at hfreed
  obtain ⟨path', t, _, _, hfollow', hpageOf⟩ := hfreed hset
  by_cases hnil : path' = []
  . subst hnil
    cases hfollow'
    have := eq_of_page_eq hnull hpage hpageOf
    unfold V2P at this
    exact htop ((BitVec.sub_left_inj _).mp this).symm
  . obtain ⟨front, i, rfl⟩ := (List.eq_nil_or_concat' path').resolve_left hnil
    obtain ⟨s, _, hnext⟩ := (follow_concat_eq_some_iff nextNonNull).mp hfollow'
    obtain ⟨hnext, hne⟩ := nextNonNull_eq_some_iff.mp hnext
    unfold next at hnext
    split at hnext
    . obtain rfl := Option.some.inj hnext
      rw [pageOf_P2V] at hpageOf
      have heq := eq_of_page_eq hnull (PTE_GET_ADDR_idem _) hpageOf
      apply hne
      rw [← heq]
      decide
    . contradiction

structure FreshLower (vm : Vm) (top_level : Addr) : Prop where
  nodup : vm.supply.Nodup
  page : ∀ page ∈ vm.supply, PTE_GET_ADDR page = page
  fresh : ∀ page ∈ vm.supply, ∀ path, ¬(lowerHalf top_level).Reaches next vm.mem path (P2V page)

/--
The page tables with a lower half that calls of `mappage2` make from zeroed entries.
-/
inductive LowerMapped (top_level : Addr) : Mem → Prop where
  | zero {mem : Mem} :
    (∀ idx : BitVec 9, idx.toNat < 256 → mem top_level idx = 0#64) → LowerMapped top_level mem
  | step {vm vm' : Vm} {vaddr paddr flags : BitVec 64} {res : Int} :
    LowerMapped top_level vm.mem → FreshLower vm top_level → (index vaddr 39).toNat < 256 →
    mappage2 vm top_level vaddr paddr flags = some (res, vm') → LowerMapped top_level vm'.mem

theorem LowerMapped.forest {mem : Mem} {top_level : Addr} (h : LowerMapped top_level mem)
    : (lowerHalf top_level).Forest next mem := by
  induction h with
  | @zero mem hzero =>
    have hnil : ∀ path t, (lowerHalf top_level).Reaches next mem path t → path = [] := by
      intro path t hreaches
      obtain ⟨_, hlower, hfollow⟩ := lowerHalf_reaches_iff.mp hreaches
      cases path with
      | nil => rfl
      | cons i path => simp [follow, hzero i (hlower i rfl)] at hfollow
    intro path path' t hpath hpath'
    rw [hnil path t hpath, hnil path' t hpath']
  | step _ hfresh hvaddr hres ih =>
    have hgood : Good (lowerHalf top_level) _ := ⟨ih, hfresh.nodup, hfresh.page, hfresh.fresh⟩
    exact (mappage2_later hgood rfl hvaddr hres).good.forest

theorem destroyvm_destroys_iff {vm : Vm} {top_level : Addr} (hpage : PTE_GET_ADDR (V2P top_level) = V2P top_level)
    (hforest : (lowerHalf top_level).Forest next vm.mem)
    : Destroys vm top_level ↔ top_level = 0#64 ∨ NoNull vm.mem top_level := by
  constructor
  . intro h
    by_cases htop : top_level = 0#64
    . exact Or.inl htop
    . exact Or.inr (h.noNull hpage htop)
  . rintro (rfl | hnull)
    . exact Destroys.of_null hforest
    . exact Destroys.of_noNull hnull

def Direct (t : Addr) : Prop :=
  (V2P t).toNat < 2 ^ 47

def RefersDirect (value : BitVec 64) : Prop :=
  ∀ t ∈ next value, Direct t

def DirectMapped (mem : Mem) (top_level : Addr) : Prop :=
  ∀ path t, path ≠ [] → path.length ≤ 4 → LowerPath path → follow next mem top_level path = some t → Direct t

theorem DirectMapped.noNull {mem : Mem} {top_level : Addr} (h : DirectMapped mem top_level)
    : NoNull mem top_level := by
  intro path hne hlength hlower hfollow
  have hnull := h path 0#64 hne hlength hlower hfollow
  unfold Direct at hnull
  rw [show (V2P 0#64).toNat = 2 ^ 47 by decide] at hnull
  exact Nat.lt_irrefl _ hnull

theorem DirectMapped.of_next {mem : Mem} {top_level : Addr}
    (h : ∀ t i, RefersDirect (mem t i)) : DirectMapped mem top_level := by
  intro path t hne _ _ hfollow
  obtain ⟨front, i, rfl⟩ := (List.eq_nil_or_concat' path).resolve_left hne
  obtain ⟨s, _, hnext⟩ := (follow_concat_eq_some_iff next).mp hfollow
  exact h s i t hnext

theorem destroyvm_destroys {vm : Vm} {top_level : Addr} (hpage : PTE_GET_ADDR (V2P top_level) = V2P top_level)
    (hmapped : LowerMapped top_level vm.mem) (hdirect : DirectMapped vm.mem top_level)
    : Destroys vm top_level :=
  (destroyvm_destroys_iff hpage hmapped.forest).mpr (Or.inr hdirect.noNull)

/--
What `mappage2` makes of a zeroed memory when it maps 0x10000 at 4 MiB.
-/
def builtMem : Mem :=
  store (store (fill (store (fill (store (fill (fun _ _ => 0#64)
    (P2V 0x2000#64) 0#64) (P2V 0x1000#64) 0#9 0x2007#64)
    (P2V 0x3000#64) 0#64) (P2V 0x2000#64) 0#9 0x3007#64)
    (P2V 0x4000#64) 0#64) (P2V 0x3000#64) 2#9 0x4007#64) (P2V 0x4000#64) 0#9 0x10005#64

theorem mappage2_builtMem :
    mappage2 ⟨fun _ _ => 0#64, [0x2000#64, 0x3000#64, 0x4000#64]⟩ (P2V 0x1000#64) 0x400000#64
      0x10000#64 (PTE_PRESENT ||| PTE_USER) = some (0, ⟨builtMem, []⟩) := rfl

theorem lowerMapped_builtMem : LowerMapped (P2V 0x1000#64) builtMem := by
  have hzero : LowerMapped (P2V 0x1000#64) (fun _ _ => 0#64) := LowerMapped.zero fun _ _ => rfl
  have hfresh : FreshLower ⟨fun _ _ => 0#64, [0x2000#64, 0x3000#64, 0x4000#64]⟩ (P2V 0x1000#64) := by
    constructor
    . decide
    . simp [PTE_GET_ADDR, PTE_ADDR_MASK]
    . intro page hpage path hreaches
      obtain ⟨_, _, hfollow⟩ := lowerHalf_reaches_iff.mp hreaches
      obtain rfl := follow_zero (fun _ => rfl) hfollow
      obtain rfl := P2V_inj (Option.some.inj hfollow)
      simp at hpage
  exact LowerMapped.step hzero hfresh (by decide) mappage2_builtMem

theorem directMapped_builtMem : DirectMapped builtMem (P2V 0x1000#64) := by
  apply DirectMapped.of_next
  have hzero : RefersDirect 0#64 := by simp [RefersDirect]
  unfold builtMem
  refine forall_store (forall_store (forall_fill (forall_store (forall_fill (forall_store (forall_fill
    (fun _ _ => hzero) hzero) ?_) hzero) ?_) hzero) ?_) ?_
  all_goals
    intro t' hnext
    cases hnext
    unfold Direct
    decide

theorem destroyvm_destroys_built :
    Destroys ⟨builtMem, []⟩ (P2V 0x1000#64) ∧ ∀ p ∈ [1, 2, 3, 4, 16], Owned builtMem (P2V 0x1000#64) p := by
  constructor
  . exact @destroyvm_destroys ⟨builtMem, []⟩ (P2V 0x1000#64) (by decide) lowerMapped_builtMem directMapped_builtMem
  . intro p hp
    rw [owned_iff]
    simp only [List.mem_cons, List.not_mem_nil, or_false] at hp
    rcases hp with rfl | rfl | rfl | rfl | rfl
    . exact ⟨[], _, by decide, by simp [LowerPath], rfl, by decide⟩
    . exact ⟨[0#9], _, by decide, by simp [LowerPath], rfl, by decide⟩
    . exact ⟨[0#9, 0#9], _, by decide, by simp [LowerPath], rfl, by decide⟩
    . exact ⟨[0#9, 0#9, 2#9], _, by decide, by simp [LowerPath], rfl, by decide⟩
    . exact ⟨[0#9, 0#9, 2#9, 0#9], _, by decide, by simp [LowerPath], rfl, by decide⟩

end Vmm
end Franklin
