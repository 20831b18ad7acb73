import Franklin.Slab.Lemmas.Newslab
import Mathlib.Data.List.Basic

/-!
This module contains the invariant of the heap: every page has one owner, and the words that the
allocator itself reads are never part of an allocation.
-/

namespace Franklin
namespace Slab

/--
Who a page belongs to: a slab with blocks of `size` bytes that has handed out its first `handed`
blocks, or a large allocation of `count` pages behind the metadata page `first`.
-/
inductive Owner where
  | none
  | slab (size handed : Nat)
  | large (first count : Nat)
  deriving DecidableEq

/--
The free list runs through the blocks from `handed` on. Nothing is known about the link of the last
one, so the list must either be empty or stop before it.
-/
structure SlabOk (st : Slabber) (page blksize handed : Nat) : Prop where
  size_eq : st.size (pageAddr page) = blksize
  refcount_eq : st.refcount (pageAddr page) = handed
  size_ge : 8 ≤ blksize
  in_page : ∀ j, j < handed → sizeofSlab + j * blksize < PGSIZE
  free : st.freelist (pageAddr page) = 0 ∨
    st.freelist (pageAddr page) = pageAddr page + sizeofSlab + handed * blksize ∧
    sizeofSlab + handed * blksize < PGSIZE ∧
    ∀ j, handed ≤ j → sizeofSlab + j * blksize + blksize < PGSIZE →
      st.mem (pageAddr page + sizeofSlab + j * blksize)
        = pageAddr page + sizeofSlab + j * blksize + blksize

structure Inv (st : Slabber) (own : Nat → Owner) (slabs : List Nat) : Prop where
  chain : SList st.mem st.slabs (slabs.map pageAddr)
  mem_slabs : ∀ page, page ∈ slabs ↔ ∃ s k, own page = .slab s k
  inUse : ∀ page, own page ≠ .none → st.inUse page = true
  bound : ∀ page, own page ≠ .none → (page + 1) * PGSIZE < 2 ^ 47
  slab : ∀ page s k, own page = .slab s k → SlabOk st page s k
  large : ∀ page f c, own page = .large f c →
    st.mem (pageAddr f) = c ∧ f ≤ page ∧ page ≤ f + c ∧ ∀ i, i ≤ c → own (f + i) = .large f c

/--
The words that `kalloc` and `kfree` read: the header and the free blocks of a slab, and the page count
of a large allocation.
-/
def Guarded (own : Nat → Owner) (a : Nat) : Prop :=
  (∃ page s k, own page = .slab s k ∧ pageAddr page ≤ a ∧ a < pageAddr page + PGSIZE ∧
    (a < pageAddr page + sizeofSlab ∨ pageAddr page + sizeofSlab + k * s ≤ a)) ∨
  ∃ page c, own page = .large page c ∧ a = pageAddr page

theorem SlabOk.congr {st st' : Slabber} {page s k : Nat} (h : SlabOk st page s k)
    (hmem : ∀ a, pageAddr page ≤ a → a < pageAddr page + PGSIZE →
      (a < pageAddr page + sizeofSlab ∨ pageAddr page + sizeofSlab + k * s ≤ a) →
      st'.mem a = st.mem a)
    : SlabOk st' page s k := by
  have hheader : ∀ d, d < sizeofSlab → st'.mem (pageAddr page + d) = st.mem (pageAddr page + d) := by
    intro d hd
    unfold sizeofSlab at hd
    apply hmem
    . omega
    . unfold PGSIZE
      omega
    . unfold sizeofSlab
      omega
  constructor
  case size_eq =>
    rw [← h.size_eq]
    apply hheader 8 (by decide)
  case refcount_eq =>
    rw [← h.refcount_eq]
    apply hheader 16 (by decide)
  case size_ge => apply h.size_ge
  case in_page => apply h.in_page
  case free =>
    have hfree : st'.freelist (pageAddr page) = st.freelist (pageAddr page) :=
      hheader 32 (by decide)
    rw [hfree]
    cases h.free with
    | inl hnull => exact Or.inl hnull
    | inr hchain =>
      rcases hchain with ⟨hfirst, hlt, hlink⟩
      refine Or.inr ⟨hfirst, hlt, ?_⟩
      intro j hj1 hj2
      have hle : k * s ≤ j * s := Nat.mul_le_mul_right s hj1
      rw [hmem, hlink j hj1 hj2] <;> omega

theorem Inv.congr {st st' : Slabber} {own : Nat → Owner} {slabs : List Nat} (h : Inv st own slabs)
    (hmem : ∀ a, Guarded own a → st'.mem a = st.mem a) (hslabs : st'.slabs = st.slabs)
    (hinUse : ∀ page, st.inUse page = true → st'.inUse page = true) : Inv st' own slabs := by
  constructor
  case chain =>
    rw [hslabs]
    apply h.chain.congr
    intro q hq
    rcases List.mem_map.mp hq with ⟨page, hpage, rfl⟩
    rcases (h.mem_slabs page).mp hpage with ⟨s, k, hown⟩
    apply hmem
    refine Or.inl ⟨page, s, k, hown, Nat.le_refl _, ?_, Or.inl ?_⟩
    . unfold PGSIZE
      omega
    . unfold sizeofSlab
      omega
  case mem_slabs => apply h.mem_slabs
  case inUse =>
    intro page hpage
    apply hinUse
    apply h.inUse page hpage
  case bound => apply h.bound
  case slab =>
    intro page s k hown
    apply (h.slab page s k hown).congr
    intro a ha1 ha2 ha3
    apply hmem
    exact Or.inl ⟨page, s, k, hown, ha1, ha2, ha3⟩
  case large =>
    intro page f c hown
    rcases h.large page f c hown with ⟨hcount, hle, hge, hall⟩
    refine ⟨?_, hle, hge, hall⟩
    rw [← hcount]
    apply hmem
    exact Or.inr ⟨f, c, hall 0 (by omega), rfl⟩

theorem Inv.boot (mem : Nat → Nat) (inUse : Nat → Bool)
    : Inv (Sys.boot mem inUse).st (fun _ => .none) [] := by
  constructor
  case chain => apply SList.nil
  all_goals simp

section Allocblock

variable {st : Slabber} {own : Nat → Owner} {slabs : List Nat} {page s k : Nat}

theorem Inv.freelist_eq (h : Inv st own slabs) (hown : own page = .slab s k)
    (hfree : st.freelist (pageAddr page) ≠ 0)
    : st.freelist (pageAddr page) = pageAddr page + sizeofSlab + k * s ∧
        sizeofSlab + k * s < PGSIZE := by
  cases (h.slab page s k hown).free with
  | inl hnull => contradiction
  | inr hchain => exact ⟨hchain.1, hchain.2.1⟩

theorem Inv.allocblock_frame (h : Inv st own slabs) (hown : own page = .slab s k)
    (hfree : st.freelist (pageAddr page) ≠ 0) {a : Nat} (h16 : a ≠ pageAddr page + 16)
    (h32 : a ≠ pageAddr page + 32)
    : (allocblock st (pageAddr page)).2.mem a = st.mem a := by
  rw [allocblock_mem]
  . rw [Function.update_of_ne h32, Function.update_of_ne h16]
  . rw [(h.freelist_eq hown hfree).1]
    unfold sizeofSlab
    omega

theorem SlabOk.after_allocblock (h : SlabOk st page s k) (hinv : Inv st own slabs)
    (hown : own page = .slab s k) (hfree : st.freelist (pageAddr page) ≠ 0)
    (hlast : sizeofSlab + k * s + s < PGSIZE ∨ st.mem (st.freelist (pageAddr page)) = 0)
    : SlabOk (allocblock st (pageAddr page)).2 page s (k + 1) := by
  rcases hinv.freelist_eq hown hfree with ⟨hfirst, hlt⟩
  have hmem : (allocblock st (pageAddr page)).2.mem = _ := allocblock_mem (by
    rw [hfirst]
    unfold sizeofSlab
    omega)
  have hframe : ∀ a, a ≠ pageAddr page + 16 → a ≠ pageAddr page + 32 →
      (allocblock st (pageAddr page)).2.mem a = st.mem a := fun a h16 h32 =>
    hinv.allocblock_frame hown hfree h16 h32
  have hk : k < 4096 := by
    have := Nat.le_mul_of_pos_right k (show 0 < s by have := h.size_ge; omega)
    unfold PGSIZE at hlt
    omega
  constructor
  case size_eq =>
    rw [← h.size_eq]
    apply hframe <;> omega
  case refcount_eq =>
    unfold Slabber.refcount
    rw [hmem, Function.update_of_ne (by omega), Function.update_self, h.refcount_eq]
    omega
  case size_ge => apply h.size_ge
  case in_page =>
    intro j hj
    cases Nat.lt_or_eq_of_le (Nat.le_of_lt_succ hj) with
    | inl hlt => apply h.in_page j hlt
    | inr heq =>
      rw [heq]
      apply hlt
  case free =>
    have hnew : (allocblock st (pageAddr page)).2.freelist (pageAddr page)
        = st.mem (st.freelist (pageAddr page)) := by
      unfold Slabber.freelist
      rw [hmem, Function.update_self]
      rfl
    rw [hnew]
    cases hlast with
    | inr hnull => exact Or.inl hnull
    | inl hnotlast =>
      cases h.free with
      | inl hnull => contradiction
      | inr hchain =>
        have hsucc : (k + 1) * s = k * s + s := Nat.succ_mul k s
        refine Or.inr ⟨?_, ?_, ?_⟩
        . rw [hfirst, hchain.2.2 k (Nat.le_refl k) hnotlast, hsucc]
          omega
        . omega
        . intro j hj1 hj2
          rw [hframe]
          . apply hchain.2.2 j (by omega) hj2
          all_goals
            unfold sizeofSlab
            omega

theorem Inv.after_allocblock (h : Inv st own slabs) (hown : own page = .slab s k)
    (hfree : st.freelist (pageAddr page) ≠ 0)
    (hlast : sizeofSlab + k * s + s < PGSIZE ∨ st.mem (st.freelist (pageAddr page)) = 0)
    : Inv (allocblock st (pageAddr page)).2 (Function.update own page (.slab s (k + 1))) slabs := by
  have hframe : ∀ a, a ≠ pageAddr page + 16 → a ≠ pageAddr page + 32 →
      (allocblock st (pageAddr page)).2.mem a = st.mem a := fun a h16 h32 =>
    h.allocblock_frame hown hfree h16 h32
  have hframe' : ∀ page', (allocblock st (pageAddr page)).2.mem (pageAddr page')
      = st.mem (pageAddr page') := by
    intro page'
    apply hframe
    all_goals
      rw [pageAddr_eq, pageAddr_eq]
      omega
  constructor
  case chain =>
    apply SList.congr h.chain
    intro q hq
    rcases List.mem_map.mp hq with ⟨page', _, rfl⟩
    apply hframe'
  case mem_slabs =>
    intro page'
    rw [h.mem_slabs]
    by_cases heq : page' = page
    . subst heq
      simp [hown]
    . rw [Function.update_of_ne heq]
  case inUse =>
    intro page' hpage'
    apply h.inUse
    by_cases heq : page' = page
    . subst heq
      simp [hown]
    . rwa [Function.update_of_ne heq] at hpage'
  case bound =>
    intro page' hpage'
    apply h.bound
    by_cases heq : page' = page
    . subst heq
      simp [hown]
    . rwa [Function.update_of_ne heq] at hpage'
  case slab =>
    intro page' s' k' hown'
    by_cases heq : page' = page
    . subst heq
      rw [Function.update_self, Owner.slab.injEq] at hown'
      rw [← hown'.1, ← hown'.2]
      apply (h.slab page' s k hown).after_allocblock h hown hfree hlast
    . rw [Function.update_of_ne heq] at hown'
      apply (h.slab page' s' k' hown').congr
      intro a ha1 ha2 _
      apply hframe
      all_goals
        intro ha
        apply heq
        apply eq_of_mem_page ha1 ha2
        . omega
        . unfold PGSIZE
          omega
  case large =>
    intro page' f c hown'
    have hne : page' ≠ page := by
      intro heq
      subst heq
      simp at hown'
    rw [Function.update_of_ne hne] at hown'
    rcases h.large page' f c hown' with ⟨hcount, hle, hge, hall⟩
    refine ⟨?_, hle, hge, ?_⟩
    . rw [hframe', hcount]
    . intro i hi
      rw [Function.update_of_ne]
      . apply hall i hi
      . intro heq
        rw [← heq, hall i hi] at hown
        cases hown

end Allocblock

section Newslab

variable {st : Slabber} {own : Nat → Owner} {slabs : List Nat} {pg : Pages}

theorem Pages.Fresh.P2V_eq {n : Nat} (hpg : pg.Fresh st n)
    : P2V pg.paddr = pageAddr (pg.paddr / PGSIZE) := by
  apply P2V_eq_pageAddr hpg.aligned
  have := hpg.bound
  omega

theorem Inv.own_eq_none {n : Nat} (h : Inv st own slabs) (hpg : pg.Fresh st n) {page : Nat}
    (h1 : pg.paddr / PGSIZE ≤ page) (h2 : page < pg.paddr / PGSIZE + n) : own page = .none := by
  by_contra hne
  have hused := h.inUse page hne
  rw [hpg.unused page h1 h2] at hused
  contradiction

theorem Inv.after_newslab {s : Nat} (h : Inv st own slabs) (hpg : pg.Fresh st 1) (hs : 8 ≤ s)
    : Inv (newslab st s pg).2 (Function.update own (pg.paddr / PGSIZE) (.slab s 0))
        (pg.paddr / PGSIZE :: slabs) := by
  have hspec : newslab.Spec st s (P2V pg.paddr) pg.contents (newslab st s pg).2 :=
    newslab_spec (by omega)
  rw [hpg.P2V_eq] at hspec
  have hfresh : own (pg.paddr / PGSIZE) = .none := h.own_eq_none hpg (Nat.le_refl _) (by omega)
  have hbound := hpg.bound
  have halign := hpg.aligned
  have hinUse := newslab_inUse st s pg
  generalize (newslab st s pg).2 = st' at *
  generalize hpage : pg.paddr / PGSIZE = page at *
  have hframe : ∀ page' a, page' ≠ page → pageAddr page' ≤ a → a < pageAddr page' + PGSIZE →
      st'.mem a = st.mem a := by
    intro page' a hne ha1 ha2
    apply hspec.frame
    by_contra hin
    apply hne
    apply eq_of_mem_page ha1 ha2 <;> omega
  have hne : ∀ page', own page' ≠ .none → page' ≠ page := by
    intro page' hown heq
    rw [heq] at hown
    contradiction
  constructor
  case chain =>
    rw [hspec.slabs, List.map_cons]
    apply SList.cons
    . rw [pageAddr_eq]
      omega
    . rw [hspec.next]
      apply SList.congr h.chain
      intro q hq
      rcases List.mem_map.mp hq with ⟨page', hpage', rfl⟩
      rcases (h.mem_slabs page').mp hpage' with ⟨s', k', hown'⟩
      apply hframe page'
      . apply hne
        simp [hown']
      . omega
      . unfold PGSIZE
        omega
  case mem_slabs =>
    intro page'
    rw [List.mem_cons, h.mem_slabs]
    by_cases heq : page' = page
    . simp [heq]
    . rw [Function.update_of_ne heq]
      simp [heq]
  case inUse =>
    intro page' hpage'
    rw [hinUse]
    unfold palloc
    by_cases heq : page' = page
    . simp [heq, hpage]
    . rw [Function.update_of_ne heq] at hpage'
      simp [h.inUse page' hpage']
  case bound =>
    intro page' hpage'
    by_cases heq : page' = page
    . unfold PGSIZE at *
      omega
    . rw [Function.update_of_ne heq] at hpage'
      apply h.bound page' hpage'
  case slab =>
    intro page' s' k' hown'
    by_cases heq : page' = page
    . subst heq
      rw [Function.update_self, Owner.slab.injEq] at hown'
      rcases hown' with ⟨rfl, rfl⟩
      constructor
      case size_eq => apply hspec.size
      case refcount_eq => apply hspec.refcount
      case size_ge => apply hs
      case in_page =>
        intro j hj
        omega
      case free =>
        refine Or.inr ⟨?_, ?_, ?_⟩
        . rw [hspec.freelist]
          omega
        . unfold sizeofSlab PGSIZE
          omega
        . intro j _ hj
          apply hspec.link j hj
    . rw [Function.update_of_ne heq] at hown'
      apply (h.slab page' s' k' hown').congr
      intro a ha1 ha2 _
      apply hframe page' a heq ha1 ha2
  case large =>
    intro page' f c hown'
    have hne' : page' ≠ page := by
      intro heq
      subst heq
      simp at hown'
    rw [Function.update_of_ne hne'] at hown'
    rcases h.large page' f c hown' with ⟨hcount, hle, hge, hall⟩
    refine ⟨?_, hle, hge, ?_⟩
    . rw [hframe f, hcount]
      . apply hne
        rw [show f = f + 0 by rfl, hall 0 (by omega)]
        simp
      . omega
      . unfold PGSIZE
        omega
    . intro i hi
      rw [Function.update_of_ne]
      . apply hall i hi
      . apply hne
        rw [hall i hi]
        simp

end Newslab

end Slab
end Franklin
