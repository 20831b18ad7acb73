import Franklin.Slab.Lemmas.Kalloc

/-!
This module contains the separation of the live allocations from each other and from the data of the
allocator.
-/

namespace Franklin
namespace Slab

namespace Alloc

def Small (own : Nat → Owner) (a : Alloc) : Prop :=
  ∃ page s k j, own page = .slab s k ∧ j < k ∧ a.ptr = pageAddr page + sizeofSlab + j * s ∧
    a.size ≤ s ∧ a.size ≤ PGSIZE

def Large (own : Nat → Owner) (a : Alloc) : Prop :=
  ∃ f c, own f = .large f c ∧ a.ptr = pageAddr (f + 1) ∧ a.size ≤ c * PGSIZE ∧ PGSIZE < a.size

def Owned (own : Nat → Owner) (a : Alloc) : Prop :=
  Small own a ∨ Large own a

end Alloc

/--
Every byte of a live allocation lies behind the header of a slab, in a block that was handed out, or
behind the metadata page of a large allocation.
-/
inductive Covers (own : Nat → Owner) (a : Alloc) (x page : Nat) : Prop where
  | block (s k j : Nat) (hown : own page = .slab s k) (hj : j < k)
      (hptr : a.ptr = pageAddr page + sizeofSlab + j * s) (h1 : a.ptr ≤ x) (h2 : x < a.ptr + s)
  | page (f c : Nat) (hown : own page = .large f c) (hne : page ≠ f) (hptr : a.ptr = pageAddr (f + 1))

/--
The range of an allocation that is no larger than a page ends in the page it starts in.
-/
def Alloc.Fits (a : Alloc) : Prop :=
  a.ptr % PGSIZE ≠ 0 → a.ptr % PGSIZE + a.size ≤ PGSIZE

variable {st st' : Slabber} {own own' : Nat → Owner} {slabs : List Nat}

theorem SlabOk.block_lt {page s k j : Nat} (h : SlabOk st page s k) (hj : j < k)
    : sizeofSlab + j * s < PGSIZE ∧ j * s + s ≤ k * s := by
  refine ⟨h.in_page j hj, ?_⟩
  rw [← Nat.succ_mul]
  apply Nat.mul_le_mul_right s hj

theorem Inv.covers {a : Alloc} {x : Nat} (h : Inv st own slabs) (hown : a.Owned own) (hfits : a.Fits)
    (h1 : a.ptr ≤ x) (h2 : x < a.ptr + a.size)
    : ∃ page, pageAddr page ≤ x ∧ x < pageAddr page + PGSIZE ∧ Covers own a x page := by
  cases hown with
  | inl hsmall =>
    rcases hsmall with ⟨page, s, k, j, hown, hj, hptr, hsize, _⟩
    have hlt := ((h.slab page s k hown).block_lt hj).1
    have hmod : a.ptr % PGSIZE = sizeofSlab + j * s := by
      rw [hptr, Nat.add_assoc, pageAddr_add_mod page hlt]
    have hfits' : sizeofSlab + j * s + a.size ≤ PGSIZE := by
      rw [← hmod]
      apply hfits
      rw [hmod]
      unfold sizeofSlab
      omega
    refine ⟨page, by omega, by omega, ?_⟩
    apply Covers.block s k j hown hj hptr h1
    omega
  | inr hlarge =>
    rcases hlarge with ⟨f, c, hown, hptr, hsize, _⟩
    have hall := (h.large f f c hown).2.2.2
    have hsucc : pageAddr (f + 1) = pageAddr f + PGSIZE := by
      unfold pageAddr
      rw [Nat.succ_mul]
      omega
    rw [hptr] at h1 h2
    -- The page that `x` lies in is number `i` behind the metadata page.
    generalize hi : (x - pageAddr (f + 1)) / PGSIZE = i
    have hic : i < c := by
      rw [← hi, Nat.div_lt_iff_lt_mul (by decide)]
      omega
    have hpage : pageAddr (f + 1 + i) = pageAddr (f + 1) + i * PGSIZE := by
      unfold pageAddr
      rw [Nat.add_mul]
      omega
    have hdiv := Nat.div_add_mod (x - pageAddr (f + 1)) PGSIZE
    have hmod := Nat.mod_lt (x - pageAddr (f + 1)) (show PGSIZE > 0 by decide)
    rw [hi, Nat.mul_comm] at hdiv
    refine ⟨f + 1 + i, by omega, by omega, ?_⟩
    apply Covers.page f c ?_ (by omega) hptr
    rw [Nat.add_assoc]
    apply hall
    omega

theorem Covers.ptr_eq {a b : Alloc} {x page : Nat} (ha : Covers own a x page)
    (hb : Covers own b x page) : a.ptr = b.ptr := by
  cases ha with
  | block s k j hown hj hptr h1 h2 =>
    cases hb with
    | block s' k' j' hown' hj' hptr' h1' h2' =>
      rw [hown, Owner.slab.injEq] at hown'
      rcases hown' with ⟨rfl, rfl⟩
      have hjj : j = j' := by
        rcases Nat.lt_trichotomy j j' with hlt | heq | hgt
        . have := Nat.mul_le_mul_right s (Nat.succ_le_of_lt hlt)
          rw [Nat.succ_mul] at this
          omega
        . apply heq
        . have := Nat.mul_le_mul_right s (Nat.succ_le_of_lt hgt)
          rw [Nat.succ_mul] at this
          omega
      rw [hptr, hptr', hjj]
    | page f c hown' =>
      rw [hown] at hown'
      cases hown'
  | page f c hown hne hptr =>
    cases hb with
    | block s' k' j' hown' =>
      rw [hown] at hown'
      cases hown'
    | page f' c' hown' hne' hptr' =>
      rw [hown, Owner.large.injEq] at hown'
      rw [hptr, hptr', hown'.1]

theorem Covers.not_guarded {a : Alloc} {x page : Nat} (h : Inv st own slabs)
    (ha : Covers own a x page) (h1 : pageAddr page ≤ x) (h2 : x < pageAddr page + PGSIZE)
    : ¬Guarded own x := by
  intro hguarded
  cases hguarded with
  | inl hslab =>
    rcases hslab with ⟨page', s', k', hown', h1', h2', hfree⟩
    have heq := eq_of_mem_page h1 h2 h1' h2'
    subst heq
    cases ha with
    | block s k j hown hj hptr =>
      rw [hown, Owner.slab.injEq] at hown'
      rcases hown' with ⟨rfl, rfl⟩
      have := ((h.slab page s k hown).block_lt hj).2
      omega
    | page f c hown =>
      rw [hown] at hown'
      cases hown'
  | inr hlarge =>
    rcases hlarge with ⟨page', c', hown', heq⟩
    have hpage := eq_of_mem_page h1 h2 (show pageAddr page' ≤ x by omega) (by unfold PGSIZE; omega)
    subst hpage
    cases ha with
    | block s k j hown =>
      rw [hown] at hown'
      cases hown'
    | page f c hown hne =>
      rw [hown, Owner.large.injEq] at hown'
      apply hne
      rw [hown'.1]

theorem Inv.after_write {a : Alloc} {addr : Nat} (h : Inv st own slabs) (hown : a.Owned own)
    (hfits : a.Fits) (h1 : a.ptr ≤ addr) (h2 : addr < a.ptr + a.size) (val : Nat)
    : Inv (st.store addr val) own slabs := by
  rcases h.covers hown hfits h1 h2 with ⟨page, hp1, hp2, hcovers⟩
  apply h.congr
  . intro x hx
    simp only [Slabber.store]
    rw [Function.update_of_ne]
    intro heq
    subst heq
    apply hcovers.not_guarded h hp1 hp2 hx
  . rfl
  . intro page hused
    apply hused

structure LiveInv (own : Nat → Owner) (live : List Alloc) : Prop where
  owned : ∀ a ∈ live, a.Owned own
  distinct : live.Pairwise fun a b => a.ptr ≠ b.ptr

theorem LiveInv.erase {live : List Alloc} (h : LiveInv own live) (a : Alloc)
    : LiveInv own (live.erase a) where
  owned := by
    intro b hb
    apply h.owned
    apply List.mem_of_mem_erase hb
  distinct := List.Pairwise.sublist List.erase_sublist h.distinct

theorem LiveInv.ptr_ne_of_mem_erase {live : List Alloc} {a b : Alloc} (h : LiveInv own live)
    (ha : a ∈ live) (hb : b ∈ live.erase a) : b.ptr ≠ a.ptr := by
  have hperm := List.perm_cons_erase ha
  have hpair := (hperm.pairwise_iff (fun hne => Ne.symm hne)).mp h.distinct
  rw [List.pairwise_cons] at hpair
  apply Ne.symm
  apply hpair.1 b hb

theorem Alloc.Large.ptr_mod {a : Alloc} (h : a.Large own) : a.ptr % PGSIZE = 0 := by
  rcases h with ⟨f, c, _, hptr, _⟩
  rw [hptr]
  apply pageAddr_add_mod (f + 1) (show 0 < PGSIZE by decide)

theorem Inv.ptr_mod_of_small {a : Alloc} (h : Inv st own slabs) (ha : a.Small own)
    : a.ptr % PGSIZE ≠ 0 := by
  rcases ha with ⟨page, s, k, j, hown, hj, hptr, _⟩
  rw [hptr, Nat.add_assoc, pageAddr_add_mod page ((h.slab page s k hown).block_lt hj).1]
  unfold sizeofSlab
  omega

namespace Grows

variable {page s k ptr : Nat}

theorem ptr_mod (h : Grows own own' page s k ptr) : ptr % PGSIZE = sizeofSlab + k * s := by
  rw [h.ptr_eq, Nat.add_assoc, pageAddr_add_mod page h.in_page]

theorem ptr_ne {a : Alloc} (hinv : Inv st own slabs) (h : Grows own own' page s k ptr)
    (ha : a.Owned own) : a.ptr ≠ ptr := by
  intro heq
  cases ha with
  | inl hsmall =>
    rcases hsmall with ⟨page', s', k', j, hown, hj, hptr, _⟩
    have hok := hinv.slab page' s' k' hown
    have hlt := hok.block_lt hj
    have hptr' := h.ptr_eq
    have hin := h.in_page
    have hpage : page' = page := by
      apply @eq_of_mem_page page' page ptr <;> omega
    subst hpage
    cases h.before with
    | inl hslab =>
      rw [hown, Owner.slab.injEq] at hslab
      rcases hslab with ⟨rfl, rfl⟩
      have := hok.size_ge
      omega
    | inr hnone =>
      rw [hown] at hnone
      cases hnone.1
  | inr hlarge =>
    have hmod := hlarge.ptr_mod
    rw [heq, h.ptr_mod] at hmod
    unfold sizeofSlab at hmod
    omega

theorem owned {a : Alloc} (h : Grows own own' page s k ptr) (ha : a.Owned own) : a.Owned own' := by
  rw [h.own_eq]
  cases ha with
  | inl hsmall =>
    rcases hsmall with ⟨page', s', k', j, hown, hj, hrest⟩
    apply Or.inl
    by_cases heq : page' = page
    . subst heq
      cases h.before with
      | inl hslab =>
        rw [hown, Owner.slab.injEq] at hslab
        rcases hslab with ⟨rfl, rfl⟩
        exact ⟨page', s', k' + 1, j, Function.update_self _ _ _, by omega, hrest⟩
      | inr hnone =>
        rw [hown] at hnone
        cases hnone.1
    . refine ⟨page', s', k', j, ?_, hj, hrest⟩
      rw [Function.update_of_ne heq, hown]
  | inr hlarge =>
    rcases hlarge with ⟨f, c, hown, hrest⟩
    refine Or.inr ⟨f, c, ?_, hrest⟩
    rw [Function.update_of_ne, hown]
    intro heq
    subst heq
    cases h.before with
    | inl hslab =>
      rw [hown] at hslab
      cases hslab
    | inr hnone =>
      rw [hown] at hnone
      cases hnone.1

theorem live {size : Nat} {live : List Alloc} (hinv : Inv st own slabs)
    (h : Grows own own' page s k ptr) (hlive : LiveInv own live) (hs : size ≤ s)
    (hsize : size ≤ PGSIZE) : LiveInv own' (⟨ptr, size⟩ :: live) where
  owned := by
    intro a ha
    cases List.mem_cons.mp ha with
    | inl heq =>
      subst heq
      refine Or.inl ⟨page, s, k + 1, k, ?_, by omega, h.ptr_eq, hs, hsize⟩
      rw [h.own_eq]
      apply Function.update_self
    | inr hmem =>
      apply h.owned
      apply hlive.owned a hmem
  distinct := by
    rw [List.pairwise_cons]
    constructor
    . intro a ha
      apply Ne.symm
      apply h.ptr_ne hinv (hlive.owned a ha)
    . apply hlive.distinct

end Grows

theorem LiveInv.after_claim {f c size : Nat} {live : List Alloc} (h : LiveInv own live)
    (hinv : Inv st own slabs) (hfree : ∀ page, f ≤ page → page ≤ f + c → own page = .none)
    (hsize : PGSIZE < size) (hc : size ≤ c * PGSIZE)
    : LiveInv (claim own f c) (⟨pageAddr (f + 1), size⟩ :: live) where
  owned := by
    intro a ha
    cases List.mem_cons.mp ha with
    | inl heq =>
      subst heq
      refine Or.inr ⟨f, c, ?_, rfl, hc, hsize⟩
      apply claim_of_mem <;> omega
    | inr hmem =>
      cases h.owned a hmem with
      | inl hsmall =>
        rcases hsmall with ⟨page, s, k, j, hown, hrest⟩
        refine Or.inl ⟨page, s, k, j, ?_, hrest⟩
        rw [claim_of_own hfree, hown]
        simp [hown]
      | inr hlarge =>
        rcases hlarge with ⟨f', c', hown, hrest⟩
        refine Or.inr ⟨f', c', ?_, hrest⟩
        rw [claim_of_own hfree, hown]
        simp [hown]
  distinct := by
    rw [List.pairwise_cons]
    refine ⟨?_, h.distinct⟩
    intro a ha heq
    dsimp only at heq
    cases h.owned a ha with
    | inl hsmall =>
      apply hinv.ptr_mod_of_small hsmall
      rw [← heq]
      apply pageAddr_add_mod (f + 1) (show 0 < PGSIZE by decide)
    | inr hlarge =>
      rcases hlarge with ⟨f', c', hown, hptr, _⟩
      have hff : f' = f := by
        rw [hptr, pageAddr_eq, pageAddr_eq] at heq
        omega
      rw [hff, hfree f (by omega) (by omega)] at hown
      cases hown

theorem LiveInv.after_kfreelarge {f c : Nat} {a : Alloc} {live : List Alloc} (h : LiveInv own live)
    (ha : a ∈ live) (hptr : a.ptr = pageAddr (f + 1))
    : LiveInv (unclaim own f c) (live.erase a) where
  owned := by
    intro b hb
    have hne := h.ptr_ne_of_mem_erase ha hb
    cases h.owned b (List.mem_of_mem_erase hb) with
    | inl hsmall =>
      rcases hsmall with ⟨page, s, k, j, hown, hrest⟩
      refine Or.inl ⟨page, s, k, j, ?_, hrest⟩
      rw [unclaim_eq (by simp)]
      exact ⟨hown, by simp⟩
    | inr hlarge =>
      rcases hlarge with ⟨f', c', hown, hptr', hrest⟩
      refine Or.inr ⟨f', c', ?_, hptr', hrest⟩
      rw [unclaim_eq (by simp)]
      refine ⟨hown, ?_⟩
      intro heq
      rw [Owner.large.injEq] at heq
      apply hne
      rw [hptr, hptr', heq.1]
  distinct := (h.erase a).distinct

end Slab
end Franklin
