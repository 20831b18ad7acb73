import Franklin.Slab.Lemmas.Invariant

/-!
This module contains the allocations of more than a page.
-/

namespace Franklin
namespace Slab

variable {st : Slabber} {own : Nat → Owner} {slabs : List Nat}

theorem Guarded.exists_page {a : Nat} (h : Guarded own a)
    : ∃ page, own page ≠ .none ∧ pageAddr page ≤ a ∧ a < pageAddr page + PGSIZE := by
  cases h with
  | inl hslab =>
    rcases hslab with ⟨page, s, k, hown, h1, h2, _⟩
    refine ⟨page, ?_, h1, h2⟩
    simp [hown]
  | inr hlarge =>
    rcases hlarge with ⟨page, c, hown, heq⟩
    refine ⟨page, ?_, ?_, ?_⟩
    . simp [hown]
    . omega
    . unfold PGSIZE
      omega

theorem Inv.after_palloc {pg : Pages} {n : Nat} (h : Inv st own slabs) (hpg : pg.Fresh st n)
    : Inv (palloc st n pg) own slabs := by
  apply h.congr
  . intro a ha
    rcases ha.exists_page with ⟨page, hown, ha1, ha2⟩
    apply palloc_mem
    intro hin
    rw [hpg.P2V_eq] at hin
    have hrun := mem_run_of_mem_page hin.1 hin.2 ha1 ha2
    apply hown
    apply h.own_eq_none hpg hrun.1 hrun.2
  . apply palloc_slabs
  . intro page hused
    rw [palloc_inUse]
    apply Or.inr hused

def claim (own : Nat → Owner) (f c : Nat) : Nat → Owner :=
  fun page => if f ≤ page ∧ page ≤ f + c then .large f c else own page

theorem claim_of_mem {f c page : Nat} (h1 : f ≤ page) (h2 : page ≤ f + c)
    : claim own f c page = .large f c := by
  unfold claim
  rw [if_pos ⟨h1, h2⟩]

theorem claim_of_own {f c page : Nat} (hfree : ∀ page, f ≤ page → page ≤ f + c → own page = .none)
    (hown : own page ≠ .none) : claim own f c page = own page := by
  unfold claim
  rw [if_neg]
  intro hin
  apply hown
  apply hfree page hin.1 hin.2

theorem Inv.after_claim {f c : Nat} (h : Inv st own slabs)
    (hfree : ∀ page, f ≤ page → page ≤ f + c → own page = .none)
    (hused : ∀ page, f ≤ page → page ≤ f + c → st.inUse page = true)
    (hbound : (f + c + 1) * PGSIZE < 2 ^ 47)
    : Inv (st.store (pageAddr f) c) (claim own f c) slabs := by
  have hcases : ∀ page, (f ≤ page ∧ page ≤ f + c) ∧ claim own f c page = .large f c ∨
      claim own f c page = own page := by
    intro page
    by_cases hin : f ≤ page ∧ page ≤ f + c
    . exact Or.inl ⟨hin, claim_of_mem hin.1 hin.2⟩
    . unfold claim
      rw [if_neg hin]
      exact Or.inr rfl
  have hframe : ∀ a, a ≠ pageAddr f → (st.store (pageAddr f) c).mem a = st.mem a := by
    intro a ha
    simp only [Slabber.store]
    rw [Function.update_of_ne ha]
  have hne : ∀ page, own page ≠ .none → page ≠ f := by
    intro page hown heq
    apply hown
    apply hfree page <;> omega
  have hframe' : ∀ page, own page ≠ .none →
      (st.store (pageAddr f) c).mem (pageAddr page) = st.mem (pageAddr page) := by
    intro page hown
    have := hne page hown
    apply hframe
    rw [pageAddr_eq, pageAddr_eq]
    omega
  constructor
  case chain =>
    apply SList.congr h.chain
    intro q hq
    rcases List.mem_map.mp hq with ⟨page, hpage, rfl⟩
    rcases (h.mem_slabs page).mp hpage with ⟨s, k, hown⟩
    apply hframe'
    simp [hown]
  case mem_slabs =>
    intro page
    rw [h.mem_slabs]
    cases hcases page with
    | inl hin => simp [hin.2, hfree page hin.1.1 hin.1.2]
    | inr heq => rw [heq]
  case inUse =>
    intro page hpage
    cases hcases page with
    | inl hin => apply hused page hin.1.1 hin.1.2
    | inr heq =>
      rw [heq] at hpage
      apply h.inUse page hpage
  case bound =>
    intro page hpage
    cases hcases page with
    | inl hin =>
      have hle : (page + 1) * PGSIZE ≤ (f + c + 1) * PGSIZE := Nat.mul_le_mul_right _ (by omega)
      omega
    | inr heq =>
      rw [heq] at hpage
      apply h.bound page hpage
  case slab =>
    intro page s k hown
    cases hcases page with
    | inl hin =>
      rw [hin.2] at hown
      cases hown
    | inr heq =>
      rw [heq] at hown
      apply (h.slab page s k hown).congr
      intro a ha1 ha2 _
      apply hframe
      intro ha
      apply hne page
      . simp [hown]
      . apply eq_of_mem_page ha1 ha2
        . omega
        . unfold PGSIZE
          omega
  case large =>
    intro page f' c' hown
    cases hcases page with
    | inl hin =>
      rw [hin.2, Owner.large.injEq] at hown
      rcases hown with ⟨rfl, rfl⟩
      refine ⟨?_, hin.1.1, hin.1.2, ?_⟩
      . simp only [Slabber.store]
        rw [Function.update_self]
      . intro i hi
        apply claim_of_mem <;> omega
    | inr heq =>
      rw [heq] at hown
      rcases h.large page f' c' hown with ⟨hcount, hle, hge, hall⟩
      refine ⟨?_, hle, hge, ?_⟩
      . rw [hframe' f', hcount]
        rw [← Nat.add_zero f', hall 0 (by omega)]
        simp
      . intro i hi
        rw [claim_of_own hfree, hall i hi]
        rw [hall i hi]
        simp

def unclaim (own : Nat → Owner) (f c : Nat) : Nat → Owner :=
  fun page => if own page = .large f c then .none else own page

theorem unclaim_eq {f c page : Nat} {o : Owner} (ho : o ≠ .none)
    : unclaim own f c page = o ↔ own page = o ∧ o ≠ .large f c := by
  unfold unclaim
  split
  . next heq =>
    constructor
    . intro h
      exact absurd h.symm ho
    . intro h
      rw [heq] at h
      exact absurd h.1.symm h.2
  . next hne =>
    constructor
    . intro h
      refine ⟨h, ?_⟩
      rw [← h]
      apply hne
    . intro h
      apply h.1

theorem own_of_unclaim {f c page : Nat} (h : unclaim own f c page ≠ .none)
    : own page ≠ .none ∧ own page ≠ .large f c := by
  have := (unclaim_eq h).mp rfl
  rw [this.1]
  exact ⟨h, this.2⟩

theorem Inv.after_kfreelarge {f c : Nat} (h : Inv st own slabs) (hown : own f = .large f c)
    : Inv (kfreelarge st (pageAddr (f + 1))) (unclaim own f c) slabs := by
  have hmeta : pageAddr (f + 1) - PGSIZE = pageAddr f := by
    rw [pageAddr_eq, pageAddr_eq]
    unfold PGSIZE
    omega
  have hV2P : V2P (pageAddr f) / PGSIZE = f := by
    have hbound := h.bound f (by simp [hown])
    have hle : f * PGSIZE ≤ (f + 1) * PGSIZE := Nat.mul_le_mul_right _ (by omega)
    rw [V2P_pageAddr (by omega)]
    apply Nat.mul_div_cancel
    unfold PGSIZE
    omega
  rcases h.large f f c hown with ⟨hcount, _, _, hall⟩
  constructor
  case chain => apply h.chain
  case mem_slabs =>
    intro page
    rw [h.mem_slabs]
    simp [unclaim_eq]
  case inUse =>
    intro page hpage
    rcases own_of_unclaim hpage with ⟨hne, hne'⟩
    unfold kfreelarge freepg
    simp only [hmeta, hV2P, hcount]
    rw [h.inUse page hne]
    rw [Bool.true_and, Bool.not_eq_true', decide_eq_false_iff_not]
    intro hin
    apply hne'
    have := hall (page - f) (by omega)
    rwa [Nat.add_sub_cancel' hin.1] at this
  case bound =>
    intro page hpage
    apply h.bound page
    exact (own_of_unclaim hpage).1
  case slab =>
    intro page s k hpage
    rw [unclaim_eq (by simp)] at hpage
    apply (h.slab page s k hpage.1).congr
    intros
    rfl
  case large =>
    intro page f' c' hpage
    rw [unclaim_eq (by simp)] at hpage
    rcases h.large page f' c' hpage.1 with ⟨hcount', hle, hge, hall'⟩
    refine ⟨hcount', hle, hge, ?_⟩
    intro i hi
    rw [unclaim_eq (by simp)]
    exact ⟨hall' i hi, hpage.2⟩

end Slab
end Franklin
