import Mathlib.Data.Set.Lattice
import Mathlib.Data.List.Perm.Basic
import Mathlib.Order.CompletePartialOrder

/-!
This module contains the bookkeeping of an allocator that hands out sets of cells: `base` is what was
taken before it started, `out` is what it has handed out since and `used` is what it believes to be
taken.
-/

/--
`used` is accounted for, cell by cell, by `base` and by the pairwise disjoint grants in `out`.
-/
structure IsLedger {α : Type} (base used : Set α) (out : List (Set α)) : Prop where
  pairwise : out.Pairwise Disjoint
  base_disjoint : ∀ s ∈ out, Disjoint base s
  mem_used : ∀ x, x ∈ used ↔ x ∈ base ∨ ∃ s ∈ out, x ∈ s

namespace IsLedger

variable {α : Type} {base used : Set α} {out : List (Set α)}

theorem init (base : Set α) : IsLedger base base [] where
  pairwise := List.Pairwise.nil
  base_disjoint := by simp
  mem_used := by simp

theorem disjoint_of_mem (h : IsLedger base used out) {s t : Set α} (hs : s ∈ out)
    (ht : Disjoint used t) : Disjoint s t := by
  rw [Set.disjoint_left] at *
  intro x hx
  apply ht
  rw [h.mem_used]
  exact Or.inr ⟨s, hs, hx⟩

theorem grant (h : IsLedger base used out) {s : Set α} (hs : Disjoint used s) :
    IsLedger base (used ∪ s) (s :: out) where
  pairwise := by
    rw [List.pairwise_cons]
    constructor
    . intro t ht
      exact (h.disjoint_of_mem ht hs).symm
    . exact h.pairwise
  base_disjoint := by
    intro t ht
    cases List.mem_cons.mp ht with
    | inl heq =>
      rw [heq, Set.disjoint_left]
      intro x hx
      apply Set.disjoint_left.mp hs
      rw [h.mem_used]
      exact Or.inl hx
    | inr hmem => exact h.base_disjoint t hmem
  mem_used := by
    intro x
    rw [Set.mem_union, h.mem_used]
    simp only [List.mem_cons, exists_eq_or_imp]
    rw [or_assoc, or_comm (a := ∃ s ∈ out, x ∈ s)]

theorem perm {out' : List (Set α)} (h : IsLedger base used out) (hperm : out.Perm out') :
    IsLedger base used out' where
  pairwise := (hperm.pairwise_iff (fun h => h.symm)).mp h.pairwise
  base_disjoint := by
    intro s hs
    exact h.base_disjoint s (hperm.mem_iff.mpr hs)
  mem_used := by
    intro x
    rw [h.mem_used]
    simp only [hperm.mem_iff]

theorem giveBack {s : Set α} (h : IsLedger base used (s :: out)) :
    IsLedger base (used \ s) out where
  pairwise := (List.pairwise_cons.mp h.pairwise).2
  base_disjoint := by
    intro t ht
    exact h.base_disjoint t (List.mem_cons_of_mem s ht)
  mem_used := by
    intro x
    have hbase := Set.disjoint_left.mp (h.base_disjoint s List.mem_cons_self)
    have hout := (List.pairwise_cons.mp h.pairwise).1
    rw [Set.mem_sdiff, h.mem_used]
    constructor
    . rintro ⟨hx | ⟨t, ht, hxt⟩, hxs⟩
      . exact Or.inl hx
      . cases List.mem_cons.mp ht with
        | inl heq => exact absurd (heq ▸ hxt) hxs
        | inr hmem => exact Or.inr ⟨t, hmem, hxt⟩
    . rintro (hx | ⟨t, ht, hxt⟩)
      . exact ⟨Or.inl hx, hbase hx⟩
      . refine ⟨Or.inr ⟨t, List.mem_cons_of_mem s ht, hxt⟩, ?_⟩
        exact Set.disjoint_right.mp (hout t ht) hxt

end IsLedger
