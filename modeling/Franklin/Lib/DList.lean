import Mathlib.Data.List.Nodup
import Mathlib.Logic.Function.Basic

/-!
This module contains doubly linked lists of cells. `prev n` and `next n` are the links that are stored in
the cell `n`, where a link is `null` or `ref n` for a cell `n`, or anything else.
-/

/--
The cells that are met on the way from the link `p` to `null` are `l`, in this order. Every cell links
back to the one before it, and the first one to `q`.
-/
inductive DList {ι P : Type} (null : P) (ref : ι → P) (prev next : ι → P) : P → P → List ι → Prop where
  | nil (q : P) : DList null ref prev next q null []
  | cons {q : P} {n : ι} {l : List ι} (hprev : prev n = q)
      (hl : DList null ref prev next (ref n) (next n) l) : DList null ref prev next q (ref n) (n :: l)

namespace DList

variable {ι P : Type} {null : P} {ref : ι → P} {prev next prev' next' : ι → P} {p q : P} {l : List ι}
  {n x : ι}

theorem congr (h : DList null ref prev next q p l) (hprev : ∀ n ∈ l, prev' n = prev n)
    (hnext : ∀ n ∈ l, next' n = next n) : DList null ref prev' next' q p l := by
  induction h with
  | nil q => apply nil
  | @cons q n l hn _ ih =>
    apply cons
    . rw [hprev n List.mem_cons_self, hn]
    . rw [hnext n List.mem_cons_self]
      apply ih
      . intro m hm
        apply hprev m (List.mem_cons_of_mem _ hm)
      . intro m hm
        apply hnext m (List.mem_cons_of_mem _ hm)

theorem prev_eq (hinj : Function.Injective ref) (hnull : ref n ≠ null)
    (h : DList null ref prev next q (ref n) l) : prev n = q ∧ n ∈ l := by
  generalize hp : ref n = p at h
  cases h with
  | nil => exact absurd hp hnull
  | cons hprev hl =>
    have := hinj hp
    subst this
    exact ⟨hprev, List.mem_cons_self⟩

section Links

variable (hinj : Function.Injective ref) (hnull : ∀ n, ref n ≠ null)

include hinj hnull

theorem exists_prev (h : DList null ref prev next q p l) (hx : x ∈ l) (hne : p ≠ ref x)
    : ∃ m ∈ l, m ≠ x ∧ prev x = ref m := by
  induction h with
  | nil q => simp at hx
  | @cons q n l hn hl ih =>
    have hnx : n ≠ x := fun heq => hne (heq ▸ rfl)
    have hxl : x ∈ l := by
      cases List.mem_cons.mp hx with
      | inl heq => exact absurd heq.symm hnx
      | inr hmem => apply hmem
    by_cases hnext : next n = ref x
    . rw [hnext] at hl
      exact ⟨n, List.mem_cons_self, hnx, (prev_eq hinj (hnull x) hl).1⟩
    . rcases ih hxl hnext with ⟨m, hm, heq⟩
      exact ⟨m, List.mem_cons_of_mem _ hm, heq⟩

omit hinj hnull in
theorem next_cases (h : DList null ref prev next q p l) (hx : x ∈ l)
    : next x = null ∨ ∃ y ∈ l, next x = ref y ∧ prev y = ref x := by
  induction h with
  | nil q => simp at hx
  | @cons q n l hn hl ih =>
    cases List.mem_cons.mp hx with
    | inl heq =>
      subst heq
      generalize hp : next x = p at hl
      cases hl with
      | nil => exact Or.inl rfl
      | @cons _ y l hy _ =>
        exact Or.inr ⟨y, List.mem_cons_of_mem _ List.mem_cons_self, rfl, hy⟩
    | inr hmem =>
      cases ih hmem with
      | inl hnone => exact Or.inl hnone
      | inr hsome =>
        rcases hsome with ⟨y, hy, heq⟩
        exact Or.inr ⟨y, List.mem_cons_of_mem _ hy, heq⟩

variable [DecidableEq P]

omit hnull in
theorem push (h : DList null ref prev next q p l) (hnodup : l.Nodup) (hn : next' n = p)
    (hprevn : prev' n = q) (hnext : ∀ m ∈ l, next' m = next m)
    (hprev : ∀ m ∈ l, prev' m = if p = ref m then ref n else prev m)
    : DList null ref prev' next' q (ref n) (n :: l) := by
  apply cons hprevn
  rw [hn]
  cases h with
  | nil => apply nil
  | @cons _ x l hx hl =>
    rw [List.nodup_cons] at hnodup
    apply cons
    . rw [hprev x List.mem_cons_self, if_pos rfl]
    . rw [hnext x List.mem_cons_self]
      apply hl.congr
      . intro m hm
        rw [hprev m (List.mem_cons_of_mem _ hm), if_neg]
        intro heq
        rw [hinj heq] at hnodup
        exact hnodup.1 hm
      . intro m hm
        apply hnext m (List.mem_cons_of_mem _ hm)

theorem remove [DecidableEq ι] (h : DList null ref prev next q p l) (hnodup : l.Nodup) (hx : x ∈ l)
    (hne : p ≠ ref x) (hnext : ∀ m ∈ l, next' m = if prev x = ref m then next x else next m)
    (hprev : ∀ m ∈ l, prev' m = if next x = ref m then prev x else prev m)
    : DList null ref prev' next' q p (l.erase x) := by
  induction h with
  | nil q => simp at hx
  | @cons q n l hn hl ih =>
    have hnx : n ≠ x := fun heq => hne (heq ▸ rfl)
    have hxl : x ∈ l := by
      cases List.mem_cons.mp hx with
      | inl heq => exact absurd heq.symm hnx
      | inr hmem => apply hmem
    rw [List.nodup_cons] at hnodup
    have hnexteq : ∀ y, next x = ref y → y ∈ l := by
      intro y hy
      cases next_cases hl hxl with
      | inl hnone =>
        rw [hy] at hnone
        exact absurd hnone (hnull y)
      | inr hsome =>
        rcases hsome with ⟨z, hz, heq, _⟩
        rw [hy] at heq
        rw [hinj heq]
        apply hz
    have hnprev : prev' n = prev n := by
      rw [hprev n List.mem_cons_self, if_neg]
      intro heq
      exact hnodup.1 (hnexteq n heq)
    rw [List.erase_cons_tail (by simpa using hnx)]
    apply cons
    . rw [hnprev, hn]
    . by_cases hfirst : next n = ref x
      . -- the cell behind `n` is taken out
        have hpx := (prev_eq hinj (hnull x) (hfirst ▸ hl)).1
        rw [hnext n List.mem_cons_self, if_pos hpx]
        generalize hp : next n = p at hl hfirst
        cases hl with
        | nil => exact absurd hfirst.symm (hnull x)
        | @cons _ z l hz hl =>
          have hzx := hinj hfirst
          subst hzx
          rw [List.erase_cons_head]
          generalize hy : next z = p at hl
          cases hl with
          | nil => apply nil
          | @cons _ y l hyz hl =>
            have hnodup2 := (List.nodup_cons.mp hnodup.2).2
            rw [List.nodup_cons] at hnodup2
            have hout : ∀ m ∈ y :: l, next' m = next m := by
              intro m hm
              rw [hnext m (List.mem_cons_of_mem _ (List.mem_cons_of_mem _ hm)), hpx, if_neg]
              intro heq
              rw [hinj heq] at hnodup
              exact hnodup.1 (List.mem_cons_of_mem _ hm)
            apply cons
            . rw [hprev y (by simp), if_pos hy, hpx]
            . rw [hout y List.mem_cons_self]
              apply hl.congr
              . intro m hm
                rw [hprev m (by simp [hm]), hy, if_neg]
                intro heq
                rw [hinj heq] at hnodup2
                exact hnodup2.1 hm
              . intro m hm
                apply hout m (List.mem_cons_of_mem _ hm)
      . rcases exists_prev hinj hnull hl hxl hfirst with ⟨m, hm, _, hpx⟩
        have hmn : ref m ≠ ref n := by
          intro heq
          rw [hinj heq] at hm
          exact hnodup.1 hm
        rw [hnext n List.mem_cons_self, hpx, if_neg hmn]
        apply ih hnodup.2 hxl hfirst
        . intro i hi
          apply hnext i (List.mem_cons_of_mem _ hi)
        . intro i hi
          apply hprev i (List.mem_cons_of_mem _ hi)

end Links

end DList
