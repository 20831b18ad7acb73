import Mathlib.Data.Nat.Init

/-!
This module contains singly linked lists of cells. `next p` is the link that is stored in the cell at
address `p`, and the address `0` is NULL.
-/

/--
The cells that are met on the way from `p` to NULL are `ps`, in this order.
-/
inductive SList (next : Nat → Nat) : Nat → List Nat → Prop where
  | nil : SList next 0 []
  | cons {p : Nat} {ps : List Nat} (hp : p ≠ 0) (hps : SList next (next p) ps) : SList next p (p :: ps)

namespace SList

variable {next next' : Nat → Nat} {p q fuel : Nat} {ps : List Nat} {pred : Nat → Bool}

/--
`q` is one of the cells that are met on the way from `p`, whether the way ends or not.
-/
inductive Visits (next : Nat → Nat) (p : Nat) : Nat → Prop where
  | head (hp : p ≠ 0) : Visits next p p
  | step {q : Nat} (hq : Visits next p q) (hnext : next q ≠ 0) : Visits next p (next q)

/--
The first cell that satisfies `pred`, or `some none` behind the last cell. The result is `none` if
`fuel` cells are not enough to tell.
-/
def find (next : Nat → Nat) (pred : Nat → Bool) : Nat → Nat → Option (Option Nat)
  | 0, _ => none
  | fuel + 1, p =>
    if p = 0 then
      some none
    else if pred p then
      some (some p)
    else
      find next pred fuel (next p)

/--
The cell whose link is `item`, or `none` if the search runs into NULL or `fuel` cells are not enough.
-/
def findPrev (next : Nat → Nat) (item : Nat) : Nat → Nat → Option Nat
  | 0, _ => none
  | fuel + 1, p =>
    if p = 0 then
      none
    else if next p = item then
      some p
    else
      findPrev next item fuel (next p)

theorem ne_zero (h : SList next p ps) (hq : q ∈ ps) : q ≠ 0 := by
  induction h with
  | nil => simp at hq
  | cons hp _ ih =>
    cases hq with
    | head => assumption
    | tail _ hmem => apply ih hmem

theorem congr (h : SList next p ps) (hnext : ∀ q ∈ ps, next' q = next q) : SList next' p ps := by
  induction h with
  | nil => apply nil
  | cons hp _ ih =>
    apply cons hp
    rw [hnext _ List.mem_cons_self]
    apply ih
    intro q hq
    apply hnext
    apply List.mem_cons_of_mem _ hq

theorem visits_of_next (hp : p ≠ 0) (h : Visits next (next p) q) : Visits next p q := by
  induction h with
  | head hne => apply Visits.step (Visits.head hp) hne
  | step _ hne ih => apply Visits.step ih hne

theorem visits_of_mem (h : SList next p ps) (hq : q ∈ ps) : Visits next p q := by
  induction h with
  | nil => simp at hq
  | cons hp _ ih =>
    cases hq with
    | head => apply Visits.head hp
    | tail _ hmem => apply visits_of_next hp (ih hmem)

theorem exists_eq_cons (h : SList next p ps) (hp : p ≠ 0)
    : ∃ qs, ps = p :: qs ∧ SList next (next p) qs := by
  cases h with
  | nil => contradiction
  | cons _ hps => exact ⟨_, rfl, hps⟩

theorem exists_suffix_of_visits (h : SList next p ps) (hq : Visits next p q)
    : ∃ qs, SList next q qs ∧ q ∈ qs ∧ ∀ r ∈ qs, r ∈ ps := by
  induction hq with
  | head hp =>
    rcases h.exists_eq_cons hp with ⟨qs, heq, _⟩
    refine ⟨ps, h, ?_, fun _ hr => hr⟩
    rw [heq]
    apply List.mem_cons_self
  | step hvisits hne ih =>
    rcases ih with ⟨qs, hqs, hmem, hsub⟩
    rcases hqs.exists_eq_cons (hqs.ne_zero hmem) with ⟨rs, heq, hrs⟩
    rcases hrs.exists_eq_cons hne with ⟨_, heq', _⟩
    refine ⟨rs, hrs, ?_, ?_⟩
    . rw [heq']
      apply List.mem_cons_self
    . intro r hr
      apply hsub
      rw [heq]
      apply List.mem_cons_of_mem _ hr

theorem visits_iff (h : SList next p ps) : Visits next p q ↔ q ∈ ps := by
  constructor
  . intro hq
    rcases h.exists_suffix_of_visits hq with ⟨_, _, hmem, hsub⟩
    apply hsub _ hmem
  . apply h.visits_of_mem

theorem find_eq (h : SList next p ps) (hfuel : ps.length < fuel)
    : find next pred fuel p = some (ps.find? pred) := by
  induction h generalizing fuel with
  | nil =>
    cases fuel with
    | zero => simp at hfuel
    | succ fuel => simp [find]
  | cons hp _ ih =>
    cases fuel with
    | zero => simp at hfuel
    | succ fuel =>
      unfold find
      rw [if_neg hp, List.find?_cons]
      split
      . next hpred => simp [hpred]
      . next hpred =>
        rw [ih]
        . simp [hpred]
        . simp at hfuel
          omega

theorem eq_find?_of_find_eq {res : Option Nat} (h : SList next p ps)
    (hfind : find next pred fuel p = some res) : ps.find? pred = res := by
  induction h generalizing fuel with
  | nil =>
    cases fuel with
    | zero => simp [find] at hfind
    | succ fuel => simpa [find] using hfind
  | cons hp _ ih =>
    cases fuel with
    | zero => simp [find] at hfind
    | succ fuel =>
      unfold find at hfind
      rw [if_neg hp] at hfind
      rw [List.find?_cons]
      split at hfind
      . next hpred => simpa [hpred] using hfind
      . next hpred =>
        simp only [hpred]
        apply ih hfind

theorem mem_of_findPrev_eq (h : SList next p ps) {item : Nat}
    (hfind : findPrev next item fuel p = some q) : q ∈ ps := by
  induction h generalizing fuel with
  | nil =>
    cases fuel with
    | zero => simp [findPrev] at hfind
    | succ fuel => simp [findPrev] at hfind
  | cons hp _ ih =>
    cases fuel with
    | zero => simp [findPrev] at hfind
    | succ fuel =>
      unfold findPrev at hfind
      rw [if_neg hp] at hfind
      split at hfind
      . cases hfind
        apply List.mem_cons_self
      . apply List.mem_cons_of_mem
        apply ih hfind

theorem exists_append_of_links {f : Nat → Nat} (h : SList next (f 0) ps) (n : Nat)
    (hne : ∀ j < n, f j ≠ 0) (hlink : ∀ j < n, next (f j) = f (j + 1))
    : ∃ qs, ps = (List.range n).map f ++ qs ∧ SList next (f n) qs := by
  induction n with
  | zero => exact ⟨ps, rfl, h⟩
  | succ n ih =>
    rcases ih (fun j hj => hne j (by omega)) (fun j hj => hlink j (by omega)) with ⟨qs, heq, hqs⟩
    rcases hqs.exists_eq_cons (hne n (by omega)) with ⟨rs, heq', hrs⟩
    rw [hlink n (by omega)] at hrs
    refine ⟨rs, ?_, hrs⟩
    rw [heq, heq', List.range_succ]
    simp

theorem append_of_links {f : Nat → Nat} (n : Nat) (hne : ∀ j < n, f j ≠ 0)
    (hlink : ∀ j < n, next (f j) = f (j + 1)) (h : SList next (f n) ps)
    : SList next (f 0) ((List.range n).map f ++ ps) := by
  induction n generalizing ps with
  | zero => exact h
  | succ n ih =>
    rw [List.range_succ, List.map_append, List.append_assoc]
    apply ih
    . intro j hj
      apply hne j (by omega)
    . intro j hj
      apply hlink j (by omega)
    . apply cons (hne n (by omega))
      rwa [hlink n (by omega)]

end SList
