import Franklin.Pmm.Lemmas.Palloc

/-!
This module contains the scan of `palloc` step by step, with everything that it reads and writes, whether it
stays inside the bitmap or not.
-/

namespace Franklin
namespace Pmm

namespace palloc

/--
The loop under the label `scanbitmap` is about to compare `i` with its limit.
-/
inductive At (bm : Bitmap) (pages : Nat) : Nat → Nat → Prop where
  | start : At bm pages 0 0
  | next {p i : Nat} (h : At bm pages p i) (hlimit : i < (p + pages) % 2 ^ 64)
      (hclear : bitmap_test bm i = false) : At bm pages p (i + 1)
  -- p++; goto scanbitmap
  | restart {p i : Nat} (h : At bm pages p i) (hlimit : i < (p + pages) % 2 ^ 64)
      (hset : bitmap_test bm i = true) : At bm pages (p + 1) (p + 1)

inductive Accesses (bm : Bitmap) (pages : Nat) : Nat → Prop where
  | test {p i : Nat} (h : At bm pages p i) (hlimit : i < (p + pages) % 2 ^ 64) : Accesses bm pages i
  | set {p i j : Nat} (h : At bm pages p i) (hlimit : ¬i < (p + pages) % 2 ^ 64) (hj1 : p ≤ j)
      (hj2 : j < (p + pages) % 2 ^ 64) : Accesses bm pages j

variable {bm : Bitmap} {pages : Nat}

/--
The bits from `i` to `j` are bits of the bitmap and clear.
-/
def Clear (bm : Bitmap) (i j : Nat) : Prop :=
  ∀ k, i ≤ k → k < j → k < bm.pages ∧ bitmap_test bm k = false

theorem Clear.scanRun_eq {i j n : Nat} (h : Clear bm i j) (hij : i ≤ j) (hj : j ≤ i + n)
    : scanRun bm i n = scanRun bm j (i + n - j) := by
  induction n generalizing i with
  | zero =>
    obtain rfl : i = j := by omega
    simp
  | succ n ih =>
    by_cases heq : i = j
    . subst heq
      simp
    . have hi := h i (Nat.le_refl i) (by omega)
      rw [scanRun]
      rw [if_neg (by omega)]
      rw [if_neg (by simp [hi.2])]
      rw [ih]
      . congr 1
        omega
      . intro k hk1 hk2
        apply h k (by omega) hk2
      . omega
      . omega

theorem Clear.scanRun_stop {i j n : Nat} (h : Clear bm i j) (hij : i ≤ j) (hj : j < i + n)
    : (bm.pages ≤ j → scanRun bm i n = .outside) ∧
        (j < bm.pages → bitmap_test bm j = true → scanRun bm i n = .busy) := by
  rw [h.scanRun_eq hij (by omega)]
  rw [show i + n - j = i + n - j - 1 + 1 by omega]
  unfold scanRun
  constructor
  . intro hpages
    rw [if_pos hpages]
  . intro hpages htest
    rw [if_neg (by omega), if_pos htest]

theorem scanRun_cases (bm : Bitmap) (i n : Nat)
    : (scanRun bm i n = .free ∧ Clear bm i (i + n)) ∨
      ∃ j, i ≤ j ∧ j < i + n ∧ Clear bm i j ∧
        (scanRun bm i n = .busy ∧ j < bm.pages ∧ bitmap_test bm j = true ∨
          scanRun bm i n = .outside ∧ bm.pages ≤ j) := by
  induction n generalizing i with
  | zero =>
    refine Or.inl ⟨rfl, ?_⟩
    intro k hk1 hk2
    omega
  | succ n ih =>
    have hnil : Clear bm i i := by
      intro k hk1 hk2
      omega
    unfold scanRun
    split
    . next hpages =>
      exact Or.inr ⟨i, Nat.le_refl i, by omega, hnil, Or.inr ⟨rfl, hpages⟩⟩
    . next hpages =>
      split
      . next htest =>
        exact Or.inr ⟨i, Nat.le_refl i, by omega, hnil, Or.inl ⟨rfl, by omega, htest⟩⟩
      . next htest =>
        have hcons : ∀ j, Clear bm (i + 1) j → Clear bm i j := by
          intro j hclear k hk1 hk2
          cases Nat.eq_or_lt_of_le hk1 with
          | inl heq =>
            subst heq
            exact ⟨by omega, by simpa using htest⟩
          | inr hlt => apply hclear k hlt hk2
        cases ih (i + 1) with
        | inl hfree =>
          refine Or.inl ⟨hfree.1, hcons _ ?_⟩
          rw [← Nat.add_assoc, Nat.add_right_comm]
          apply hfree.2
        | inr hstop =>
          rcases hstop with ⟨j, hj1, hj2, hclear, hend⟩
          exact Or.inr ⟨j, by omega, by omega, hcons j hclear, hend⟩

theorem At.skip {p i j : Nat} (h : At bm pages p i) (hij : i ≤ j) (hclear : Clear bm i j)
    (hlimit : j ≤ (p + pages) % 2 ^ 64) : At bm pages p j := by
  induction j, hij using Nat.le_induction with
  | base => exact h
  | succ j hij ih =>
    apply At.next
    . apply ih
      . intro k hk1 hk2
        apply hclear k hk1 (by omega)
      . omega
    . omega
    . exact (hclear j hij (by omega)).2

theorem At.accesses_of_scanbitmap {p fuel : Nat} (h : At bm pages p p) (hp : p ≤ bm.pages)
    (hfuel : bm.pages < p + fuel) (hscan : scanbitmap bm pages p fuel = none)
    : ∃ i, Accesses bm pages i ∧ bm.pages ≤ i := by
  induction fuel generalizing p with
  | zero => omega
  | succ fuel ih =>
    unfold scanbitmap at hscan
    cases scanRun_cases bm p ((p + pages) % 2 ^ 64 - p) with
    | inl hfree =>
      rw [hfree.1] at hscan
      contradiction
    | inr hstop =>
      rcases hstop with ⟨j, hj1, hj2, hclear, hend⟩
      have hat := h.skip hj1 hclear (by omega)
      cases hend with
      | inl hbusy =>
        rw [hbusy.1] at hscan
        apply ih (hat.restart (by omega) hbusy.2.2)
        . omega
        . omega
        . apply hscan
      | inr houtside => exact ⟨j, .test hat (by omega), houtside.2⟩

theorem At.clear_of_scanbitmap {p i q : Nat} (h : At bm pages p i)
    (hscan : scanbitmap bm pages 0 (bm.pages + 1) = some q)
    : p ≤ i ∧ Clear bm p i ∧ (i < (p + pages) % 2 ^ 64 → i < bm.pages) ∧
        ∃ fuel, scanbitmap bm pages p (fuel + 1) = some q := by
  have hnil : ∀ p, Clear bm p p := by
    intro p k hk1 hk2
    omega
  -- The bit that is tested next decides the round, and none of the rounds leaves the bitmap.
  have hinside : ∀ p i fuel, p ≤ i → Clear bm p i → scanbitmap bm pages p (fuel + 1) = some q →
      i < (p + pages) % 2 ^ 64 → i < bm.pages := by
    intro p i fuel hle hclear hfuel hlimit
    by_contra hout
    unfold scanbitmap at hfuel
    rw [(hclear.scanRun_stop hle (by omega)).1 (by omega)] at hfuel
    simp at hfuel
  induction h with
  | start => exact ⟨Nat.le_refl 0, hnil 0, hinside 0 0 _ (Nat.le_refl 0) (hnil 0) hscan, _, hscan⟩
  | @next p i _ hlimit htest ih =>
    rcases ih with ⟨hle, hclear, hi, fuel, hfuel⟩
    have hclear' : Clear bm p (i + 1) := by
      intro k hk1 hk2
      by_cases heq : k = i
      . subst heq
        exact ⟨hi hlimit, htest⟩
      . apply hclear k hk1 (by omega)
    exact ⟨by omega, hclear', hinside p (i + 1) fuel (by omega) hclear' hfuel, fuel, hfuel⟩
  | @restart p i _ hlimit htest ih =>
    rcases ih with ⟨hle, hclear, hi, fuel, hfuel⟩
    unfold scanbitmap at hfuel
    rw [(hclear.scanRun_stop hle (by omega)).2 (hi hlimit) htest] at hfuel
    dsimp only at hfuel
    cases fuel with
    | zero => simp [scanbitmap] at hfuel
    | succ fuel =>
      exact ⟨Nat.le_refl _, hnil _, hinside _ _ fuel (Nat.le_refl _) (hnil _) hfuel, fuel, hfuel⟩

theorem At.of_scanbitmap_eq_some {p q fuel : Nat} (h : At bm pages p p) (hp : p ≤ bm.pages)
    (hscan : scanbitmap bm pages p fuel = some q)
    : At bm pages q q ∧ q ≤ bm.pages ∧ Clear bm q (q + ((q + pages) % 2 ^ 64 - q)) := by
  induction fuel generalizing p with
  | zero => simp [scanbitmap] at hscan
  | succ fuel ih =>
    unfold scanbitmap at hscan
    cases scanRun_cases bm p ((p + pages) % 2 ^ 64 - p) with
    | inl hfree =>
      simp only [hfree.1, Option.some.injEq] at hscan
      subst hscan
      exact ⟨h, hp, hfree.2⟩
    | inr hstop =>
      rcases hstop with ⟨j, hj1, hj2, hclear, hend⟩
      cases hend with
      | inl hbusy =>
        simp only [hbusy.1] at hscan
        apply ih ((h.skip hj1 hclear (by omega)).restart (by omega) hbusy.2.2) ?_ hscan
        omega
      | inr houtside =>
        rw [houtside.1] at hscan
        contradiction

theorem At.of_palloc_eq_some {addr : Nat} {bm' : Bitmap} (h : palloc bm pages = some (addr, bm'))
    : ∃ q, addr = q * PGSIZE ∧ q ≤ bm.pages ∧ At bm pages q q ∧
        Clear bm q (q + ((q + pages) % 2 ^ 64 - q)) := by
  unfold palloc at h
  split at h
  . contradiction
  . next q hscan =>
    rcases At.start.of_scanbitmap_eq_some (Nat.zero_le _) hscan with ⟨hat, hq, hclear⟩
    have hlt := bm.pages_lt
    simp only [Option.some.injEq, Prod.mk.injEq] at h
    refine ⟨q, ?_, hq, hat, hclear⟩
    rw [← h.1]
    unfold PGSIZE
    omega

end palloc

/--
`palloc` ends its scan at the first run that is free, takes it and nothing else.
-/
theorem palloc_first_fit {bm : Bitmap} {n : Nat} (h : ∃ q, FreeRun bm q n)
    : ∃ p bm', palloc bm n = some (p * PGSIZE, bm') ∧ palloc.At bm n p (p + n) ∧ FreeRun bm p n ∧
        (∀ p' < p, ¬FreeRun bm p' n) ∧
        ∀ i, bitmap_test bm' i ≠ bitmap_test bm i ↔ p ≤ i ∧ i < p + n := by
  rcases h with ⟨q, hq⟩
  rcases palloc_eq_some hq with ⟨p, hpalloc, hrun, hleast⟩
  refine ⟨p, _, hpalloc, ?_, hrun, hleast, ?_⟩
  . rcases palloc.At.of_palloc_eq_some hpalloc with ⟨q', haddr, _, hat, hclear⟩
    obtain rfl : p = q' := by
      unfold PGSIZE at haddr
      omega
    have hend := hrun.1
    have hlt := bm.pages_lt
    rw [show p + ((p + n) % 2 ^ 64 - p) = p + n by omega] at hclear
    apply hat.skip (by omega) hclear
    omega
  . intro i
    have htaken : i ∈ (setRun bm p n).taken ↔ i ∈ bm.taken ∨ p ≤ i ∧ i < p + n := by
      rw [setRun_taken, Set.mem_union, Set.mem_Ico]
    rw [Bitmap.mem_taken, Bitmap.mem_taken] at htaken
    constructor
    . intro hne
      by_contra hout
      apply hne
      rw [Bool.eq_iff_iff, htaken]
      simp [hout]
    . intro hin
      rw [htaken.mpr (Or.inr hin), hrun.2 i hin.1 hin.2]
      simp

theorem palloc_first_fit_twoTaken :
    ∃ p bm', palloc Heap.twoTaken 2 = some (p * PGSIZE, bm') ∧ palloc.At Heap.twoTaken 2 p (p + 2) ∧
      FreeRun Heap.twoTaken p 2 ∧ (∀ p' < p, ¬FreeRun Heap.twoTaken p' 2) ∧
      ∀ i, bitmap_test bm' i ≠ bitmap_test Heap.twoTaken i ↔ p ≤ i ∧ i < p + 2 :=
  palloc_first_fit ⟨3, by decide⟩

theorem palloc_eq_none_iff {bm : Bitmap} {pages : Nat}
    : palloc bm pages = none ↔ ∃ i, palloc.Accesses bm pages i ∧ bm.pages ≤ i := by
  have hscan : palloc bm pages = none ↔ palloc.scanbitmap bm pages 0 (bm.pages + 1) = none := by
    unfold palloc
    split
    . next h => simp [h]
    . next h => simp [h]
  rw [hscan]
  constructor
  . intro hnone
    apply palloc.At.start.accesses_of_scanbitmap (Nat.zero_le _) ?_ hnone
    omega
  . rintro ⟨i, haccess, hi⟩
    by_contra hsome
    rcases Option.ne_none_iff_exists'.mp hsome with ⟨q, hq⟩
    cases haccess with
    | test h hlimit =>
      have := (h.clear_of_scanbitmap hq).2.2.1 hlimit
      omega
    | @set p e _ h hlimit hj1 hj2 =>
      -- Every bit that is set has been tested before.
      have := (h.clear_of_scanbitmap hq).2.1 i hj1 (by omega)
      omega

/--
What callers such as `kalloclarge` rely on: the call stays inside the bitmap, NULL says that there is no run of
this length and nothing else does.
-/
structure SafePalloc (bm : Bitmap) (pages : Nat) : Prop where
  inside : ∀ i, palloc.Accesses bm pages i → i < bm.pages
  null : (¬∃ p, FreeRun bm p pages) → palloc bm pages = some (0, bm)
  run : (∃ p, FreeRun bm p pages) → ∃ p bm', palloc bm pages = some (p * PGSIZE, bm') ∧
    p + pages ≤ bm.pages ∧ p * PGSIZE ≠ 0

theorem freeRun_of_palloc_null {bm bm' : Bitmap} {pages : Nat} (hpages : pages < 2 ^ 64)
    (h : palloc bm pages = some (0, bm')) : FreeRun bm 0 pages := by
  rcases palloc.At.of_palloc_eq_some h with ⟨q, hnull, _, _, hclear⟩
  obtain rfl : q = 0 := by
    unfold PGSIZE at hnull
    omega
  simp only [Nat.zero_add, Nat.sub_zero, Nat.mod_eq_of_lt hpages] at hclear
  constructor
  . by_contra hout
    have := (hclear bm.pages (by omega) (by omega)).1
    omega
  . intro i hi1 hi2
    exact (hclear i hi1 (by omega)).2

/--
`palloc` fails its callers unless there is a run of free pages for it and the first one does not start with
page 0, the only one for which it returns NULL.
-/
theorem palloc_safe_iff {bm : Bitmap} {pages : Nat} (hpages : pages < 2 ^ 64)
    : SafePalloc bm pages ↔ (∃ p, FreeRun bm p pages) ∧ ¬FreeRun bm 0 pages := by
  constructor
  . intro h
    by_cases hrun : ∃ p, FreeRun bm p pages
    . refine ⟨hrun, ?_⟩
      intro hzero
      rcases palloc_eq_some hzero with ⟨p, hpalloc, _, hleast⟩
      rcases h.run hrun with ⟨p', bm', hpalloc', _, hne⟩
      rw [hpalloc, Option.some.injEq, Prod.mk.injEq] at hpalloc'
      apply hleast 0
      . by_contra hp
        apply hne
        rw [← hpalloc'.1]
        simp [Nat.eq_zero_of_not_pos hp]
      . exact hzero
    . have hnull := freeRun_of_palloc_null hpages (h.null hrun)
      exact absurd ⟨0, hnull⟩ hrun
  . rintro ⟨⟨q, hq⟩, hzero⟩
    rcases palloc_eq_some hq with ⟨p, hpalloc, hrun, _⟩
    constructor
    . intro i haccess
      by_contra hout
      have hnone := palloc_eq_none_iff.mpr ⟨i, haccess, Nat.le_of_not_lt hout⟩
      rw [hpalloc] at hnone
      contradiction
    . intro hnone
      exact absurd ⟨q, hq⟩ hnone
    . intro _
      refine ⟨p, _, hpalloc, hrun.1, ?_⟩
      intro hnull
      have hp : p = 0 := by
        unfold PGSIZE at hnull
        omega
      exact hzero (hp ▸ hrun)

theorem palloc_safe_twoTaken : SafePalloc Heap.twoTaken 2 :=
  (palloc_safe_iff (by decide)).mpr ⟨⟨3, by decide⟩, by decide⟩

def allTaken : Bitmap :=
  { addr := 0x2000, size := 1, byte := fun _ => 0xff#8, size_lt := Heap.oneByte_lt }

theorem not_palloc_safe : palloc.Accesses allTaken 1 8 ∧ ¬SafePalloc allTaken 1 := by
  have htest : ∀ p < 8, bitmap_test allTaken p = true := by decide
  have hat : ∀ p, p ≤ 8 → palloc.At allTaken 1 p p := by
    intro p hp
    induction p with
    | zero => apply palloc.At.start
    | succ p ih =>
      apply (ih (by omega)).restart
      . omega
      . apply htest p hp
  have haccess : palloc.Accesses allTaken 1 8 := .test (hat 8 (by omega)) (by decide)
  refine ⟨haccess, ?_⟩
  intro h
  exact absurd (h.inside 8 haccess) (by decide)

end Pmm
end Franklin
