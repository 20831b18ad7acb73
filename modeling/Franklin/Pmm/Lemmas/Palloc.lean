import Franklin.Lib.Ledger
import Franklin.Pmm.Lemmas.Bitmap

namespace Franklin
namespace Pmm

/--
`n` pages of the bitmap from page `p` on, all of them free.
-/
def FreeRun (bm : Bitmap) (p n : Nat) : Prop :=
  p + n ≤ bm.pages ∧ ∀ i, p ≤ i → i < p + n → bitmap_test bm i = false

instance (bm : Bitmap) (p n : Nat) : Decidable (FreeRun bm p n) :=
  decidable_of_iff (p + n ≤ bm.pages ∧ ∀ k < n, bitmap_test bm (p + k) = false) <| by
    apply and_congr_right
    intro _
    constructor
    . intro h i hi1 hi2
      have := h (i - p) (by omega)
      rwa [Nat.add_sub_cancel' hi1] at this
    . intro h k hk
      apply h <;> omega

theorem FreeRun.disjoint_taken {bm : Bitmap} {p n : Nat} (h : FreeRun bm p n)
    : Disjoint bm.taken (Set.Ico p (p + n)) := by
  rw [Set.disjoint_left]
  intro i hi hmem
  rw [Set.mem_Ico] at hmem
  rw [Bitmap.mem_taken, h.2 i hmem.1 hmem.2] at hi
  contradiction

theorem Bitmap.pages_lt (bm : Bitmap) : bm.pages < 2 ^ 52 := by
  have := bm.size_lt
  unfold Bitmap.pages
  omega

namespace palloc

theorem scanRun_eq_free_iff (bm : Bitmap) (i n : Nat)
    : scanRun bm i n = .free ↔ ∀ j, i ≤ j → j < i + n → j < bm.pages ∧ bitmap_test bm j = false := by
  induction n generalizing i with
  | zero =>
    simp only [scanRun, true_iff]
    intro j hj1 hj2
    omega
  | succ n ih =>
    unfold scanRun
    split
    . next hpages =>
      simp only [reduceCtorEq, false_iff]
      intro h
      have := h i (by omega) (by omega)
      omega
    . split
      . next htest =>
        simp only [reduceCtorEq, false_iff]
        intro h
        have := h i (by omega) (by omega)
        simp [htest] at this
      . next hpages htest =>
        rw [ih]
        constructor
        . intro h j hj1 hj2
          cases Nat.eq_or_lt_of_le hj1 with
          | inl heq =>
            subst heq
            simpa using And.intro (Nat.lt_of_not_le hpages) htest
          | inr hlt => apply h <;> omega
        . intro h j hj1 hj2
          apply h <;> omega

theorem scanRun_ne_outside {bm : Bitmap} {i n : Nat} (h : i + n ≤ bm.pages)
    : scanRun bm i n ≠ .outside := by
  induction n generalizing i with
  | zero => simp [scanRun]
  | succ n ih =>
    unfold scanRun
    split
    . omega
    . split
      . simp
      . apply ih
        omega

theorem scanbitmap_eq_some {bm : Bitmap} {pages p q fuel : Nat} (hq : FreeRun bm q pages) (hpq : p ≤ q)
    (hfuel : q - p < fuel)
    : ∃ r, scanbitmap bm pages p fuel = some r ∧ p ≤ r ∧ FreeRun bm r pages ∧
        ∀ r', p ≤ r' → r' < r → ¬FreeRun bm r' pages := by
  induction fuel generalizing p with
  | zero => omega
  | succ fuel ih =>
    have hpages := bm.pages_lt
    have hle : p + pages ≤ bm.pages := by
      have := hq.1
      omega
    have hlimit : (p + pages) % 2 ^ 64 - p = pages := by
      omega
    unfold scanbitmap
    rw [hlimit]
    split
    . next hfree =>
      rw [scanRun_eq_free_iff] at hfree
      refine ⟨p, rfl, Nat.le_refl p, ⟨hle, ?_⟩, ?_⟩
      . intro i hi1 hi2
        exact (hfree i hi1 hi2).2
      . intro r' hr1 hr2
        omega
    . next hbusy =>
      have hnot : ¬FreeRun bm p pages := by
        intro hrun
        have hfree : scanRun bm p pages = .free := by
          rw [scanRun_eq_free_iff]
          intro j hj1 hj2
          exact ⟨by omega, hrun.2 j hj1 hj2⟩
        rw [hfree] at hbusy
        contradiction
      have hne : p ≠ q := by
        intro heq
        exact hnot (heq ▸ hq)
      have hlt : p + 1 ≤ q := by omega
      obtain ⟨r, hr1, hr2, hr3, hr4⟩ := ih hlt (by omega)
      refine ⟨r, hr1, by omega, hr3, ?_⟩
      intro r' hr'1 hr'2
      cases Nat.eq_or_lt_of_le hr'1 with
      | inl heq => exact heq ▸ hnot
      | inr hgt => exact hr4 r' hgt hr'2
    . next houtside =>
      exact absurd houtside (scanRun_ne_outside hle)

end palloc

theorem palloc_eq_some {bm : Bitmap} {pages q : Nat} (hq : FreeRun bm q pages)
    : ∃ p, palloc bm pages = some (p * PGSIZE, setRun bm p pages) ∧ FreeRun bm p pages ∧
        ∀ p' < p, ¬FreeRun bm p' pages := by
  have hpages := bm.pages_lt
  have hle := hq.1
  obtain ⟨p, hscan, _, hrun, hleast⟩ :=
    palloc.scanbitmap_eq_some hq (Nat.zero_le q) (show q - 0 < bm.pages + 1 by omega)
  have hp := hrun.1
  refine ⟨p, ?_, hrun, ?_⟩
  . unfold palloc
    rw [hscan]
    have haddr : p * PGSIZE % 2 ^ 64 = p * PGSIZE := by
      unfold PGSIZE
      omega
    have hlimit : (p + pages) % 2 ^ 64 - p = pages := by
      omega
    simp only [haddr, hlimit]
  . intro p' hp'
    exact hleast p' (Nat.zero_le p') hp'

structure Grant where
  addr : Nat
  count : Nat
  deriving DecidableEq, Repr

def Grant.run (grant : Grant) : Set Nat :=
  Set.Ico (grant.addr / PGSIZE) (grant.addr / PGSIZE + grant.count)

/--
The allocator and the results its callers have not given back yet.
-/
structure Heap where
  bm : Bitmap
  out : List Grant

inductive Call where
  | palloc (n : Nat)
  | freepg (grant : Grant)

namespace Heap

def exec (heap : Heap) : Call → Option Heap
  | .palloc n =>
    match Pmm.palloc heap.bm n with
    | none => none
    | some (addr, bm) => some ⟨bm, ⟨addr, n⟩ :: heap.out⟩
  | .freepg grant =>
    some ⟨Pmm.freepg heap.bm grant.addr grant.count, heap.out.erase grant⟩

/--
What a caller has to respect: `palloc` is only asked for pages that are there, `freepg` is only given
what `palloc` returned, with the count it returned it for. That count is a `uint32_t`.
-/
def Allowed (heap : Heap) : Call → Prop
  | .palloc n => 1 ≤ n ∧ ∃ p, FreeRun heap.bm p n
  | .freepg grant => grant ∈ heap.out ∧ grant.count < 2 ^ 32

/--
The states that allowed calls lead to from the bitmap `init`.
-/
inductive Run (init : Bitmap) : Heap → Prop where
  | start : Run init ⟨init, []⟩
  | step {heap heap' : Heap} {call : Call} :
    Run init heap → heap.Allowed call → heap.exec call = some heap' → Run init heap'

def Accounted (init : Bitmap) (heap : Heap) : Prop :=
  IsLedger init.taken heap.bm.taken (heap.out.map Grant.run)

theorem exec_palloc {heap : Heap} {n : Nat} (h : heap.Allowed (.palloc n))
    : ∃ p, heap.exec (.palloc n) = some ⟨setRun heap.bm p n, ⟨p * PGSIZE, n⟩ :: heap.out⟩ ∧
        FreeRun heap.bm p n := by
  obtain ⟨_, q, hq⟩ := h
  obtain ⟨p, hpalloc, hrun, _⟩ := palloc_eq_some hq
  refine ⟨p, ?_, hrun⟩
  simp only [exec, hpalloc]

theorem Allowed.exec_isSome {heap : Heap} {call : Call} (h : heap.Allowed call)
    : ∃ heap', heap.exec call = some heap' := by
  cases call with
  | palloc n =>
    obtain ⟨p, hexec, _⟩ := exec_palloc h
    exact ⟨_, hexec⟩
  | freepg grant => exact ⟨_, rfl⟩

theorem Accounted.palloc {init : Bitmap} {heap heap' : Heap} {n : Nat} (h : Accounted init heap)
    (hallowed : heap.Allowed (.palloc n)) (hexec : heap.exec (.palloc n) = some heap')
    : Accounted init heap' := by
  obtain ⟨p, hexec', hrun⟩ := exec_palloc hallowed
  rw [hexec', Option.some.injEq] at hexec
  subst hexec
  have hgrant : Grant.run ⟨p * PGSIZE, n⟩ = Set.Ico p (p + n) := by
    simp [Grant.run, PGSIZE]
  unfold Accounted
  simp only [List.map_cons, hgrant, setRun_taken]
  apply IsLedger.grant h
  exact hrun.disjoint_taken

theorem Accounted.freepg {init : Bitmap} {heap heap' : Heap} {grant : Grant}
    (h : Accounted init heap) (hallowed : heap.Allowed (.freepg grant))
    (hexec : heap.exec (.freepg grant) = some heap') : Accounted init heap' := by
  obtain ⟨hmem, hcount⟩ := hallowed
  simp only [exec, Option.some.injEq] at hexec
  subst hexec
  have htaken : (Pmm.freepg heap.bm grant.addr grant.count).taken = heap.bm.taken \ grant.run := by
    unfold Pmm.freepg
    rw [resetRun_taken, Nat.mod_eq_of_lt hcount]
    rfl
  unfold Accounted
  rw [htaken]
  apply IsLedger.giveBack
  apply IsLedger.perm h
  have hperm := (List.perm_cons_erase hmem).map Grant.run
  rwa [List.map_cons] at hperm

theorem Run.accounted {init : Bitmap} {heap : Heap} (h : Run init heap) : Accounted init heap := by
  induction h with
  | start => exact IsLedger.init init.taken
  | @step heap heap' call _ hallowed hexec ih =>
    cases call with
    | palloc n => exact ih.palloc hallowed hexec
    | freepg grant => exact ih.freepg hallowed hexec

/--
No run of calls gets stuck, and at every point of it the outstanding grants are pairwise disjoint,
none contains a page that was taken at the start and the set bits are exactly those of the start
and of the grants.
-/
theorem Run.grants_disjoint_and_taken {init : Bitmap} {heap : Heap} (h : Run init heap)
    : (∀ call, heap.Allowed call → ∃ heap', heap.exec call = some heap') ∧
      heap.out.Pairwise (fun a b => Disjoint a.run b.run) ∧
      (∀ grant ∈ heap.out, ∀ i ∈ grant.run, bitmap_test init i = false) ∧
      ∀ i, bitmap_test heap.bm i = true ↔
        bitmap_test init i = true ∨ ∃ grant ∈ heap.out, i ∈ grant.run := by
  have hledger := h.accounted
  refine ⟨fun call hallowed => hallowed.exec_isSome, ?_, ?_, ?_⟩
  . exact List.pairwise_map.mp hledger.pairwise
  . intro grant hgrant i hi
    have hdisj := hledger.base_disjoint grant.run (List.mem_map_of_mem hgrant)
    have := Set.disjoint_right.mp hdisj hi
    simpa using this
  . intro i
    simpa using hledger.mem_used i

theorem oneByte_lt : 1 < 2 ^ 49 := by
  decide

def twoTaken : Bitmap :=
  { addr := 0x2000, size := 1, byte := fun _ => 0b101#8, size_lt := oneByte_lt }

theorem run_palloc_two_taken :
    Run twoTaken ⟨setRun twoTaken 3 2, [⟨0x3000, 2⟩]⟩ ∧
    ∀ i, bitmap_test (setRun twoTaken 3 2) i = true ↔
      bitmap_test twoTaken i = true ∨ ∃ grant ∈ [Grant.mk 0x3000 2], i ∈ grant.run := by
  have hrun : Run twoTaken ⟨setRun twoTaken 3 2, [⟨0x3000, 2⟩]⟩ := by
    apply @Run.step _ _ _ (.palloc 2) Run.start
    . exact ⟨by decide, 3, by decide⟩
    . rfl
  exact ⟨hrun, (Run.grants_disjoint_and_taken hrun).2.2.2⟩

end Heap
end Pmm
end Franklin
