import Franklin.Pmm.Lemmas.Scan
import Franklin.Pmm.Words

/-!
This module contains that the accessors of `franklin/mmu.h` and the ones of `franklin/bitmap.h` address the same bits.
-/

namespace Franklin
namespace Pmm

variable {bm bm' : Bitmap} {page : BitVec 32} {i j n : Nat}

theorem Bitmap.eq_of_test (haddr : bm.addr = bm'.addr) (hsize : bm.size = bm'.size)
    (h : ∀ i, bitmap_test bm i = bitmap_test bm' i) : bm = bm' := by
  rcases bm with ⟨addr, size, byte, _⟩
  rcases bm' with ⟨addr', size', byte', _⟩
  have hbyte : byte = byte' := by
    funext k
    apply BitVec.eq_of_getLsbD_eq
    intro j hj
    have hbit := h (8 * k + j)
    rw [bitmap_test_eq_getLsbD, bitmap_test_eq_getLsbD, Nat.mul_add_div (by omega), Nat.div_eq_of_lt hj,
      Nat.mul_add_mod, Nat.mod_eq_of_lt hj] at hbit
    exact hbit
  subst haddr hsize hbyte
  rfl

section Accessors

theorem Bitmap.getLsbD_word (bm : Bitmap) (i : Nat) (hj : j < 64)
    : (bm.word i).getLsbD j = bitmap_test bm (64 * i + j) := by
  have hbyte : (64 * i + j) / 8 = 8 * i + j / 8 := by omega
  have hbit : (64 * i + j) % 8 = j % 8 := by omega
  unfold word
  rw [Endian.getLsbD_word _ hj, bitmap_test_eq_getLsbD, hbyte, hbit]

theorem Bitmap.test_storeWord (bm : Bitmap) (i : Nat) (val : BitVec 64) (j : Nat)
    : bitmap_test (bm.storeWord i val) j = if j / 64 = i then val.getLsbD (j % 64) else bitmap_test bm j := by
  have hword : j / 8 / 8 = j / 64 := Nat.div_div_eq_div_mul j 8 8
  rw [bitmap_test_eq_getLsbD, bitmap_test_eq_getLsbD]
  unfold storeWord
  dsimp only
  rw [hword]
  split
  . rw [Endian.getLsbD_byte _ _ (Nat.mod_lt j (by omega))]
    congr 1
    omega
  . rfl

theorem and_shift_eq_zero_iff {w : Nat} (v : BitVec w) (hj : j < w)
    : v &&& (1#w <<< j) = 0#w ↔ v.getLsbD j = false := by
  rw [← BitVec.twoPow_eq, BitVec.and_twoPow]
  constructor
  . intro h
    by_contra hbit
    rw [Bool.not_eq_false] at hbit
    rw [if_pos hbit] at h
    have hone := BitVec.getLsbD_twoPow (w := w) j j
    rw [h, BitVec.getLsbD_zero] at hone
    simp [hj] at hone
  . intro hbit
    rw [if_neg (by rw [hbit]; decide)]

theorem isfree_eq (bm : Bitmap) (page : BitVec 32) : isfree bm page = !bitmap_test bm page.toNat := by
  have hlt : page.toNat % 64 < 64 := Nat.mod_lt _ (by omega)
  unfold isfree
  rw [Bool.eq_iff_iff, beq_iff_eq, and_shift_eq_zero_iff _ hlt, bm.getLsbD_word _ hlt, Nat.div_add_mod,
    Bool.not_eq_eq_eq_not, Bool.not_true]

theorem test_togglepage (bm : Bitmap) (page : BitVec 32) (i : Nat)
    : bitmap_test (togglepage bm page) i = (bitmap_test bm i ^^ decide (i = page.toNat)) := by
  have hlt : i % 64 < 64 := Nat.mod_lt i (by omega)
  unfold togglepage
  rw [Bitmap.test_storeWord]
  split
  . next hword =>
    rw [BitVec.getLsbD_xor, ← BitVec.twoPow_eq, BitVec.getLsbD_twoPow, bm.getLsbD_word _ hlt, ← hword,
      Nat.div_add_mod, decide_eq_true (Nat.mod_lt page.toNat (by omega)), Bool.true_and]
    congr 1
    rw [decide_eq_decide]
    omega
  . next hword =>
    rw [decide_eq_false (by rintro rfl; exact hword rfl), Bool.xor_false]

theorem togglepage_eq (bm : Bitmap) (page : BitVec 32)
    : togglepage bm page =
        if bitmap_test bm page.toNat then bitmap_reset bm page.toNat else bitmap_set bm page.toNat := by
  split
  . next htest =>
    refine Bitmap.eq_of_test (by rfl) (by rfl) ?_
    intro i
    rw [test_togglepage, bitmap_test_reset]
    by_cases hi : i = page.toNat
    . rw [hi, htest]
      simp
    . simp [hi]
  . next htest =>
    refine Bitmap.eq_of_test (by rfl) (by rfl) ?_
    intro i
    rw [test_togglepage, bitmap_test_set]
    by_cases hi : i = page.toNat
    . rw [hi, Bool.eq_false_iff.mpr htest]
      simp
    . simp [hi]

theorem getLsbD_promoted (byte : BitVec 8) (hj : j < 8) : (byte.signExtend 32).getLsbD j = byte.getLsbD j := by
  rw [BitVec.getLsbD_signExtend, decide_eq_true (by omega), Bool.true_and, if_pos hj]

theorem bitmap_promoted (bm : Bitmap) (bit : Nat)
    : (bitmap_test bm bit = ((bm.byte (bit / 8)).signExtend 32 &&& (1#32 <<< (bit % 8)) != 0#32))
        ∧ bitmap_set bm bit =
            bm.store (bit / 8) (((bm.byte (bit / 8)).signExtend 32 ||| (1#32 <<< (bit % 8))).setWidth 8)
        ∧ bitmap_reset bm bit =
            bm.store (bit / 8) (((bm.byte (bit / 8)).signExtend 32 &&& ~~~(1#32 <<< (bit % 8))).setWidth 8) := by
  have hlt : bit % 8 < 8 := Nat.mod_lt bit (by omega)
  refine ⟨?_, ?_, ?_⟩
  . rw [bitmap_test_eq_getLsbD, Bool.eq_iff_iff, bne_iff_ne, Ne, and_shift_eq_zero_iff _ (by omega),
      getLsbD_promoted _ hlt, Bool.not_eq_false]
  . unfold bitmap_set
    congr 1
    apply BitVec.eq_of_getLsbD_eq
    intro j hj
    rw [BitVec.getLsbD_setWidth, BitVec.getLsbD_or, BitVec.getLsbD_or, getLsbD_promoted _ hj, ← BitVec.twoPow_eq,
      ← BitVec.twoPow_eq, BitVec.getLsbD_twoPow, BitVec.getLsbD_twoPow]
    simp [hj, hlt, show bit % 8 < 32 by omega]
  . unfold bitmap_reset
    congr 1
    apply BitVec.eq_of_getLsbD_eq
    intro j hj
    rw [BitVec.getLsbD_setWidth, BitVec.getLsbD_and, BitVec.getLsbD_and, BitVec.getLsbD_not, BitVec.getLsbD_not,
      getLsbD_promoted _ hj, ← BitVec.twoPow_eq, ← BitVec.twoPow_eq, BitVec.getLsbD_twoPow, BitVec.getLsbD_twoPow]
    simp [hj, hlt, show bit % 8 < 32 by omega, show j < 32 by omega]

end Accessors

section Pallocaddr

theorem pallocaddr.loop_free (hlt : page.toNat + n < 2 ^ 32)
    (hfree : ∀ i, page.toNat ≤ i → i < page.toNat + n → bitmap_test bm i = false)
    : loop bm page n = some (setRun bm page.toNat n) := by
  induction n generalizing bm page with
  | zero => rfl
  | succ n ih =>
    have htest := hfree page.toNat (Nat.le_refl _) (by omega)
    have hnext : (page + 1).toNat = page.toNat + 1 := by
      rw [BitVec.toNat_add, Nat.mod_eq_of_lt]
      . rfl
      . show page.toNat + 1 < 2 ^ 32
        omega
    have htoggle : togglepage bm page = bitmap_set bm page.toNat := by
      rw [togglepage_eq, if_neg (by rw [htest]; decide)]
    unfold loop setRun
    rw [isfree_eq, htest, if_neg (by decide), htoggle, ih (by omega), hnext]
    intro i hi1 hi2
    rw [bitmap_test_set, hfree i (by omega) (by omega), decide_eq_false (by omega)]
    rfl

theorem pallocaddr.loop_busy (hlt : page.toNat + n < 2 ^ 32) (hi : page.toNat ≤ i) (hin : i < page.toNat + n)
    (hset : bitmap_test bm i = true) : loop bm page n = none := by
  induction n generalizing bm page with
  | zero => omega
  | succ n ih =>
    unfold loop
    split
    . rfl
    . next hfree =>
      have hne : i ≠ page.toNat := by
        rintro rfl
        rw [isfree_eq, hset] at hfree
        exact hfree rfl
      have hnext : (page + 1).toNat = page.toNat + 1 := by
        rw [BitVec.toNat_add, Nat.mod_eq_of_lt]
        . rfl
        . show page.toNat + 1 < 2 ^ 32
          omega
      apply ih
      . omega
      . omega
      . omega
      . rw [test_togglepage, hset, decide_eq_false hne]
        rfl

/--
The pages that `pallocaddr` is called for, their numbers are computed in `uint32_t`.
-/
def pallocaddr.run (size : BitVec 32) (paddr : BitVec 64) : Set Nat :=
  Set.Ico (paddr.toNat / PGSIZE % 2 ^ 32) ((paddr.toNat / PGSIZE % 2 ^ 32 + size.toNat) % 2 ^ 32)

theorem Ico_add_sub (i j : Nat) : Set.Ico i (i + (j - i)) = Set.Ico i j := by
  ext k
  rw [Set.mem_Ico, Set.mem_Ico]
  omega

theorem pallocaddr_eq (bm : Bitmap) (size : BitVec 32) (paddr : BitVec 64)
    : ∃ pfn limit : BitVec 32, pallocaddr.run size paddr = Set.Ico pfn.toNat limit.toNat
        ∧ pallocaddr bm size paddr =
            (pallocaddr.loop bm pfn (limit.toNat - pfn.toNat)).map fun bm => (paddr, bm) := by
  refine ⟨(paddr / BitVec.ofNat 64 PGSIZE).setWidth 32, (paddr / BitVec.ofNat 64 PGSIZE).setWidth 32 + size, ?_, ?_⟩
  . rw [BitVec.toNat_add, BitVec.toNat_setWidth, BitVec.toNat_udiv]
    rfl
  . unfold pallocaddr
    dsimp only
    rw [Option.map_eq_bind]
    rfl

theorem pallocaddr_free {size : BitVec 32} {paddr : BitVec 64} (h : Disjoint bm.taken (pallocaddr.run size paddr))
    : ∃ bm', pallocaddr bm size paddr = some (paddr, bm') ∧ bm'.taken = bm.taken ∪ pallocaddr.run size paddr := by
  rcases pallocaddr_eq bm size paddr with ⟨pfn, limit, hrun, heq⟩
  rw [hrun] at h ⊢
  have hlt := limit.isLt
  have hpfn := pfn.isLt
  have hfree : ∀ i, pfn.toNat ≤ i → i < pfn.toNat + (limit.toNat - pfn.toNat) → bitmap_test bm i = false := by
    intro i hi1 hi2
    rw [← Bool.not_eq_true, ← Bitmap.mem_taken]
    exact Set.disjoint_right.mp h ⟨hi1, by omega⟩
  refine ⟨setRun bm pfn.toNat (limit.toNat - pfn.toNat), ?_, ?_⟩
  . rw [heq, pallocaddr.loop_free (by omega) hfree]
    rfl
  . rw [setRun_taken, Ico_add_sub]

theorem pallocaddr_busy {size : BitVec 32} {paddr : BitVec 64} (h : ¬ Disjoint bm.taken (pallocaddr.run size paddr))
    : pallocaddr bm size paddr = none := by
  rcases pallocaddr_eq bm size paddr with ⟨pfn, limit, hrun, heq⟩
  rw [hrun, Set.not_disjoint_iff] at h
  rcases h with ⟨i, hset, hle, hi⟩
  have hlt := limit.isLt
  rw [heq, pallocaddr.loop_busy (by omega) hle (by omega) hset]
  rfl

end Pallocaddr

section Palloc

/--
The pages from `p` on, the limit is computed in `size_t`.
-/
def palloc.run (p pages : Nat) : Set Nat :=
  Set.Ico p ((p + pages) % 2 ^ 64)

theorem palloc.scanbitmap_first {pages p q fuel : Nat} (h : scanbitmap bm pages p fuel = some q)
    : p ≤ q ∧ Disjoint bm.taken (run q pages) ∧ ∀ p', p ≤ p' → p' < q → ¬ Disjoint bm.taken (run p' pages) := by
  induction fuel generalizing p with
  | zero => cases h
  | succ fuel ih =>
    unfold scanbitmap at h
    rcases scanRun_cases bm p ((p + pages) % 2 ^ 64 - p) with ⟨hscan, hclear⟩ | ⟨j, hj1, hj2, -, hend⟩
    . rw [hscan] at h
      obtain rfl := Option.some.inj h
      refine ⟨Nat.le_refl p, ?_, by omega⟩
      rw [Set.disjoint_right]
      intro i hi
      rw [Bitmap.mem_taken, (hclear i hi.1 (by have := hi.2; omega)).2]
      exact Bool.false_ne_true
    . rcases hend with ⟨hscan, -, hset⟩ | ⟨hscan, -⟩
      . rw [hscan] at h
        rcases ih h with ⟨hle, hfree, hleast⟩
        refine ⟨by omega, hfree, ?_⟩
        intro p' hp hp'
        cases Nat.eq_or_lt_of_le hp with
        | inl heq =>
          subst heq
          rw [Set.not_disjoint_iff]
          exact ⟨j, hset, hj1, by omega⟩
        | inr hlt => exact hleast p' hlt hp'
      . rw [hscan] at h
        cases h

end Palloc

section Calls

/--
What a call returns and does, told by the map alone, in which `taken` are the pages that are not free.
-/
inductive PageCall.Does (taken : Set Nat) : PageCall → Option Nat → Set Nat → Prop where
  | palloc {p pages : Nat} (hfree : Disjoint taken (palloc.run p pages))
      (hleast : ∀ p' < p, ¬ Disjoint taken (palloc.run p' pages))
      : Does taken (.palloc pages) (some (p * PGSIZE % 2 ^ 64)) (taken ∪ palloc.run p pages)
  | pallocaddr {size : BitVec 32} {paddr : BitVec 64} (hfree : Disjoint taken (pallocaddr.run size paddr))
      : Does taken (.pallocaddr size paddr) (some paddr.toNat) (taken ∪ pallocaddr.run size paddr)
  | freepg {addr length : Nat}
      : Does taken (.freepg addr length) none
          (taken \ Set.Ico (addr / PGSIZE) (addr / PGSIZE + length % 2 ^ 32))

inductive Runs {σ : Type} (step : σ → PageCall → Option Nat → σ → Prop) (s : σ)
    : List (PageCall × Option Nat) → σ → Prop where
  | nil : Runs step s [] s
  | snoc {calls : List (PageCall × Option Nat)} {call : PageCall} {r : Option Nat} {s' s'' : σ}
      (h : Runs step s calls s') (hstep : step s' call r s'') : Runs step s (calls ++ [(call, r)]) s''

theorem Runs.map {σ τ : Type} {step : σ → PageCall → Option Nat → σ → Prop}
    {step' : τ → PageCall → Option Nat → τ → Prop} {f : σ → τ} {s s' : σ} {calls : List (PageCall × Option Nat)}
    (h : Runs step s calls s') (hstep : ∀ s call r s', step s call r s' → step' (f s) call r (f s'))
    : Runs step' (f s) calls (f s') := by
  induction h with
  | nil => exact .nil
  | snoc _ hcall ih => exact ih.snoc (hstep _ _ _ _ hcall)

theorem PageCall.exec_does {call : PageCall} {r : Option Nat} (h : call.exec bm = some (r, bm'))
    : call.Does bm.taken r bm'.taken := by
  cases call with
  | palloc pages =>
    rcases Option.map_eq_some_iff.mp h with ⟨⟨addr, bm''⟩, hpalloc, hres⟩
    obtain ⟨rfl, rfl⟩ := Prod.mk.inj hres
    unfold Pmm.palloc at hpalloc
    cases hscan : palloc.scanbitmap bm pages 0 (bm.pages + 1) with
    | none =>
      rw [hscan] at hpalloc
      cases hpalloc
    | some p =>
      rw [hscan] at hpalloc
      obtain ⟨rfl, rfl⟩ := Prod.mk.inj (Option.some.inj hpalloc)
      rcases palloc.scanbitmap_first hscan with ⟨-, hfree, hleast⟩
      rw [setRun_taken, Ico_add_sub]
      exact .palloc hfree (fun p' hp' => hleast p' (Nat.zero_le p') hp')
  | pallocaddr size paddr =>
    rcases Option.map_eq_some_iff.mp h with ⟨⟨addr, bm''⟩, hpallocaddr, hres⟩
    obtain ⟨rfl, rfl⟩ := Prod.mk.inj hres
    by_cases hfree : Disjoint bm.taken (pallocaddr.run size paddr)
    . rcases pallocaddr_free hfree with ⟨bm'', heq, htaken⟩
      rw [heq] at hpallocaddr
      obtain ⟨rfl, rfl⟩ := Prod.mk.inj (Option.some.inj hpallocaddr)
      rw [htaken]
      exact .pallocaddr hfree
    . rw [pallocaddr_busy hfree] at hpallocaddr
      cases hpallocaddr
  | freepg addr length =>
    obtain ⟨rfl, rfl⟩ := Prod.mk.inj (Option.some.inj h)
    unfold Pmm.freepg
    rw [resetRun_taken]
    exact .freepg

theorem pallocaddr_none_iff (bm : Bitmap) (size : BitVec 32) (paddr : BitVec 64)
    : pallocaddr bm size paddr = none ↔ ∃ i ∈ pallocaddr.run size paddr, bitmap_test bm i = true := by
  constructor
  . intro hnone
    by_contra hall
    have hfree : Disjoint bm.taken (pallocaddr.run size paddr) := by
      rw [Set.disjoint_right]
      intro i hi hset
      exact hall ⟨i, hi, hset⟩
    rcases pallocaddr_free hfree with ⟨bm', heq, -⟩
    rw [heq] at hnone
    cases hnone
  . rintro ⟨i, hi, hset⟩
    exact pallocaddr_busy (Set.not_disjoint_iff.mpr ⟨i, hset, hi⟩)

/--
The words and the bytes are the same bits, so every run of the calls is one of the map, and each of the two kinds of
accessors reads the map of the state that the run has led to.
-/
theorem accessors_one_map (bm : Bitmap)
    : (∀ page, isfree bm page = !bitmap_test bm page.toNat)
        ∧ (∀ page, togglepage bm page =
            if bitmap_test bm page.toNat then bitmap_reset bm page.toNat else bitmap_set bm page.toNat)
        ∧ (∀ page i, i ≠ page.toNat → bitmap_test (togglepage bm page) i = bitmap_test bm i)
        ∧ ∀ calls bm', Runs (fun bm call r bm' => call.exec bm = some (r, bm')) bm calls bm' →
            Runs PageCall.Does bm.taken calls bm'.taken
              ∧ (∀ page, isfree bm' page = true ↔ page.toNat ∉ bm'.taken)
              ∧ (∀ i, bitmap_test bm' i = true ↔ i ∈ bm'.taken)
              ∧ ∀ size paddr, (PageCall.pallocaddr size paddr).exec bm' = none
                  ↔ ∃ i ∈ pallocaddr.run size paddr, i ∈ bm'.taken := by
  refine ⟨isfree_eq bm, togglepage_eq bm, ?_, ?_⟩
  . intro page i hne
    rw [test_togglepage, decide_eq_false hne, Bool.xor_false]
  . intro calls bm' hruns
    refine ⟨hruns.map (fun _ _ _ _ h => PageCall.exec_does h), ?_, fun i => Iff.rfl, ?_⟩
    . intro page
      rw [isfree_eq, Bool.not_eq_true', Bitmap.mem_taken, Bool.not_eq_true]
    . intro size paddr
      unfold PageCall.exec
      rw [Option.map_eq_none_iff]
      exact pallocaddr_none_iff bm' size paddr

theorem twoTaken_free : Disjoint Heap.twoTaken.taken (pallocaddr.run 2 0x3000) := by
  have hrun : pallocaddr.run 2 0x3000 = Set.Ico 3 (3 + 2) := rfl
  have hfree : FreeRun Heap.twoTaken 3 2 := by decide
  rw [hrun]
  exact hfree.disjoint_taken

theorem accessors_one_map_twoTaken
    : bitmap_test (togglepage Heap.twoTaken 1) 2 = true
        ∧ ∃ bm', Runs PageCall.Does Heap.twoTaken.taken [(.pallocaddr 2 0x3000, some 0x3000)] bm'.taken
            ∧ (isfree bm' 3 = true ↔ 3 ∉ bm'.taken) := by
  rcases accessors_one_map Heap.twoTaken with ⟨-, -, hother, hruns⟩
  constructor
  . rw [hother 1 2 (by decide)]
    decide
  . rcases pallocaddr_free twoTaken_free with ⟨bm', heq, -⟩
    have hstep : (PageCall.pallocaddr 2 0x3000).exec Heap.twoTaken = some (some 0x3000, bm') := by
      simp only [PageCall.exec, heq]
      rfl
    rcases hruns _ bm' (Runs.nil.snoc hstep) with ⟨hdoes, hfree, -⟩
    exact ⟨bm', hdoes, hfree 3⟩

end Calls

end Pmm
end Franklin
