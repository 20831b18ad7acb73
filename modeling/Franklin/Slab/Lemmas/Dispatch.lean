import Franklin.Slab.Lemmas.Freelist
import Franklin.Slab.Lemmas.Separated

/-!
This module contains that the addresses of the blocks of a slab and of the large allocations are told apart by the
test of `kfree`.
-/

namespace Franklin
namespace Slab

/--
The blocks that `newslab` puts on the free list: the first one, and the ones that the loop has linked behind it.
-/
inductive newslab.Puts (st : Slabber) (slab size : Nat) : Nat → Prop where
  | first : Puts st slab size (st.freelist slab)
  | next {block : Nat} (h : Puts st slab size block) (hlimit : block + size < slab + PGSIZE)
      : Puts st slab size (st.mem block)

/--
`kfree` gives every live pointer to the allocator that it comes from: the large ones to `kfreelarge`, and the other
ones are not aligned to a page.
-/
def Sys.Dispatched (sys : Sys) : Prop :=
  ∀ a ∈ sys.live,
    if PGSIZE < a.size then
      ∀ fuel, kfree sys.st a.ptr fuel = .ret (kfreelarge sys.st a.ptr)
    else
      a.ptr % PGSIZE ≠ 0

/--
The calls that keep clear of what goes wrong in `newslab`, `kfree` and `DIV_ROUNDUP`: a small allocation does not take
the link that was never set, a large one does not wrap around, and the page behind a block that is freed does not hold
a slab. A block may be longer than what is left of its page, but then its owner must not write past the page.
-/
def Sys.Clear (sys : Sys) : Call → Prop
  | .kalloc size pg => if PGSIZE < size then size ≤ 2 ^ 64 - PGSIZE else kalloc.LinkOk sys.st size pg
  | .kfree ptr => ptr % PGSIZE = 0 ∨ ¬sys.st.OnList (ptr / PGSIZE * PGSIZE + PGSIZE)
  | .write addr _ =>
    ∃ a ∈ sys.live, a.ptr ≤ addr ∧ addr < a.ptr + a.size ∧ (a.ptr % PGSIZE ≠ 0 → addr / PGSIZE = a.ptr / PGSIZE)

variable {st st' : Slabber} {own : Nat → Owner} {slabs : List Nat} {live : List Alloc} {b size slab : Nat} {pg : Pages}

theorem P2V_mod_of_aligned {p : Nat} (h : p % PGSIZE = 0) : P2V p % PGSIZE = 0 := by
  have haligned : Vmm.HHDM_OFFSET.toNat % PGSIZE = 0 := rfl
  unfold P2V
  generalize Vmm.HHDM_OFFSET.toNat = off at *
  unfold PGSIZE at *
  omega

theorem newslab.Spec.puts {contents : Nat → Nat} (hspec : newslab.Spec st size slab contents st')
    (h : newslab.Puts st' slab size b) : ∃ j, b = newslab.block slab size j ∧ sizeofSlab + j * size < PGSIZE := by
  induction h with
  | first =>
    refine ⟨0, ?_, ?_⟩
    . rw [hspec.freelist]
      simp [newslab.block]
    . simp [sizeofSlab, PGSIZE]
  | next _ hlimit ih =>
    rcases ih with ⟨j, rfl, hj⟩
    rw [← newslab.block_succ] at hlimit
    have hnext : sizeofSlab + j * size + size < PGSIZE := by
      rw [newslab.block_succ] at hlimit
      unfold newslab.block at hlimit
      omega
    refine ⟨j + 1, ?_, ?_⟩
    . rw [newslab.block_succ]
      exact hspec.link j hnext
    . rw [Nat.succ_mul]
      omega

theorem newslab_puts_mod (hpos : 0 < size) (halign : pg.paddr % PGSIZE = 0)
    (h : newslab.Puts (newslab st size pg).2 (newslab st size pg).1 size b) : b % PGSIZE ≠ 0 := by
  rw [newslab_fst] at h
  rcases (newslab_spec hpos).puts h with ⟨j, rfl, hj⟩
  have hslab := P2V_mod_of_aligned halign
  unfold newslab.block
  generalize P2V pg.paddr = slab at *
  generalize j * size = off at *
  unfold sizeofSlab PGSIZE at *
  omega

theorem kalloclarge_mod (st : Slabber) (size : Nat) (halign : pg.paddr % PGSIZE = 0)
    : (kalloclarge st size pg).1 % PGSIZE = 0 := by
  have hmetadata := P2V_mod_of_aligned halign
  unfold kalloclarge
  dsimp only
  split
  . rfl
  . dsimp only
    generalize P2V pg.paddr = metadata at *
    unfold PGSIZE at *
    omega

theorem Sys.Kept.after_write {a : Alloc} {addr : Nat} (h : Sys.Kept ⟨st, live⟩ own slabs) (ha : a ∈ live)
    (h1 : a.ptr ≤ addr) (h2 : addr < a.ptr + a.size)
    (hpage : a.ptr % PGSIZE ≠ 0 → addr / PGSIZE = a.ptr / PGSIZE) (val : Nat)
    : Sys.Kept ⟨st.store addr val, live⟩ own slabs := by
  refine ⟨?_, h.live⟩
  cases h.live.owned a ha with
  | inr hlarge =>
    exact h.heap.after_write (Or.inr hlarge) (fun hmod => absurd hlarge.ptr_mod hmod) h1 h2 val
  | inl hsmall =>
    -- Only the bytes up to the end of the page count.
    have hmod := h.heap.ptr_mod_of_small hsmall
    have hsame := hpage hmod
    have hdiv := Nat.div_add_mod addr PGSIZE
    have hdiv' := Nat.div_add_mod a.ptr PGSIZE
    have hlt := Nat.mod_lt addr (show PGSIZE > 0 by decide)
    rw [hsame] at hdiv
    let part : Alloc := ⟨a.ptr, min a.size (PGSIZE - a.ptr % PGSIZE)⟩
    have hpart : part.Small own := by
      rcases hsmall with ⟨page, s, k, j, hown, hj, hptr, hs, hsize⟩
      exact ⟨page, s, k, j, hown, hj, hptr, (Nat.min_le_left _ _).trans hs, (Nat.min_le_left _ _).trans hsize⟩
    have hfits : part.Fits := by
      intro _
      have hle := Nat.min_le_right a.size (PGSIZE - a.ptr % PGSIZE)
      have hlt' := Nat.mod_lt a.ptr (show PGSIZE > 0 by decide)
      show a.ptr % PGSIZE + min a.size (PGSIZE - a.ptr % PGSIZE) ≤ PGSIZE
      omega
    apply h.heap.after_write (Or.inl hpart) hfits h1
    show addr < a.ptr + min a.size (PGSIZE - a.ptr % PGSIZE)
    omega

theorem Sys.Kept.step {sys sys' : Sys} {call : Call} (h : sys.Kept own slabs) (hclear : sys.Clear call)
    (hstep : Step sys call sys') : ∃ own' slabs', sys'.Kept own' slabs' := by
  cases hstep with
  | kalloc _ hpg hk => exact h.after_kalloc hclear hpg hk
  | kfree ha hk =>
    rcases h.after_kfree hclear ha hk with ⟨own', hkept⟩
    exact ⟨own', slabs, hkept⟩
  | write _ _ _ =>
    rcases hclear with ⟨a, ha, h1, h2, hpage⟩
    exact ⟨own, slabs, h.after_write ha h1 h2 hpage _⟩

theorem Run.exists_kept {sys : Sys} (h : Run Sys.Clear sys) : ∃ own slabs, sys.Kept own slabs := by
  induction h with
  | boot mem inUse => exact ⟨_, _, (Sys.Inv.boot mem inUse).kept⟩
  | step _ hclear hstep ih =>
    rcases ih with ⟨own, slabs, hkept⟩
    exact hkept.step hclear hstep

theorem Sys.Kept.dispatched {sys : Sys} (h : sys.Kept own slabs) : sys.Dispatched := by
  intro a ha
  cases h.live.owned a ha with
  | inl hsmall =>
    have hmod := h.heap.ptr_mod_of_small hsmall
    rcases hsmall with ⟨_, _, _, _, _, _, _, _, hsize⟩
    rw [if_neg (Nat.not_lt.mpr hsize)]
    exact hmod
  | inr hlarge =>
    have hmod := hlarge.ptr_mod
    rcases hlarge with ⟨f, c, _, hptr, _, hsize⟩
    rw [if_pos hsize]
    intro fuel
    have hne : a.ptr ≠ 0 := by
      rw [hptr]
      exact pageAddr_ne_zero (f + 1)
    unfold kfree
    rw [if_neg hne, if_pos hmod]

/--
The two kinds of addresses are apart whatever the state is, and the live pointers are of the kind of their allocator
in every run that keeps clear of the links that were never set.
-/
theorem Run.live_dispatched {sys : Sys} (h : Run Sys.Clear sys)
    : (∀ st n pg b, n ≤ PGSIZE → pg.paddr % PGSIZE = 0 →
        newslab.Puts (newslab st (kalloc.blockSize n) pg).2 (newslab st (kalloc.blockSize n) pg).1
          (kalloc.blockSize n) b → b % PGSIZE ≠ 0)
        ∧ (∀ st n pg, pg.paddr % PGSIZE = 0 → (kalloclarge st n pg).1 % PGSIZE = 0)
        ∧ sys.Dispatched := by
  refine ⟨?_, ?_, ?_⟩
  . intro st n pg b hn halign hputs
    rcases kalloc.blockSize_eq hn with ⟨k, _, _, _, hpow⟩
    have hpos : 0 < kalloc.blockSize n := by
      rw [hpow]
      exact Nat.two_pow_pos k
    exact newslab_puts_mod hpos halign hputs
  . intro st n pg halign
    exact kalloclarge_mod st n halign
  . rcases h.exists_kept with ⟨own, slabs, hkept⟩
    exact hkept.dispatched

theorem live_dispatched_small_and_large
    : (newslab Sys.zero.st (kalloc.blockSize 16) (zeroPages 0x1000)).2.freelist
          (newslab Sys.zero.st (kalloc.blockSize 16) (zeroPages 0x1000)).1 % PGSIZE ≠ 0
        ∧ (kalloclarge Sys.zero.st 5000 (zeroPages 0x5000)).1 % PGSIZE = 0
        ∧ ∃ sys, Run Sys.Clear sys ∧
            sys.live = [⟨18446603336221220864, 5000⟩, ⟨18446603336221200424, 16⟩] ∧ sys.Dispatched := by
  have hsmall : Sys.zero.Clear (.kalloc 16 (zeroPages 0x1000)) := by
    simp only [Sys.Clear]
    rw [if_neg (by decide)]
    exact Sys.zero_linkOk 16 0x1000
  have hlarge : ∀ sys, Sys.Clear sys (.kalloc 5000 (zeroPages 0x5000)) := by
    intro sys
    simp [Sys.Clear, PGSIZE]
  rcases run_small_and_large hsmall hlarge with ⟨sys, hrun, hlive⟩
  rcases Run.live_dispatched hrun with ⟨hputs, hmod, hdispatched⟩
  refine ⟨?_, ?_, sys, hrun, hlive, hdispatched⟩
  . exact hputs Sys.zero.st 16 (zeroPages 0x1000) _ (by decide) (by decide) .first
  . exact hmod Sys.zero.st 5000 (zeroPages 0x5000) (by decide)

/-!
A page that has been used before, with addresses of an other page in it.
-/

def stalePage : Pages :=
  { paddr := 0x1000, contents := fun _ => 0xffff800000005000 }

theorem kalloc_stale_aligned
    : ∃ sys, Run (fun _ call => call = .kalloc 4096 stalePage) sys ∧ ¬sys.Dispatched := by
  have hfirst : (kalloc Sys.zero.st 4096 stalePage 1).map Prod.fst = some 18446603336221200424 := by
    decide +kernel
  rcases Option.map_eq_some_iff.mp hfirst with ⟨⟨ptr, st⟩, hk, rfl⟩
  have hsecond : ((kalloc Sys.zero.st 4096 stalePage 1).bind fun res =>
      (kalloc res.2 4096 stalePage 1).map fun res' => (res'.1, kalloc.pages res.2 4096 1))
        = some (18446603336221216768, 0) := by
    decide +kernel
  rw [hk, Option.bind_some] at hsecond
  rcases Option.map_eq_some_iff.mp hsecond with ⟨⟨ptr', st'⟩, hk', hres⟩
  obtain ⟨rfl, hpages⟩ := Prod.mk.inj hres
  have hfresh : stalePage.Fresh Sys.zero.st (kalloc.pages Sys.zero.st 4096 1) := by
    apply Pages.fresh_one
    . rfl
    . decide
    . rfl
  have hfresh' : stalePage.Fresh st (kalloc.pages st 4096 1) := by
    rw [hpages]
    refine ⟨rfl, by decide, ?_⟩
    intro page h1 h2
    omega
  refine ⟨_, Run.step (Run.step (Run.boot _ _) rfl (Step.kalloc (by decide) hfresh hk)) rfl
    (Step.kalloc (by decide) hfresh' hk'), ?_⟩
  intro hdispatched
  have hblock := hdispatched ⟨18446603336221216768, 4096⟩ (List.mem_cons_self ..)
  rw [if_neg (by decide)] at hblock
  exact hblock (by decide)

end Slab
end Franklin
