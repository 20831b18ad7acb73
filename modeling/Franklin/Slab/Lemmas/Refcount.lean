import Franklin.Slab.Lemmas.Separated

/-!
This module contains the reference counts of the slabs. They agree with the live blocks as long as
nothing is freed; `kfree` never gives a block back to the slab that it came from.
-/

namespace Franklin
namespace Slab

/--
The number of live blocks in the page that starts at `slab`.
-/
def Sys.blocksIn (sys : Sys) (slab : Nat) : Nat :=
  sys.live.countP fun a => slab ≤ a.ptr ∧ a.ptr < slab + PGSIZE

/--
`kfree(ptr)` puts the block back on the free list of the slab whose page it lies in, or it frees that
page.
-/
def kfree.GivesBack (st : Slabber) (ptr : Nat) (st' : Slabber) : Prop :=
  let slab := ptr / PGSIZE * PGSIZE
  st'.freelist slab = ptr ∧ st'.refcount slab + 1 = st.refcount slab ∨
    st'.inUse (V2P slab / PGSIZE) = false

/--
Calls of `kalloc` for at most a page, none of which reads a link that was never set.
-/
def Sys.OnlyKalloc (sys : Sys) : Call → Prop
  | .kalloc size pg => size ≤ PGSIZE ∧ kalloc.LinkOk sys.st size pg
  | .kfree _ => False
  | .write _ _ => False

structure Sys.CountInv (sys : Sys) (own : Nat → Owner) (slabs : List Nat) : Prop where
  heap : Slab.Inv sys.st own slabs
  live : LiveInv own sys.live
  small : ∀ a ∈ sys.live, a.Small own
  count : ∀ page s k, own page = .slab s k → 1 ≤ k ∧ sys.blocksIn (pageAddr page) = k

theorem Sys.CountInv.boot (mem : Nat → Nat) (inUse : Nat → Bool)
    : (Sys.boot mem inUse).CountInv (fun _ => .none) [] where
  heap := Slab.Inv.boot mem inUse
  live := (Sys.Inv.boot mem inUse).live
  small := by
    intro a ha
    cases ha
  count := by
    intro page s k hown
    cases hown

variable {st st' : Slabber} {own own' : Nat → Owner} {slabs : List Nat} {live : List Alloc}

theorem Inv.small_page {a : Alloc} (h : Inv st own slabs) (ha : a.Small own)
    : ∃ page s k, own page = .slab s k ∧ pageAddr page ≤ a.ptr ∧ a.ptr < pageAddr page + PGSIZE := by
  rcases ha with ⟨page, s, k, j, hown, hj, hptr, _⟩
  have hlt := ((h.slab page s k hown).block_lt hj).1
  exact ⟨page, s, k, hown, by omega, by omega⟩

theorem Sys.CountInv.blocksIn_of_none {page : Nat} (h : Sys.CountInv ⟨st, live⟩ own slabs)
    (hnone : own page = .none) : Sys.blocksIn ⟨st, live⟩ (pageAddr page) = 0 := by
  unfold Sys.blocksIn
  rw [List.countP_eq_zero]
  intro a ha hin
  rcases h.heap.small_page (h.small a ha) with ⟨page', s, k, hown, h1, h2⟩
  rw [decide_eq_true_iff] at hin
  have heq := eq_of_mem_page hin.1 hin.2 h1 h2
  rw [heq, hown] at hnone
  cases hnone

theorem Sys.CountInv.after_kalloc {size ptr fuel : Nat} {pg : Pages}
    (h : Sys.CountInv ⟨st, live⟩ own slabs) (hsize : size ≤ PGSIZE)
    (hlink : kalloc.LinkOk st size pg) (hpg : pg.Fresh st (kalloc.pages st size fuel))
    (hk : kalloc st size pg fuel = some (ptr, st'))
    : ∃ own' slabs', Sys.CountInv ⟨st', ⟨ptr, size⟩ :: live⟩ own' slabs' := by
  rcases h.heap.kalloc_small hsize hpg hlink hk with ⟨own', slabs', page, k, hinv, hgrows⟩
  rcases kalloc.blockSize_eq hsize with ⟨e, _, _, hle, hpow⟩
  have hlive := hgrows.live h.heap h.live (show size ≤ kalloc.blockSize size by omega) hsize
  refine ⟨own', slabs', hinv, hlive, ?_, ?_⟩
  . intro a ha
    cases hlive.owned a ha with
    | inl hsmall => apply hsmall
    | inr hlarge =>
      rcases hlarge with ⟨_, _, _, _, _, hgt⟩
      cases List.mem_cons.mp ha with
      | inl heq =>
        rw [heq] at hgt
        exact absurd hsize (Nat.not_le_of_lt hgt)
      | inr hmem =>
        rcases h.small a hmem with ⟨_, _, _, _, _, _, _, _, hle⟩
        omega
  . intro page' s' k' hown'
    have hptr := hgrows.ptr_eq
    have hin := hgrows.in_page
    rw [hgrows.own_eq] at hown'
    unfold Sys.blocksIn
    rw [List.countP_cons]
    by_cases heq : page' = page
    . subst heq
      rw [Function.update_self, Owner.slab.injEq] at hown'
      rw [if_pos (by rw [decide_eq_true_iff]; dsimp only; omega)]
      have hold : Sys.blocksIn ⟨st, live⟩ (pageAddr page') = k := by
        cases hgrows.before with
        | inl hslab => exact (h.count _ _ _ hslab).2
        | inr hnone =>
          rw [hnone.2]
          apply h.blocksIn_of_none hnone.1
      unfold Sys.blocksIn at hold
      dsimp only at hold ⊢
      omega
    . rw [Function.update_of_ne heq] at hown'
      have hcount := h.count page' s' k' hown'
      unfold Sys.blocksIn at hcount
      rw [if_neg]
      . apply hcount
      . intro hmem
        rw [decide_eq_true_iff] at hmem
        apply heq
        apply eq_of_mem_page hmem.1 hmem.2 <;> dsimp only <;> omega

theorem Run.exists_countInv {sys : Sys} (h : Run Sys.OnlyKalloc sys)
    : ∃ own slabs, sys.CountInv own slabs := by
  induction h with
  | boot mem inUse => exact ⟨_, _, Sys.CountInv.boot mem inUse⟩
  | step _ hok hstep ih =>
    rcases ih with ⟨own, slabs, hinv⟩
    cases hstep with
    | kfree => cases hok
    | write => cases hok
    | kalloc _ hpg hk =>
      rcases hinv.after_kalloc hok.1 hok.2 hpg hk with ⟨own', slabs', hinv'⟩
      refine ⟨own', slabs', ?_⟩
      rw [if_neg]
      . apply hinv'
      . intro hzero
        rcases hinv'.small _ List.mem_cons_self with ⟨page, s, k, j, _, _, hptr, _⟩
        dsimp only at hptr
        unfold sizeofSlab at hptr
        omega

inductive kfree.Effect (st : Slabber) (ptr slab : Nat) : Slabber → Prop where
  | nothing : Effect st ptr slab st
  | freed {st' : Slabber} {fuel : Nat} (hcount : st.refcount slab = 1)
      (h : freeslab (st.store (slab + 16) 0) slab fuel = some st') : Effect st ptr slab st'
  | inserted (hcount : 1 < st.refcount slab)
      : Effect st ptr slab
          (((st.store (slab + 16) (st.refcount slab - 1)).store ptr (st.freelist slab)).store
            (slab + 32) ptr)

theorem Slabber.store_refcount (st : Slabber) (slab val : Nat)
    : (st.store (slab + 16) val).refcount slab = val := by
  simp [Slabber.store, Slabber.refcount]

theorem Slabber.store_freelist (st : Slabber) (slab val : Nat)
    : (st.store (slab + 16) val).freelist slab = st.freelist slab := by
  simp [Slabber.store, Slabber.freelist]

theorem Inv.kfree_effect {ptr page fuel : Nat} (h : Inv st own slabs) (h1 : pageAddr page ≤ ptr)
    (h2 : ptr < pageAddr page + PGSIZE) (hmod : ptr % PGSIZE ≠ 0)
    (hpos : ∀ page s k, own page = .slab s k → 1 ≤ k)
    : (∀ msg, kfree st ptr fuel ≠ .panic msg) ∧
      ∀ st', kfree st ptr fuel = .ret st' →
        st' = st ∨ page + 1 ∈ slabs ∧ kfree.Effect st ptr (pageAddr (page + 1)) st' := by
  unfold kfree
  rw [if_neg hmod]
  split
  . simp
  . split
    . simp
    . simp
    . next slab hfind =>
      cases h.find_matches h1 h2 hfind with
      | inl hnone => cases hnone
      | inr hsome =>
        rcases hsome with ⟨heq, hmem⟩
        rw [Option.some.injEq] at heq
        subst heq
        rcases (h.mem_slabs (page + 1)).mp hmem with ⟨s, k, hown⟩
        have hk := hpos _ _ _ hown
        have hcount := (h.slab _ _ _ hown).refcount_eq
        rw [if_neg (by omega)]
        dsimp only
        rw [Slabber.store_refcount, Slabber.store_freelist]
        split
        . next hzero =>
          split
          . simp
          . next st'' hfree =>
            refine ⟨by simp, ?_⟩
            intro st' heq
            cases heq
            rw [hzero] at hfree
            exact Or.inr ⟨hmem, kfree.Effect.freed (by omega) hfree⟩
        . refine ⟨by simp, ?_⟩
          intro st' heq
          cases heq
          exact Or.inr ⟨hmem, kfree.Effect.inserted (by omega)⟩

theorem Slabber.store_mem_of_ne (st : Slabber) {addr val a : Nat} (h : a ≠ addr)
    : (st.store addr val).mem a = st.mem a := by
  simp only [Slabber.store]
  rw [Function.update_of_ne h]

theorem pageAddr_add_ne {page page' d d' : Nat} (hd : d < PGSIZE) (hd' : d' < PGSIZE) (hne : d ≠ d')
    : pageAddr page + d ≠ pageAddr page' + d' := by
  intro heq
  have hmod : (pageAddr page + d) % PGSIZE = (pageAddr page' + d') % PGSIZE := by
    rw [heq]
  rw [pageAddr_add_mod page hd, pageAddr_add_mod page' hd'] at hmod
  contradiction

theorem Inv.freeslab_frame {page page' fuel : Nat} (h : Inv st own slabs) (hne : page ≠ page')
    (hpage' : page' ∈ slabs)
    (hfree : freeslab (st.store (pageAddr page' + 16) 0) (pageAddr page') fuel = some st')
    : st'.freelist (pageAddr page) = st.freelist (pageAddr page) ∧ st'.inUse page = st.inUse page := by
  have hchain : SList (st.store (pageAddr page' + 16) 0).mem st.slabs (slabs.map pageAddr) := by
    apply h.chain.congr
    intro q hq
    rcases List.mem_map.mp hq with ⟨p, _, rfl⟩
    apply Slabber.store_mem_of_ne
    apply @pageAddr_add_ne p page' 0 16 <;> decide
  have hword : (st.store (pageAddr page' + 16) 0).mem (pageAddr page + 32) = st.mem (pageAddr page + 32) := by
    apply Slabber.store_mem_of_ne
    apply pageAddr_add_ne <;> decide
  rcases (h.mem_slabs page').mp hpage' with ⟨s, k, hown⟩
  have hbound := h.bound page' (by simp [hown])
  have hinUse : (st.inUse page && !decide (V2P (pageAddr page') / PGSIZE ≤ page ∧
      page < V2P (pageAddr page') / PGSIZE + 1 % 2 ^ 32)) = st.inUse page := by
    have hle : page' * PGSIZE ≤ (page' + 1) * PGSIZE := Nat.mul_le_mul_right _ (by omega)
    rw [V2P_pageAddr (by omega), Nat.mul_div_cancel _ (by decide)]
    rw [decide_eq_false (by omega)]
    simp
  unfold freeslab at hfree
  split at hfree
  . cases hfree
    exact ⟨hword, hinUse⟩
  . split at hfree
    . cases hfree
    . next current hprev =>
      cases hfree
      refine ⟨?_, hinUse⟩
      rcases List.mem_map.mp (hchain.mem_of_findPrev_eq hprev) with ⟨p, _, rfl⟩
      apply Eq.trans _ hword
      apply Slabber.store_mem_of_ne
      apply @pageAddr_add_ne page p 32 0 <;> decide

theorem Inv.effect_frame {ptr page : Nat} (h : Inv st own slabs) (h1 : pageAddr page + sizeofSlab ≤ ptr)
    (hmem : page + 1 ∈ slabs) (heffect : kfree.Effect st ptr (pageAddr (page + 1)) st')
    : st'.freelist (pageAddr page) = st.freelist (pageAddr page) ∧ st'.inUse page = st.inUse page := by
  cases heffect with
  | nothing => exact ⟨rfl, rfl⟩
  | freed _ hfree => apply h.freeslab_frame (by omega) hmem hfree
  | inserted _ =>
    refine ⟨?_, rfl⟩
    unfold sizeofSlab at h1
    have hnext : pageAddr (page + 1) = pageAddr page + PGSIZE := by
      unfold pageAddr
      rw [Nat.succ_mul]
      omega
    unfold Slabber.freelist
    rw [Slabber.store_mem_of_ne, Slabber.store_mem_of_ne, Slabber.store_mem_of_ne]
    . rw [hnext]
      unfold PGSIZE
      omega
    . omega
    . rw [hnext]
      unfold PGSIZE
      omega

theorem Sys.CountInv.kfree_outcome {sys : Sys} {a : Alloc} (h : sys.CountInv own slabs)
    (ha : a ∈ sys.live) (fuel : Nat)
    : (∀ msg, kfree sys.st a.ptr fuel ≠ .panic msg) ∧
      ∀ st', kfree sys.st a.ptr fuel = .ret st' → ¬kfree.GivesBack sys.st a.ptr st' := by
  have hmod := h.heap.ptr_mod_of_small (h.small a ha)
  rcases h.small a ha with ⟨page, s, k, j, hown, hj, hptr, _⟩
  have hok := h.heap.slab page s k hown
  have hblock := hok.block_lt hj
  have heffect := @Inv.kfree_effect _ _ _ a.ptr page fuel h.heap (show pageAddr page ≤ a.ptr by omega)
    (show a.ptr < pageAddr page + PGSIZE by omega) hmod
    (fun page s k hown => (h.count page s k hown).1)
  refine ⟨heffect.1, ?_⟩
  intro st' hret
  have hframe : st'.freelist (pageAddr page) = sys.st.freelist (pageAddr page) ∧
      st'.inUse page = sys.st.inUse page := by
    cases heffect.2 st' hret with
    | inl heq =>
      rw [heq]
      exact ⟨rfl, rfl⟩
    | inr hnext => apply h.heap.effect_frame (show _ ≤ a.ptr by omega) hnext.1 hnext.2
  have hslab : a.ptr / PGSIZE * PGSIZE = pageAddr page := by
    have hdiv := Nat.div_add_mod a.ptr PGSIZE
    have hmodeq : a.ptr % PGSIZE = sizeofSlab + j * s := by
      rw [hptr, Nat.add_assoc, pageAddr_add_mod page hblock.1]
    rw [hmodeq, Nat.mul_comm] at hdiv
    omega
  unfold kfree.GivesBack
  dsimp only
  rw [hslab]
  intro hback
  cases hback with
  | inl hlist =>
    -- The free list has not changed, and a block that was handed out is not on it.
    rw [hframe.1] at hlist
    have hsize := hok.size_ge
    cases hok.free with
    | inl hnull =>
      unfold sizeofSlab at hptr
      omega
    | inr hchain => omega
  | inr hfreed =>
    have hbound := h.heap.bound page (by simp [hown])
    have hle : page * PGSIZE ≤ (page + 1) * PGSIZE := Nat.mul_le_mul_right _ (by omega)
    rw [V2P_pageAddr (by omega), Nat.mul_div_cancel _ (by decide), hframe.2] at hfreed
    rw [h.heap.inUse page (by simp [hown])] at hfreed
    cases hfreed

theorem Run.refcount_eq_blocksIn {sys : Sys} (h : Run Sys.OnlyKalloc sys)
    : (∀ slab, sys.st.OnList slab → sys.st.refcount slab = sys.blocksIn slab) ∧
      ∀ a ∈ sys.live, ∀ fuel, (∀ msg, kfree sys.st a.ptr fuel ≠ .panic msg) ∧
        ∀ st', kfree sys.st a.ptr fuel = .ret st' → ¬kfree.GivesBack sys.st a.ptr st' := by
  rcases h.exists_countInv with ⟨own, slabs, hinv⟩
  constructor
  . intro slab hslab
    rw [hinv.heap.onList_iff] at hslab
    rcases hslab with ⟨page, hpage, rfl⟩
    rcases (hinv.heap.mem_slabs page).mp hpage with ⟨s, k, hown⟩
    rw [(hinv.heap.slab page s k hown).refcount_eq, (hinv.count page s k hown).2]
  . intro a ha fuel
    apply hinv.kfree_outcome ha fuel

theorem refcount_eq_blocksIn_one
    : ∃ sys, Run Sys.OnlyKalloc sys ∧ sys.live = [⟨18446603336221200424, 8⟩] ∧
        (∀ slab, sys.st.OnList slab → sys.st.refcount slab = sys.blocksIn slab) := by
  have hlive : (Sys.zero.kallocZero 8 0x1000 1).map Sys.live = some [⟨18446603336221200424, 8⟩] := by
    decide +kernel
  rw [Option.map_eq_some_iff] at hlive
  rcases hlive with ⟨sys, hsys, hlive⟩
  have hrun : Run Sys.OnlyKalloc sys := by
    apply Run.step (Run.boot _ _) ⟨by decide, Sys.zero_linkOk 8 0x1000⟩
      (Sys.step_of_kallocZero (by decide) _ hsys)
    apply Pages.fresh_one
    . rfl
    . decide
    . rfl
  exact ⟨sys, hrun, hlive, hrun.refcount_eq_blocksIn.1⟩

theorem kfree_keeps_refcount
    : ∃ sys slab, Run (fun _ call => call = .kalloc 8 (zeroPages 0x1000) ∨
          call = .kfree 18446603336221200424) sys ∧
        sys.st.OnList slab ∧ sys.st.refcount slab ≠ sys.blocksIn slab := by
  have hfirst : (Sys.zero.kallocZero 8 0x1000 1).map
      (fun sys => (sys.live, sys.st.slabs, sys.st.refcount 18446603336221200384))
        = some ([⟨18446603336221200424, 8⟩], 18446603336221200384, 1) := by
    decide +kernel
  have hfree : (Sys.zero.kallocZero 8 0x1000 1).map
      (fun sys => SList.find sys.st.mem (kfree.matches? 18446603336221200424) 2 sys.st.slabs)
        = some (some none) := by
    decide +kernel
  rw [Option.map_eq_some_iff] at hfirst
  rcases hfirst with ⟨sys, hsys, hres⟩
  rw [Prod.mk.injEq, Prod.mk.injEq] at hres
  rcases hres with ⟨hlive, hslabs, hcount⟩
  rw [hsys, Option.map_some, Option.some.injEq] at hfree
  have hkfree : kfree sys.st 18446603336221200424 2 = .ret sys.st := by
    unfold kfree
    rw [if_neg (by decide), if_neg (by decide), hfree]
  refine ⟨⟨sys.st, sys.live.erase ⟨18446603336221200424, 8⟩⟩, 18446603336221200384, ?_, ?_, ?_⟩
  . apply @Run.step _ sys _ _ _ (Or.inr rfl)
    . apply Step.kfree (a := ⟨18446603336221200424, 8⟩) _ hkfree
      rw [hlive]
      apply List.mem_cons_self
    . apply Run.step (Run.boot _ _) (Or.inl rfl) (Sys.step_of_kallocZero (by decide) _ hsys)
      apply Pages.fresh_one
      . rfl
      . decide
      . rfl
  . unfold Slabber.OnList
    dsimp only
    rw [hslabs]
    apply SList.Visits.head
    decide
  . dsimp only
    rw [hcount, hlive]
    simp [Sys.blocksIn]

end Slab
end Franklin
