import Franklin.Slab.Lemmas.Newslab

/-!
This module contains the list of free blocks that `newslab` leaves in its page.
-/

namespace Franklin
namespace Slab

/--
The free list ends with NULL and its blocks, as many as fit behind the header, lie in the page without an overlap.
-/
def FreelistOk (st : Slabber) (slab blksize : Nat) : Prop :=
  ∃ blocks, SList st.mem (st.freelist slab) blocks ∧ blocks.length = (PGSIZE - sizeofSlab) / blksize ∧
    blocks.Pairwise (fun b b' => b + blksize ≤ b' ∨ b' + blksize ≤ b) ∧
    ∀ b ∈ blocks, slab + sizeofSlab ≤ b ∧ b + blksize ≤ slab + PGSIZE

namespace newslab

def block (slab blksize j : Nat) : Nat :=
  slab + sizeofSlab + j * blksize

variable {st st' : Slabber} {slab blksize : Nat} {contents : Nat → Nat}

theorem block_ne_zero (slab blksize j : Nat) : block slab blksize j ≠ 0 := by
  unfold block sizeofSlab
  omega

theorem block_succ (slab blksize j : Nat) : block slab blksize (j + 1) = block slab blksize j + blksize := by
  unfold block
  ring

theorem Spec.block_link (h : Spec st blksize slab contents st') {j : Nat}
    (hj : j < (PGSIZE - sizeofSlab - 1) / blksize)
    : st'.mem (block slab blksize j) = block slab blksize (j + 1) := by
  rw [block_succ]
  apply h.link
  have hle : (j + 1) * blksize ≤ PGSIZE - sizeofSlab - 1 := by
    calc (j + 1) * blksize ≤ (PGSIZE - sizeofSlab - 1) / blksize * blksize := Nat.mul_le_mul_right _ hj
      _ ≤ PGSIZE - sizeofSlab - 1 := Nat.div_mul_le_self _ _
  rw [Nat.succ_mul] at hle
  unfold PGSIZE sizeofSlab at *
  omega

theorem Spec.last_link (h : Spec st blksize slab contents st') {j : Nat}
    (hj1 : sizeofSlab + j * blksize < PGSIZE) (hj2 : PGSIZE ≤ sizeofSlab + j * blksize + blksize)
    : st'.mem (block slab blksize j) = contents (block slab blksize j) := by
  unfold block
  apply h.last <;> omega

theorem Spec.size_of_freelistOk (h : Spec st blksize slab contents st') {k : Nat} (hk3 : 3 ≤ k)
    (hk12 : k ≤ 12) (hsize : blksize = 2 ^ k) (hok : FreelistOk st' slab blksize)
    : blksize = 8 ∧ contents (slab + PGSIZE - 8) = 0 := by
  rcases hok with ⟨blocks, hchain, hlength, _, hinside⟩
  rw [h.freelist] at hchain
  have hfirst : block slab blksize 0 = slab + sizeofSlab := by simp [block]
  rw [← hfirst] at hchain
  rcases hchain.exists_append_of_links ((PGSIZE - sizeofSlab - 1) / blksize)
    (fun j _ => block_ne_zero slab blksize j) (fun j hj => h.block_link hj) with ⟨qs, heq, hqs⟩
  rcases hqs.exists_eq_cons (block_ne_zero slab blksize _) with ⟨rs, heq', hrs⟩
  have hlast := (hinside (block slab blksize ((PGSIZE - sizeofSlab - 1) / blksize)) (by simp [heq, heq'])).2
  have h8 : blksize = 8 := by
    -- The blocks fill the 4056 bytes behind the header, a multiple of 8 but not of 16.
    have hpos : 0 < blksize := by
      rw [hsize]
      apply Nat.two_pow_pos
    have hlt := Nat.lt_mul_div_succ (PGSIZE - sizeofSlab - 1) hpos
    rw [Nat.mul_comm, Nat.succ_mul] at hlt
    unfold block PGSIZE sizeofSlab at hlast
    unfold PGSIZE sizeofSlab at hlt
    have hdvd : blksize ∣ 4056 := by
      refine ⟨(4096 - 40 - 1) / blksize + 1, ?_⟩
      rw [Nat.mul_comm, Nat.succ_mul]
      omega
    have hk : k = 3 := by
      by_contra hne
      have h16 : 2 ^ 4 ∣ 4056 := Nat.dvd_trans (Nat.pow_dvd_pow 2 (by omega)) (hsize ▸ hdvd)
      omega
    rw [hsize, hk]
    rfl
  subst h8
  refine ⟨rfl, ?_⟩
  rw [heq, heq'] at hlength
  simp only [List.length_append, List.length_map, List.length_range, List.length_cons] at hlength
  have hnil : rs = [] := by
    rw [← List.length_eq_zero_iff]
    unfold PGSIZE sizeofSlab at hlength
    omega
  subst hnil
  cases hrs' : st'.mem (block slab 8 ((PGSIZE - sizeofSlab - 1) / 8)) with
  | zero =>
    rw [h.last_link] at hrs'
    . rw [← hrs']
      rfl
    . decide
    . decide
  | succ n =>
    rw [hrs'] at hrs
    cases hrs

theorem Spec.freelistOk (h : Spec st 8 slab contents st') (hlast : contents (slab + PGSIZE - 8) = 0)
    : FreelistOk st' slab 8 := by
  have hnull : st'.mem (block slab 8 506) = 0 := by
    rw [h.last_link]
    . exact hlast
    . decide
    . decide
  have hend : SList st'.mem (block slab 8 506) [block slab 8 506] := by
    apply SList.cons (block_ne_zero slab 8 506)
    rw [hnull]
    apply SList.nil
  have hchain := SList.append_of_links (f := block slab 8) 506 (fun j _ => block_ne_zero slab 8 j)
    (fun j hj => h.block_link hj) hend
  have hblocks : (List.range 506).map (block slab 8) ++ [block slab 8 506] = (List.range 507).map (block slab 8) := by
    rw [List.range_succ (n := 506)]
    simp
  rw [hblocks] at hchain
  refine ⟨(List.range 507).map (block slab 8), ?_, ?_, ?_, ?_⟩
  . rw [h.freelist]
    apply hchain
  . simp [PGSIZE, sizeofSlab]
  . rw [List.pairwise_map]
    apply List.pairwise_lt_range.imp
    intro i j hij
    unfold block
    omega
  . intro b hb
    rcases List.mem_map.mp hb with ⟨j, hj, rfl⟩
    rw [List.mem_range] at hj
    unfold block sizeofSlab PGSIZE
    omega

end newslab

theorem kalloc.blockSize_eq_eight {size : Nat} (h : size ≤ PGSIZE)
    : blockSize size = 8 ↔ size ≤ 8 := by
  constructor
  . intro heq
    rcases blockSize_eq h with ⟨k, _, _, hle, hpow⟩
    omega
  . intro hle
    unfold blockSize
    have hsize : (if size < 8 then 8 else size) = 8 := by
      split <;> omega
    rw [hsize]
    decide

/--
The free list of a new slab is as it should be exactly if the blocks have 8 bytes and the last word of the page was
NULL before.
-/
theorem newslab_freelistOk_iff (st : Slabber) (pg : Pages) {size : Nat} (hsize : size ≤ PGSIZE)
    : FreelistOk (newslab st (kalloc.blockSize size) pg).2 (newslab st (kalloc.blockSize size) pg).1
        (kalloc.blockSize size) ↔
        size ≤ 8 ∧ pg.contents (P2V pg.paddr + PGSIZE - 8) = 0 := by
  rcases kalloc.blockSize_eq hsize with ⟨k, hk3, hk12, _, hpow⟩
  have hpos : 0 < kalloc.blockSize size := by
    rw [hpow]
    apply Nat.two_pow_pos
  have hspec : newslab.Spec st (kalloc.blockSize size) (P2V pg.paddr) pg.contents _ := newslab_spec hpos
  rw [newslab_fst, ← kalloc.blockSize_eq_eight hsize]
  constructor
  . intro hok
    apply hspec.size_of_freelistOk hk3 hk12 hpow hok
  . rintro ⟨h8, hlast⟩
    rw [h8] at hspec ⊢
    apply hspec.freelistOk hlast

theorem newslab_freelistOk_eight :
    FreelistOk (newslab (Sys.boot (fun _ => 0) (fun _ => false)).st (kalloc.blockSize 8) ⟨0x1000, fun _ => 0⟩).2
      (newslab (Sys.boot (fun _ => 0) (fun _ => false)).st (kalloc.blockSize 8) ⟨0x1000, fun _ => 0⟩).1
      (kalloc.blockSize 8) :=
  (newslab_freelistOk_iff _ _ (by decide)).mpr ⟨by decide, rfl⟩

theorem not_newslab_freelistOk :
    ¬FreelistOk (newslab (Sys.boot (fun _ => 0) (fun _ => false)).st (kalloc.blockSize 16) ⟨0x1000, fun _ => 0⟩).2
      (newslab (Sys.boot (fun _ => 0) (fun _ => false)).st (kalloc.blockSize 16) ⟨0x1000, fun _ => 0⟩).1
      (kalloc.blockSize 16) := by
  have h16 : kalloc.blockSize 16 = 16 := by decide
  rw [h16]
  intro hok
  have hspec := @newslab_spec (Sys.boot (fun _ => 0) (fun _ => false)).st 16 ⟨0x1000, fun _ => 0⟩ (by decide)
  have := (hspec.size_of_freelistOk (k := 4) (by decide) (by decide) rfl hok).1
  contradiction

end Slab
end Franklin
