import Franklin.Exec.Lemmas.Loadelf

/-!
This module contains which memory `loadelf` writes to.
-/

open Radix

namespace Franklin
namespace Exec

open Vmm (Addr Mem Good P2V single next)
open Pmm (FreeRun)

section Copies

variable {vmap : Addr} {vn : Fs.File} {elf phdr : Block} {aux : Auxval} {i n : Nat} {s s' t : State} {locals : Locals}

def CopiesAll (vn : Fs.File) (phdrs : List Block) (s s' : State) : Prop :=
  ∃ new, s'.copies = new ++ s.copies ∧
    ∀ phdr ∈ phdrs, Copies vn (p_offset phdr) (p_filesz phdr) →
      ∃ paddr, ⟨paddr, (pagecount phdr).toNat, P2V paddr, (p_filesz phdr).toNat⟩ ∈ new

theorem palloc_copies : wp (palloc n) (fun _ s' => s'.copies = s.copies) (fun _ _ => True) s := by
  unfold wp palloc
  cases Pmm.palloc s.bm n with
  | none => trivial
  | some res => rfl

theorem mappages_copies {vaddr paddr size flags : BitVec 64}
    : wp (mappages vmap vaddr paddr size flags) (fun _ s' => s'.copies = s.copies) (fun _ _ => True) s := by
  unfold wp mappages
  cases Vmm.mappages s.vm vmap vaddr paddr size flags with
  | none => trivial
  | some res => rfl

theorem segment_copies
    : wp (loadelf.segment vmap vn phdr) (fun _ s' => CopiesAll vn [phdr] s s') (fun _ _ => True) s := by
  unfold loadelf.segment
  apply wp_bind_of palloc_copies
  intro paddr s₁ hcopies₁
  apply wp_bind_of mappages_copies
  intro u s₂ hcopies₂
  apply wp_mono readPages_wp
  . rintro u s₃ rfl
    refine ⟨copied vn paddr (pagecount phdr).toNat (p_offset phdr) (p_filesz phdr), ?_, ?_⟩
    . dsimp only
      rw [hcopies₂, hcopies₁]
    . intro b hb hcopies
      rw [List.mem_singleton] at hb
      rw [hb] at hcopies ⊢
      unfold copied
      rw [if_pos hcopies]
      exact ⟨paddr, List.mem_singleton_self _⟩
  . intro e s₃ _
    trivial

theorem CopiesAll.cons {phdrs : List Block} {s₁ : State} (h : CopiesAll vn [phdr] s s₁)
    (h' : CopiesAll vn phdrs s₁ s')
    : CopiesAll vn (phdr :: phdrs) s s' := by
  rcases h with ⟨new, hnew, hall⟩
  rcases h' with ⟨new', hnew', hall'⟩
  refine ⟨new' ++ new, ?_, ?_⟩
  . rw [hnew', hnew, List.append_assoc]
  . intro b hb hcopies
    rcases List.mem_cons.mp hb with rfl | hb
    . rcases hall b (List.mem_singleton_self b) hcopies with ⟨paddr, hc⟩
      exact ⟨paddr, List.mem_append_right _ hc⟩
    . rcases hall' b hb hcopies with ⟨paddr, hc⟩
      exact ⟨paddr, List.mem_append_left _ hc⟩

theorem loop_copies
    : wp (loadelf.loop vmap vn elf phdr aux i n) (fun _ s' => CopiesAll vn (loads (headers vn elf phdr i n)) s s')
        (fun _ _ => True) s := by
  induction n generalizing phdr aux i s with
  | zero =>
    refine ⟨[], rfl, ?_⟩
    intro b hb
    cases hb
  | succ n ih =>
    unfold loadelf.loop
    apply wp_bind_mono readLocal_wp
    . intro e s' _
      trivial
    . rintro b s' ⟨hread, rfl⟩
      rw [headers_cons hread]
      split
      . next hload =>
        rw [loads_cons_load hload]
        apply wp_bind_of segment_copies
        intro u s₁ hcopies
        apply wp_mono ih
        . intro aux' s₂ hrest
          exact hcopies.cons hrest
        . intro e s₂ _
          trivial
      . next hother =>
        rw [loads_cons_other hother]
        split
        . exact ih
        . exact ih

theorem file_copies
    : wp (loadelf.file locals vmap vn) (fun _ s' => CopiesAll vn (segments locals vn) s s') (fun _ _ => True) s := by
  unfold loadelf.file
  apply wp_bind_mono readLocal_wp
  . intro e s' _
    trivial
  . rintro b s' ⟨hread, rfl⟩
    rw [segments_of_elf hread]
    apply wp_bind_of loop_copies
    intro aux s₁ hcopies
    exact hcopies

theorem Copy.Inside.count_le {paddr : Addr} {pages count : Nat} (h : Copy.Inside ⟨paddr, pages, P2V paddr, count⟩)
    (hpages : pages < 2 ^ 52) : count ≤ pages * PGSIZE := by
  by_contra hlt
  have hin := h (pages * PGSIZE) (Nat.lt_of_not_le hlt)
  dsimp only at hin
  rw [BitVec.add_comm, BitVec.add_sub_cancel, BitVec.toNat_ofNat] at hin
  unfold PGSIZE at *
  omega

theorem CopiesAll.fits {phdrs : List Block} (h : CopiesAll vn phdrs s s') (honly : OnlyWrites vmap s s')
    : ∀ phdr ∈ phdrs, Fits vn phdr := by
  intro phdr hphdr hcopies
  rcases h with ⟨new, hnew, hall⟩
  rcases honly with ⟨new', hnew', hinside, _⟩
  rw [hnew] at hnew'
  rw [← List.append_cancel_right hnew'] at hinside
  rcases hall phdr hphdr hcopies with ⟨paddr, hc⟩
  exact (hinside _ hc).count_le (pagecount_lt phdr)

theorem fits_of_onlyWrites (hrun : loadelf.file locals vmap vn s = .ok aux s') (honly : OnlyWrites vmap s s')
    : ∀ phdr ∈ segments locals vn, Fits vn phdr := by
  have hcopies : CopiesAll vn (segments locals vn) s s' := (wp_of_ok hrun).mp file_copies
  exact hcopies.fits honly

/--
`loadelf` only writes to the pages of the segments and to the tables exactly if no segment has more bytes in the file
than its pages can hold.
-/
theorem loadelf_onlyWrites_iff (hgood : Good (single vmap) s.vm)
    : ((∀ phdr ∈ segments locals vn, Fits vn phdr) →
        wp (loadelf.file locals vmap vn) (fun _ s' => OnlyWrites vmap s s') (fun _ s' => OnlyWrites vmap s s') s) ∧
      ∀ aux s', loadelf.file locals vmap vn s = .ok aux s' →
        (OnlyWrites vmap s s' ↔ ∀ phdr ∈ segments locals vn, Fits vn phdr) := by
  have hall : (∀ phdr ∈ segments locals vn, Fits vn phdr) →
      wp (loadelf.file locals vmap vn) (fun _ s' => OnlyWrites vmap s s') (fun _ s' => OnlyWrites vmap s s') s := by
    intro hfit
    apply wp_mono (file_wp hgood hfit)
    . rintro aux s' ⟨rest, _, hloaded⟩
      exact hloaded.only
    . intro e s' honly
      exact honly
  refine ⟨hall, ?_⟩
  intro aux s' hrun
  constructor
  . exact fits_of_onlyWrites hrun
  . intro hfit
    exact (wp_of_ok hrun).mp (hall hfit)

end Copies

theorem loadelf_onlyWrites_sample :
    ∃ aux s', loadelf.file sampleLocals (P2V (frame 0)) (oneSegment 0#64 0x400000#64 16#64 16#64) sampleState =
      .ok aux s'
      ∧ OnlyWrites (P2V (frame 0)) sampleState s' := by
  rcases @sampleState_returns 0#64 0x400000#64 16#64 16#64 (by decide) (by decide) (by decide) with
    ⟨phdr, hheader, hsegments, aux, s', hrun⟩
  refine ⟨aux, s', hrun, ((loadelf_onlyWrites_iff sampleState_good).2 aux s' hrun).mpr ?_⟩
  exact fits_of_header hheader hsegments (by decide)

theorem loadelf_writes_outside :
    ∃ aux s', loadelf.file sampleLocals (P2V (frame 0)) (oneSegment 0#64 0x400000#64 1#64 0#64) sampleState =
      .ok aux s'
      ∧ ¬ OnlyWrites (P2V (frame 0)) sampleState s' := by
  have hpages : (DIV_ROUNDUP 0#64 pgsize).toNat = 0 := by
    decide
  rcases @sampleState_returns 0#64 0x400000#64 1#64 0#64 (by decide) (by decide) (by decide) with
    ⟨phdr, hheader, hsegments, aux, s', hrun⟩
  refine ⟨aux, s', hrun, ?_⟩
  intro honly
  have hmem : phdr ∈ segments sampleLocals (oneSegment 0#64 0x400000#64 1#64 0#64) := by
    rw [hsegments]
    exact List.mem_singleton_self phdr
  have hfits := fits_of_onlyWrites hrun honly phdr hmem
  unfold Fits at hfits
  rw [header_pagecount hheader, hheader.filesz, hheader.offset, hpages] at hfits
  exact absurd (hfits (oneSegment_copies (by decide))) (by decide)

end Exec
end Franklin
