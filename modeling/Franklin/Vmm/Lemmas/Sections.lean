import Franklin.Vmm.Linker
import Franklin.Vmm.Lemmas.InitVm

/-!
This module contains the address space of the kernel after `init_vm`: the rounded sections and the direct maps do
not meet in a page, so each of them keeps its own rights.
-/

open Radix

namespace Franklin
namespace Vmm

theorem Sections.layout (sections : Sections)
    : Sections.text_start_addr = 0xffffffff80000000 ∧
      sections.text_end_addr = Sections.text_start_addr + sections.text ∧
      sections.rodata_start_addr = sections.text_end_addr + 4096 ∧
      sections.rodata_end_addr = sections.rodata_start_addr + sections.rodata ∧
      sections.data_start_addr = sections.rodata_end_addr + 4096 ∧
      sections.data_end_addr = sections.data_start_addr + sections.data :=
  ⟨rfl, rfl, rfl, rfl, rfl, rfl⟩

namespace init_vm

inductive Region where
  | text
  | rodata
  | data
  | lower
  | hhdm
  deriving DecidableEq

def upperNumber (addr : Nat) : Nat :=
  addr / PGSIZE - (2 ^ 52 - 2 ^ 36)

def upperAddr (k : BitVec 36) : BitVec 64 :=
  BitVec.ofNat 64 ((k.toNat + (2 ^ 52 - 2 ^ 36)) * PGSIZE)

namespace Region

def first (sections : Sections) : Region → Nat
  | text => upperNumber Sections.text_start_addr
  | rodata => upperNumber sections.rodata_start_addr
  | data => upperNumber sections.data_start_addr
  | lower => 1
  | hhdm => 2 ^ 35 + 1

def stop (sections : Sections) : Region → Nat
  | text => upperNumber (sections.text_end_addr + PGSIZE - 1)
  | rodata => upperNumber (sections.rodata_end_addr + PGSIZE - 1)
  | data =>
    -- ALIGN_UP wraps for an end in the last page.
    if sections.data_end_addr ≤ 2 ^ 64 - PGSIZE then
      upperNumber (sections.data_end_addr + PGSIZE - 1)
    else
      0
  | lower => 2 ^ 19
  | hhdm => 2 ^ 35 + 2 ^ 19

def flags : Region → BitVec 64
  | text => PTE_PRESENT ||| PTE_USER
  | rodata => PTE_PRESENT ||| PTE_NX ||| PTE_USER
  | data => PTE_PRESENT ||| PTE_NX ||| PTE_RW ||| PTE_USER
  | lower => PTE_PRESENT ||| PTE_RW ||| PTE_USER
  | hhdm => PTE_PRESENT ||| PTE_NX ||| PTE_RW ||| PTE_USER

def frameOf (image : KernelImage) (k : BitVec 36) : Region → BitVec 64
  | text | rodata | data => frame image (upperAddr k)
  | lower => BitVec.ofNat 64 (k.toNat * PGSIZE)
  | hhdm => BitVec.ofNat 64 ((k.toNat - 2 ^ 35) * PGSIZE)

theorem eq_of_mem {sections : Sections} {r r' : Region} {n : Nat}
    (h1 : r.first sections ≤ n) (h2 : n < r.stop sections) (h1' : r'.first sections ≤ n)
    (h2' : n < r'.stop sections) : r = r' := by
  obtain ⟨htext₁, htext₂, hrodata₁, hrodata₂, hdata₁, hdata₂⟩ := sections.layout
  cases r <;> cases r' <;> first
    | rfl
    | (unfold first stop upperNumber PGSIZE at *
       dsimp only at *
       omega)

end Region

theorem ALIGN_DOWN_toNat (addr : BitVec 64) : (ALIGN_DOWN addr pgsize).toNat = addr.toNat / PGSIZE * PGSIZE := by
  have hlt := addr.isLt
  have hsize : pgsize.toNat = PGSIZE := rfl
  unfold ALIGN_DOWN
  rw [BitVec.toNat_mul, BitVec.toNat_udiv, hsize]
  unfold PGSIZE
  omega

theorem ALIGN_UP_toNat (addr : BitVec 64)
    : (ALIGN_UP addr pgsize).toNat = (addr.toNat + PGSIZE - 1) % 2 ^ 64 / PGSIZE * PGSIZE := by
  have hlt := addr.isLt
  have hsize : pgsize.toNat = PGSIZE := rfl
  have hone : (1 : BitVec 64).toNat = 1 := rfl
  unfold ALIGN_UP
  rw [BitVec.toNat_mul, BitVec.toNat_udiv, BitVec.toNat_sub, BitVec.toNat_add, hsize, hone]
  unfold PGSIZE
  omega

theorem segmentPages_eq {start stop : Nat} (h1 : start ≤ stop) (h2 : stop ≤ 2 ^ 64 - PGSIZE)
    : segmentPages (BitVec.ofNat 64 start) (BitVec.ofNat 64 stop) =
        (stop + PGSIZE - 1) / PGSIZE - start / PGSIZE := by
  unfold segmentPages
  rw [ALIGN_UP_toNat, ALIGN_DOWN_toNat, BitVec.toNat_ofNat, BitVec.toNat_ofNat]
  unfold PGSIZE at *
  omega

theorem segmentPages_of_wrap {start : BitVec 64} {stop : Nat} (h1 : 2 ^ 64 - PGSIZE < stop) (h2 : stop ≤ 2 ^ 64)
    : segmentPages start (BitVec.ofNat 64 stop) = 0 := by
  unfold segmentPages
  rw [ALIGN_UP_toNat, BitVec.toNat_ofNat]
  unfold PGSIZE at *
  omega

theorem page_ALIGN_DOWN {start : Nat} (i : Nat) (h : start < 2 ^ 64)
    : page (ALIGN_DOWN (BitVec.ofNat 64 start) pgsize) i = BitVec.ofNat 64 ((start / PGSIZE + i) * PGSIZE) := by
  apply BitVec.eq_of_toNat_eq
  unfold page
  rw [BitVec.toNat_add, ALIGN_DOWN_toNat, BitVec.toNat_ofNat, BitVec.toNat_ofNat, BitVec.toNat_ofNat,
    Nat.mod_eq_of_lt h, Nat.add_mul]
  simp

theorem vpn_ofNat (n : Nat) : (vpn (BitVec.ofNat 64 (n * PGSIZE))).toNat = n % 2 ^ 36 := by
  simp only [vpn, BitVec.toNat_setWidth, BitVec.toNat_ushiftRight, BitVec.toNat_ofNat,
    Nat.shiftRight_eq_div_pow, PGSIZE]
  omega

theorem mem_segmentMappings {image : KernelImage} {flags : BitVec 64} {start stop : Nat} {k : BitVec 36}
    {value : BitVec 64} (h1 : Sections.text_start_addr ≤ start) (h2 : start ≤ stop)
    (h3 : stop ≤ 2 ^ 64 - PGSIZE)
    : (k, value) ∈ segmentMappings image flags (BitVec.ofNat 64 start) (BitVec.ofNat 64 stop) ↔
        upperNumber start ≤ k.toNat ∧ k.toNat < upperNumber (stop + PGSIZE - 1) ∧
          value = frame image (upperAddr k) ||| flags := by
  have hk := k.isLt
  have hlt : start < 2 ^ 64 := by
    unfold PGSIZE at h3
    omega
  unfold segmentMappings
  rw [segmentPages_eq h2 h3, List.mem_map]
  unfold segmentMapping
  unfold Sections.text_start_addr at h1
  constructor
  . rintro ⟨i, hi, heq⟩
    have hi := (List.mem_range'_1.mp hi).2
    rw [page_ALIGN_DOWN i hlt] at heq
    obtain ⟨rfl, rfl⟩ := Prod.mk.inj heq
    have haddr : upperAddr (vpn (BitVec.ofNat 64 ((start / PGSIZE + i) * PGSIZE))) =
        BitVec.ofNat 64 ((start / PGSIZE + i) * PGSIZE) := by
      unfold upperAddr
      rw [vpn_ofNat]
      unfold PGSIZE at *
      congr 2
      omega
    rw [haddr, vpn_ofNat]
    unfold upperNumber PGSIZE at *
    refine ⟨?_, ?_, rfl⟩
    . omega
    . omega
  . rintro ⟨hk1, hk2, rfl⟩
    unfold upperNumber at hk1 hk2
    refine ⟨k.toNat + (2 ^ 52 - 2 ^ 36) - start / PGSIZE, ?_, ?_⟩
    . rw [List.mem_range'_1]
      unfold PGSIZE at *
      omega
    . have hsum : start / PGSIZE + (k.toNat + (2 ^ 52 - 2 ^ 36) - start / PGSIZE) =
          k.toNat + (2 ^ 52 - 2 ^ 36) := by
        unfold PGSIZE at *
        omega
      rw [page_ALIGN_DOWN _ hlt, hsum]
      refine Prod.ext ?_ rfl
      apply BitVec.eq_of_toNat_eq
      rw [vpn_ofNat]
      dsimp only
      omega

theorem page_lower (i : Nat) : page 0x1000#64 i = BitVec.ofNat 64 ((i + 1) * PGSIZE) := by
  unfold page
  rw [Nat.add_comm i 1, Nat.add_mul, BitVec.ofNat_add]
  rfl

theorem vpn_hhdm {n : Nat} (h : n < 2 ^ 35)
    : (vpn (BitVec.ofNat 64 (n * PGSIZE) + HHDM_OFFSET)).toNat = 2 ^ 35 + n := by
  have hoff : HHDM_OFFSET.toNat = 0xffff800000000000 := rfl
  rw [vpn, BitVec.toNat_setWidth, BitVec.toNat_ushiftRight, BitVec.toNat_add, BitVec.toNat_ofNat, hoff,
    Nat.shiftRight_eq_div_pow]
  unfold PGSIZE
  omega

theorem mem_lowerMappings {k : BitVec 36} {value : BitVec 64}
    : (k, value) ∈ lowerMappings 0 lowerPages ↔
        (1 ≤ k.toNat ∧ k.toNat < 2 ^ 19 ∧
            value = BitVec.ofNat 64 (k.toNat * PGSIZE) ||| (PTE_PRESENT ||| PTE_RW ||| PTE_USER)) ∨
          (2 ^ 35 + 1 ≤ k.toNat ∧ k.toNat < 2 ^ 35 + 2 ^ 19 ∧
            value = BitVec.ofNat 64 ((k.toNat - 2 ^ 35) * PGSIZE) |||
              (PTE_PRESENT ||| PTE_NX ||| PTE_RW ||| PTE_USER)) := by
  have hpages : lowerPages = 2 ^ 19 - 1 := rfl
  unfold lowerMappings
  rw [hpages, List.mem_flatMap]
  simp only [page_lower, List.mem_range'_1, List.mem_cons, List.not_mem_nil, or_false, Prod.mk.injEq]
  constructor
  . rintro ⟨i, ⟨_, hi⟩, ⟨rfl, rfl⟩ | ⟨rfl, rfl⟩⟩
    . rw [vpn_ofNat, Nat.mod_eq_of_lt (by omega)]
      exact Or.inl ⟨by omega, by omega, rfl⟩
    . rw [vpn_hhdm (by omega), Nat.add_sub_cancel_left]
      exact Or.inr ⟨by omega, by omega, rfl⟩
  . rintro (⟨h1, h2, rfl⟩ | ⟨h1, h2, rfl⟩)
    . refine ⟨k.toNat - 1, ⟨Nat.zero_le _, by omega⟩, Or.inl ⟨?_, ?_⟩⟩
      . apply BitVec.eq_of_toNat_eq
        rw [Nat.sub_add_cancel h1, vpn_ofNat, Nat.mod_eq_of_lt (by omega)]
      . rw [Nat.sub_add_cancel h1]
    . have hsub : k.toNat - 2 ^ 35 - 1 + 1 = k.toNat - 2 ^ 35 := by omega
      refine ⟨k.toNat - 2 ^ 35 - 1, ⟨Nat.zero_le _, by omega⟩, Or.inr ⟨?_, ?_⟩⟩
      . apply BitVec.eq_of_toNat_eq
        rw [hsub, vpn_hhdm (by omega)]
        omega
      . rw [hsub]

theorem mem_mappings {sections : Sections} {virtual_base physical_base : BitVec 64} {k : BitVec 36}
    {value : BitVec 64} (hend : sections.data_end_addr ≤ 2 ^ 64)
    : (k, value) ∈ mappings (sections.image virtual_base physical_base) ↔
        ∃ r : Region, r.first sections ≤ k.toNat ∧ k.toNat < r.stop sections ∧
          value = r.frameOf (sections.image virtual_base physical_base) k ||| r.flags := by
  have hpage : PGSIZE = 4096 := rfl
  obtain ⟨htext₁, htext₂, hrodata₁, hrodata₂, hdata₁, hdata₂⟩ := sections.layout
  generalize himage : sections.image virtual_base physical_base = image
  have hmemText := @mem_segmentMappings image (PTE_PRESENT ||| PTE_USER) Sections.text_start_addr
    sections.text_end_addr k value (by omega) (by omega) (by omega)
  have hmemRodata := @mem_segmentMappings image (PTE_PRESENT ||| PTE_NX ||| PTE_USER) sections.rodata_start_addr
    sections.rodata_end_addr k value (by omega) (by omega) (by omega)
  have hmemData : (k, value) ∈ segmentMappings image (PTE_PRESENT ||| PTE_NX ||| PTE_RW ||| PTE_USER)
      (BitVec.ofNat 64 sections.data_start_addr) (BitVec.ofNat 64 sections.data_end_addr) ↔
      Region.data.first sections ≤ k.toNat ∧ k.toNat < Region.data.stop sections ∧
        value = Region.data.frameOf image k ||| Region.data.flags := by
    by_cases hwrap : sections.data_end_addr ≤ 2 ^ 64 - PGSIZE
    . rw [mem_segmentMappings (by omega) (by omega) hwrap, Region.stop, if_pos hwrap]
      rfl
    . rw [Region.stop, if_neg hwrap, segmentMappings, segmentPages_of_wrap (by omega) hend]
      simp
  have hmemLower := @mem_lowerMappings k value
  have hall : (k, value) ∈ mappings image ↔
      (k, value) ∈ segmentMappings image (PTE_PRESENT ||| PTE_USER)
        (BitVec.ofNat 64 Sections.text_start_addr) (BitVec.ofNat 64 sections.text_end_addr) ∨
      (k, value) ∈ segmentMappings image (PTE_PRESENT ||| PTE_NX ||| PTE_USER)
        (BitVec.ofNat 64 sections.rodata_start_addr) (BitVec.ofNat 64 sections.rodata_end_addr) ∨
      (k, value) ∈ segmentMappings image (PTE_PRESENT ||| PTE_NX ||| PTE_RW ||| PTE_USER)
        (BitVec.ofNat 64 sections.data_start_addr) (BitVec.ofNat 64 sections.data_end_addr) ∨
      (k, value) ∈ lowerMappings 0 lowerPages := by
    unfold mappings
    rw [List.mem_append, List.mem_append, List.mem_append, ← himage]
    rfl
  rw [hall, hmemText, hmemRodata, hmemData, hmemLower]
  constructor
  . rintro (h | h | h | h | h)
    . exact ⟨.text, h⟩
    . exact ⟨.rodata, h⟩
    . exact ⟨.data, h⟩
    . exact ⟨.lower, h⟩
    . exact ⟨.hhdm, h⟩
  . rintro ⟨r, h⟩
    cases r with
    | text => exact Or.inl h
    | rodata => exact Or.inr (Or.inl h)
    | data => exact Or.inr (Or.inr (Or.inl h))
    | lower => exact Or.inr (Or.inr (Or.inr (Or.inl h)))
    | hhdm => exact Or.inr (Or.inr (Or.inr (Or.inr h)))

theorem insertAll_mappings {sections : Sections} {virtual_base physical_base : BitVec 64}
    (hend : sections.data_end_addr ≤ 2 ^ 64) (k : BitVec 36)
    : (∀ r : Region, r.first sections ≤ k.toNat → k.toNat < r.stop sections →
        FirstWins.insertAll Free (fun _ => 0#64) (mappings (sections.image virtual_base physical_base)) k =
          r.frameOf (sections.image virtual_base physical_base) k ||| r.flags) ∧
      ((∀ r : Region, ¬(r.first sections ≤ k.toNat ∧ k.toNat < r.stop sections)) →
        FirstWins.insertAll Free (fun _ => 0#64) (mappings (sections.image virtual_base physical_base)) k =
          0#64) := by
  constructor
  . intro r h1 h2
    apply FirstWins.insertAll_of_mem
    . decide
    . exact (mem_mappings hend).mpr ⟨r, h1, h2, rfl⟩
    . intro value hvalue
      obtain ⟨r', h1', h2', rfl⟩ := (mem_mappings hend).mp hvalue
      obtain rfl := Region.eq_of_mem h1 h2 h1' h2'
      rfl
  . intro hnone
    apply FirstWins.insertAll_of_not_mem
    intro value hvalue
    obtain ⟨r, h1, h2, _⟩ := (mem_mappings hend).mp hvalue
    exact hnone r ⟨h1, h2⟩

end init_vm

theorem or_and_bit_iff {f flags : BitVec 64} {k : Nat} (h : PTE_GET_ADDR f = f) (hk : k < 64)
    (hmask : PTE_ADDR_MASK.getLsbD k = false)
    : (f ||| flags) &&& (1#64 <<< k) = 0#64 ↔ flags &&& (1#64 <<< k) = 0#64 := by
  rw [and_bit_eq_zero_iff _ hk, and_bit_eq_zero_iff _ hk, BitVec.getLsbD_or, getLsbD_of_page h hmask,
    Bool.false_or]

def pageAddr (addr : Nat) : BitVec 64 :=
  BitVec.ofNat 64 (addr / PGSIZE * PGSIZE)

/--
What `init_vm` is supposed to map: the sections of the kernel with their rights, and the first 2 GiB of physical
memory at their own addresses and at `HHDM_OFFSET`.
-/
structure KernelMapped (sections : Sections) (image : KernelImage) (mem : Mem) (top_level : Addr) : Prop where
  text : ∀ x, Sections.text_start_addr ≤ x → x < sections.text_end_addr →
    Translates mem top_level (pageAddr x) (init_vm.frame image (pageAddr x)) ∧
      Executable mem top_level (pageAddr x) ∧ ¬Writable mem top_level (pageAddr x)
  rodata : ∀ x, sections.rodata_start_addr ≤ x → x < sections.rodata_end_addr →
    Translates mem top_level (pageAddr x) (init_vm.frame image (pageAddr x)) ∧
      ¬Executable mem top_level (pageAddr x) ∧ ¬Writable mem top_level (pageAddr x)
  data : ∀ x, sections.data_start_addr ≤ x → x < sections.data_end_addr →
    Translates mem top_level (pageAddr x) (init_vm.frame image (pageAddr x)) ∧
      ¬Executable mem top_level (pageAddr x) ∧ Writable mem top_level (pageAddr x)
  lower : ∀ p, PGSIZE ∣ p → 0x1000 ≤ p → p < 0x80000000 →
    Translates mem top_level (BitVec.ofNat 64 p) (BitVec.ofNat 64 p) ∧
      Translates mem top_level (BitVec.ofNat 64 p + HHDM_OFFSET) (BitVec.ofNat 64 p)

def Sections.Contains (sections : Sections) (x : Nat) : Prop :=
  (Sections.text_start_addr ≤ x ∧ x < sections.text_end_addr) ∨
    (sections.rodata_start_addr ≤ x ∧ x < sections.rodata_end_addr) ∨
    (sections.data_start_addr ≤ x ∧ x < sections.data_end_addr)

/--
The data does not reach into the last page of the address space, and the physical addresses are ones that an entry
can hold.
-/
structure Sections.Mappable (sections : Sections) (image : KernelImage) : Prop where
  last : sections.data = 0 ∨ sections.data_end_addr ≤ 2 ^ 64 - PGSIZE
  frames : ∀ x, sections.Contains x →
    PTE_GET_ADDR (init_vm.frame image (pageAddr x)) = init_vm.frame image (pageAddr x)

namespace init_vm

variable {sections : Sections} {virtual_base physical_base : BitVec 64} {vm : Vm} {top_level : Addr}

theorem Region.rights {r : Region} {vaddr f : BitVec 64} (hend : sections.data_end_addr ≤ 2 ^ 64)
    (h : Represents vm top_level
      (FirstWins.insertAll Free (fun _ => 0#64) (mappings (sections.image virtual_base physical_base))))
    (h1 : r.first sections ≤ (vpn vaddr).toNat) (h2 : (vpn vaddr).toNat < r.stop sections)
    (hframe : r.frameOf (sections.image virtual_base physical_base) (vpn vaddr) = f) (hf : PTE_GET_ADDR f = f)
    : Translates vm.mem top_level vaddr f ∧ (Executable vm.mem top_level vaddr ↔ r.flags &&& PTE_NX = 0#64) ∧
        (Writable vm.mem top_level vaddr ↔ r.flags &&& PTE_RW ≠ 0#64) := by
  have hwalk : walk vm.mem top_level vaddr = f ||| r.flags := by
    rw [walk_eq_entries, h.entries, (insertAll_mappings hend _).1 r h1 h2, hframe]
  have hpresent : walk vm.mem top_level vaddr &&& PTE_PRESENT ≠ 0#64 := by
    rw [hwalk, PTE_PRESENT, ne_eq, or_and_bit_iff hf (by decide) (by decide)]
    cases r <;> decide
  have haddr : PTE_GET_ADDR r.flags = 0#64 := by
    cases r <;> decide
  refine ⟨⟨hpresent, ?_⟩, ?_, ?_⟩
  . rw [hwalk]
    exact ((split_or_iff _ _).mpr ⟨hf, haddr⟩).1
  . rw [h.executable_iff hpresent, hwalk]
    exact or_and_bit_iff hf (by decide) (by decide)
  . rw [h.writable_iff hpresent, hwalk]
    exact not_congr (or_and_bit_iff hf (by decide) (by decide))

theorem vpn_pageAddr (x : Nat) : (vpn (pageAddr x)).toNat = x / PGSIZE % 2 ^ 36 := by
  unfold pageAddr
  rw [vpn_ofNat]

theorem upperAddr_vpn {x : Nat} (h1 : Sections.text_start_addr ≤ x) (h2 : x < 2 ^ 64)
    : upperAddr (vpn (pageAddr x)) = pageAddr x := by
  unfold upperAddr
  rw [vpn_pageAddr]
  unfold pageAddr
  unfold Sections.text_start_addr at h1
  congr 2
  unfold PGSIZE
  omega

theorem upperNumber_bounds {x start stop : Nat} (h : Sections.text_start_addr ≤ start) (h1 : start ≤ x)
    (h2 : x < stop) (hstop : stop ≤ 2 ^ 64)
    : upperNumber start ≤ (vpn (pageAddr x)).toNat ∧
        (vpn (pageAddr x)).toNat < upperNumber (stop + PGSIZE - 1) := by
  rw [vpn_pageAddr]
  unfold upperNumber
  unfold Sections.text_start_addr at h
  unfold PGSIZE
  omega

theorem PTE_GET_ADDR_page {n : Nat} (h : n < 2 ^ 40)
    : PTE_GET_ADDR (BitVec.ofNat 64 (n * PGSIZE)) = BitVec.ofNat 64 (n * PGSIZE) := by
  cases n with
  | zero => decide
  | succ i =>
    apply firstPages_page h
    unfold firstPages
    exact List.mem_map.mpr ⟨i, List.mem_range.mpr (Nat.lt_succ_self i), rfl⟩

theorem page_number_lower {p : Nat} (h1 : PGSIZE ∣ p) (h2 : 0x1000 ≤ p) (h3 : p < 0x80000000)
    : ∃ n, 1 ≤ n ∧ n < 2 ^ 19 ∧ p = n * PGSIZE ∧
        PTE_GET_ADDR (BitVec.ofNat 64 p) = BitVec.ofNat 64 p := by
  obtain ⟨n, rfl⟩ := h1
  rw [Nat.mul_comm] at h2 h3 ⊢
  unfold PGSIZE at h2 h3
  refine ⟨n, by omega, by omega, rfl, ?_⟩
  apply PTE_GET_ADDR_page
  omega

theorem kernelMapped_of_mappable (hend : sections.data_end_addr ≤ 2 ^ 64)
    (hrep : Represents vm top_level
      (FirstWins.insertAll Free (fun _ => 0#64) (mappings (sections.image virtual_base physical_base))))
    (h : sections.Mappable (sections.image virtual_base physical_base))
    : KernelMapped sections (sections.image virtual_base physical_base) vm.mem top_level := by
  have hpage : PGSIZE = 4096 := rfl
  obtain ⟨htext₁, htext₂, hrodata₁, hrodata₂, hdata₁, hdata₂⟩ := sections.layout
  constructor
  . intro x hx1 hx2
    have hk := upperNumber_bounds (by omega) hx1 hx2 (by omega)
    have hrights := @Region.rights sections virtual_base physical_base vm top_level .text (pageAddr x) _
      hend hrep hk.1 hk.2
      (by rw [Region.frameOf, upperAddr_vpn hx1 (by omega)]) (h.frames x (Or.inl ⟨hx1, hx2⟩))
    rw [hrights.2.1, hrights.2.2]
    exact ⟨hrights.1, by decide, by decide⟩
  . intro x hx1 hx2
    have hk := upperNumber_bounds (by omega) hx1 hx2 (by omega)
    have hrights := @Region.rights sections virtual_base physical_base vm top_level .rodata (pageAddr x) _
      hend hrep hk.1 hk.2
      (by rw [Region.frameOf, upperAddr_vpn (by omega) (by omega)]) (h.frames x (Or.inr (Or.inl ⟨hx1, hx2⟩)))
    rw [hrights.2.1, hrights.2.2]
    exact ⟨hrights.1, by decide, by decide⟩
  . intro x hx1 hx2
    have hk := upperNumber_bounds (by omega) hx1 hx2 (by omega)
    have hlast : sections.data_end_addr ≤ 2 ^ 64 - PGSIZE := by
      cases h.last with
      | inl hempty => omega
      | inr hlast => exact hlast
    have hrights := @Region.rights sections virtual_base physical_base vm top_level .data (pageAddr x) _
      hend hrep hk.1 (by rw [Region.stop, if_pos hlast]; exact hk.2)
      (by rw [Region.frameOf, upperAddr_vpn (by omega) (by omega)]) (h.frames x (Or.inr (Or.inr ⟨hx1, hx2⟩)))
    rw [hrights.2.1, hrights.2.2]
    exact ⟨hrights.1, by decide, by decide⟩
  . intro p hp1 hp2 hp3
    obtain ⟨n, hn1, hn2, rfl, hframe⟩ := page_number_lower hp1 hp2 hp3
    have hk : (vpn (BitVec.ofNat 64 (n * PGSIZE))).toNat = n := by
      rw [vpn_ofNat, Nat.mod_eq_of_lt (by omega)]
    have hk' := vpn_hhdm (n := n) (by omega)
    constructor
    . refine (@Region.rights sections virtual_base physical_base vm top_level .lower _ _ hend hrep
        ?_ ?_ ?_ hframe).1
      . rw [hk, Region.first]
        exact hn1
      . rw [hk, Region.stop]
        exact hn2
      . rw [Region.frameOf, hk]
    . refine (@Region.rights sections virtual_base physical_base vm top_level .hhdm _ _ hend hrep
        ?_ ?_ ?_ hframe).1
      . rw [hk', Region.first]
        omega
      . rw [hk', Region.stop]
        omega
      . rw [Region.frameOf, hk', Nat.add_sub_cancel_left]

theorem Region.stop_le (hend : sections.data_end_addr ≤ 2 ^ 64)
    (hlast : 2 ^ 64 - PGSIZE < sections.data_end_addr) (r : Region) : r.stop sections ≤ 2 ^ 36 - 1 := by
  obtain ⟨htext₁, htext₂, hrodata₁, hrodata₂, hdata₁, hdata₂⟩ := sections.layout
  cases r <;> unfold Region.stop <;> dsimp only
  . unfold upperNumber
    unfold PGSIZE at *
    omega
  . unfold upperNumber
    unfold PGSIZE at *
    omega
  . rw [if_neg (by omega)]
    omega
  . decide
  . decide

theorem vpn_last {x : Nat} (h1 : 2 ^ 64 - PGSIZE ≤ x) (h2 : x < 2 ^ 64)
    : 2 ^ 36 - 1 ≤ (vpn (pageAddr x)).toNat := by
  rw [vpn_pageAddr]
  unfold PGSIZE at *
  omega

theorem mappable_of_kernelMapped (hend : sections.data_end_addr ≤ 2 ^ 64)
    (hrep : Represents vm top_level
      (FirstWins.insertAll Free (fun _ => 0#64) (mappings (sections.image virtual_base physical_base))))
    (h : KernelMapped sections (sections.image virtual_base physical_base) vm.mem top_level)
    : sections.Mappable (sections.image virtual_base physical_base) := by
  have hpage : PGSIZE = 4096 := rfl
  obtain ⟨htext₁, htext₂, hrodata₁, hrodata₂, hdata₁, hdata₂⟩ := sections.layout
  constructor
  . by_contra hlast
    rw [not_or, Nat.not_le] at hlast
    -- The page of the last byte is the last page of the address space, which no region has.
    have hpresent := (h.data (sections.data_end_addr - 1) (by omega) (by omega)).1.1
    have hk := vpn_last (x := sections.data_end_addr - 1) (by omega) (by omega)
    apply hpresent
    rw [walk_eq_entries, hrep.entries, (insertAll_mappings hend _).2]
    . rfl
    . intro r hr
      exact absurd (Nat.lt_of_lt_of_le hr.2 (Region.stop_le hend hlast.2 r)) (Nat.not_lt.mpr hk)
  . rintro x (hx | hx | hx)
    . exact (h.text x hx.1 hx.2).1.frame
    . exact (h.rodata x hx.1 hx.2).1.frame
    . exact (h.data x hx.1 hx.2).1.frame

end init_vm

theorem init_vm_kernelMapped_iff (vm : Vm) (sections : Sections) (virtual_base physical_base : BitVec 64)
    (hend : sections.data_end_addr ≤ 2 ^ 64) (hnodup : vm.supply.Nodup)
    (hpage : ∀ p ∈ vm.supply, PTE_GET_ADDR p = p)
    : (init_vm.tablesNeeded (sections.image virtual_base physical_base) ≤ vm.supply.length →
        (init_vm vm (sections.image virtual_base physical_base)).isSome) ∧
      ∀ top_level vm', init_vm vm (sections.image virtual_base physical_base) = some (top_level, vm') →
        (KernelMapped sections (sections.image virtual_base physical_base) vm'.mem top_level ↔
          sections.Mappable (sections.image virtual_base physical_base)) := by
  constructor
  . intro hsupply
    obtain ⟨top_level, vm', hres, _⟩ := init_vm_isSome hnodup hpage hsupply
    rw [hres]
    rfl
  . intro top_level vm' hres
    have hrep := init_vm_represents hnodup hpage hres
    exact ⟨init_vm.mappable_of_kernelMapped hend hrep, init_vm.kernelMapped_of_mappable hend hrep⟩

theorem firstPages_supply (n : Nat) (h : n < 2 ^ 40)
    : (firstPages n).Nodup ∧ (∀ p ∈ firstPages n, PTE_GET_ADDR p = p) ∧ (firstPages n).length = n :=
  ⟨firstPages_nodup h, firstPages_page h, by simp [firstPages]⟩

def smallSections : Sections :=
  { text := 0x1000, rodata := 0x1000, data := 0x1000 }

theorem smallSections_number {x : Nat} (h : smallSections.Contains x)
    : ∃ d < 5, x / PGSIZE = 0xffffffff80000 + d := by
  have hcontains : (0xffffffff80000000 ≤ x ∧ x < 0xffffffff80001000) ∨
      (0xffffffff80002000 ≤ x ∧ x < 0xffffffff80003000) ∨
      (0xffffffff80004000 ≤ x ∧ x < 0xffffffff80005000) := h
  refine ⟨x / PGSIZE - 0xffffffff80000, ?_, ?_⟩
  . unfold PGSIZE
    omega
  . unfold PGSIZE
    omega

theorem smallSections_mappable
    : smallSections.Mappable (smallSections.image 0xffffffff80000000#64 0x200000#64) := by
  constructor
  . right
    decide
  . intro x hx
    obtain ⟨d, hd, hx⟩ := smallSections_number hx
    have hframe : init_vm.frame (smallSections.image 0xffffffff80000000#64 0x200000#64) (pageAddr x) =
        BitVec.ofNat 64 ((0x200 + d) * PGSIZE) := by
      have hstart : BitVec.ofNat 64 (0xffffffff80000 * PGSIZE) = 0xffffffff80000000#64 := by decide
      have hbase : BitVec.ofNat 64 (0x200 * PGSIZE) = 0x200000#64 := by decide
      unfold pageAddr init_vm.frame Sections.image
      dsimp only
      rw [hx, Nat.add_mul, Nat.add_mul, BitVec.ofNat_add, BitVec.ofNat_add, hstart, hbase,
        BitVec.add_comm 0xffffffff80000000#64, BitVec.add_sub_cancel, BitVec.add_comm]
    rw [hframe]
    apply init_vm.PTE_GET_ADDR_page
    omega

theorem init_vm_kernelMapped_small :
    ∃ top_level vm', init_vm ⟨fun _ _ => 0#64, firstPages 4000000⟩
        (smallSections.image 0xffffffff80000000#64 0x200000#64) = some (top_level, vm') ∧
      KernelMapped smallSections (smallSections.image 0xffffffff80000000#64 0x200000#64) vm'.mem top_level := by
  obtain ⟨hnodup, hpage, hlength⟩ := firstPages_supply 4000000 (by decide)
  generalize firstPages 4000000 = supply at *
  have hneeded : init_vm.tablesNeeded (smallSections.image 0xffffffff80000000#64 0x200000#64) ≤ 4000000 := by
    decide
  rw [← hlength] at hneeded
  obtain ⟨hsome, hiff⟩ := init_vm_kernelMapped_iff ⟨fun _ _ => 0#64, supply⟩ smallSections
    0xffffffff80000000#64 0x200000#64 (by decide) hnodup hpage
  obtain ⟨⟨top_level, vm'⟩, hres⟩ := Option.isSome_iff_exists.mp (hsome hneeded)
  exact ⟨top_level, vm', hres, (hiff top_level vm' hres).mpr smallSections_mappable⟩

def bigSections : Sections :=
  { text := 0x7fffd000, rodata := 0, data := 1 }

theorem init_vm_skips_data :
    ∃ top_level vm', init_vm ⟨fun _ _ => 0#64, firstPages 5000000⟩
        (bigSections.image 0xffffffff80000000#64 0x200000#64) = some (top_level, vm') ∧
      ¬KernelMapped bigSections (bigSections.image 0xffffffff80000000#64 0x200000#64) vm'.mem top_level := by
  obtain ⟨hnodup, hpage, hlength⟩ := firstPages_supply 5000000 (by decide)
  generalize firstPages 5000000 = supply at *
  have hneeded : init_vm.tablesNeeded (bigSections.image 0xffffffff80000000#64 0x200000#64) ≤ 5000000 := by
    decide
  rw [← hlength] at hneeded
  obtain ⟨top_level, vm', hres, _⟩ := @init_vm_isSome ⟨fun _ _ => 0#64, supply⟩
    (bigSections.image 0xffffffff80000000#64 0x200000#64) hnodup hpage hneeded
  refine ⟨top_level, vm', hres, ?_⟩
  intro h
  have hrep := init_vm_represents hnodup hpage hres
  have hlast := (init_vm.mappable_of_kernelMapped (by decide) hrep h).last
  exact absurd hlast (by decide)

end Vmm
end Franklin
