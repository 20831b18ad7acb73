import Franklin.Exec.Lemmas.Loadelf

/-!
This module contains what a program finds in the pages of its segments.
-/

open Radix

namespace Franklin
namespace Exec

open Vmm (Addr Mem Good P2V PTE_GET_ADDR PTE_PRESENT single next entries Free vpn page)
open Pmm (bitmap_test FreeRun)

section Stale

variable {vmap : Addr} {s t : State} {mem mem' : Mem} {p n k : Nat}

/--
The state before the load with other words in the pages that are clear.
-/
def Restocked (s : State) (mem : Mem) : Prop :=
  ∀ t, (∀ q, q < s.bm.pages → bitmap_test s.bm q = false → t ≠ P2V (frame q)) → mem t = s.mem t

theorem Restocked.refl (s : State) : Restocked s s.mem := by
  intro t _
  rfl

theorem Restocked.twins (h : Restocked s mem) (h' : Restocked s mem') (hgood : Good (single vmap) s.vm)
    : Twins vmap { s with mem } { s with mem := mem' } := by
  have hkept : ∀ path t, (single vmap).Reaches next s.mem path t → mem t = s.mem t ∧ mem' t = s.mem t := by
    intro path t hreaches
    have hclear : ∀ q, q < s.bm.pages → bitmap_test s.bm q = false → t ≠ P2V (frame q) := by
      rintro q hq hclear rfl
      exact hgood.fresh (frame q) (vm_supply_iff.mpr ⟨q, hq, hclear, rfl⟩) path hreaches
    exact ⟨h t hclear, h' t hclear⟩
  have hagree : Vmm.Agree (single vmap) s.mem mem := fun path t hreaches => (hkept path t hreaches).1
  refine ⟨rfl, ?_⟩
  intro path t hreaches
  rcases hkept path t (hagree.reaches_iff.mp hreaches) with ⟨hmem, hmem'⟩
  dsimp only
  rw [hmem, hmem']

theorem exists_restocked (hrun : FreeRun s.bm p n) (hk : k < n * PGSIZE) (v : UInt8)
    : ∃ mem, Restocked s mem ∧ readByte mem (P2V (frame p) + BitVec.ofNat 64 k) = v := by
  have hpage : k / PGSIZE < n := by
    rw [Nat.div_lt_iff_lt_mul (by decide)]
    exact hk
  have hle := hrun.1
  refine ⟨writeBytes s.mem (P2V (frame p) + BitVec.ofNat 64 k) 1 fun _ => v, ?_, ?_⟩
  . intro t ht
    have hne := ht (p + k / PGSIZE) (by omega) (hrun.2 _ (Nat.le_add_right _ _) (by omega))
    by_cases halign : t.toNat % PGSIZE = 0
    . apply writeBytes_of_disjoint
      intro j hj hlt
      have heq : t + BitVec.ofNat 64 j = P2V (frame p) + BitVec.ofNat 64 k := by
        have hzero : t + BitVec.ofNat 64 j - (P2V (frame p) + BitVec.ofNat 64 k) = 0#64 := by
          apply BitVec.eq_of_toNat_eq
          rw [BitVec.toNat_ofNat]
          omega
        rw [← BitVec.sub_add_cancel (t + BitVec.ofNat 64 j) (P2V (frame p) + BitVec.ofNat 64 k), hzero,
          BitVec.zero_add]
      apply hne
      rw [← pageStart_frame, ← heq, pageStart_add halign hj]
    . unfold writeBytes
      funext i
      rw [if_neg halign]
  . rw [readByte_writeBytes, BitVec.sub_self, if_pos (by decide)]

theorem page_ext {t : Addr} (ht : t.toNat % PGSIZE = 0)
    (h : ∀ k, k < PGSIZE → readByte mem' (t + BitVec.ofNat 64 k) = readByte mem (t + BitVec.ofNat 64 k))
    : mem' t = mem t := by
  funext i
  have hi := i.isLt
  have htlt := t.isLt
  rw [← Endian.word_byte (mem' t i), ← Endian.word_byte (mem t i)]
  apply Endian.word_congr
  intro k hk
  have hbyte := h (8 * i.toNat + k) (by unfold PGSIZE; omega)
  unfold readByte at hbyte
  rw [pageStart_add ht (by unfold PGSIZE; omega)] at hbyte
  have hoffset : (t + BitVec.ofNat 64 (8 * i.toNat + k)).toNat % 8 = k := by
    unfold PGSIZE at ht
    simp only [BitVec.toNat_add, BitVec.toNat_ofNat]
    omega
  have hindex : BitVec.ofNat 9 ((t + BitVec.ofNat 64 (8 * i.toNat + k)).toNat / 8) = i := by
    apply BitVec.eq_of_toNat_eq
    unfold PGSIZE at ht
    simp only [BitVec.toNat_add, BitVec.toNat_ofNat]
    omega
  rw [hoffset, hindex] at hbyte
  exact hbyte

end Stale

section Pages

variable {vmap : Addr} {vn : Fs.File} {phdr : Block} {s s' : State} {rest : List (Block × Nat)} {p i k : Nat}
  {v : BitVec 64}

def pageSpan (phdr : Block) : Nat :=
  if p_memsz phdr = 0#64 then
    0
  else
    ((p_vaddr phdr).toNat % PGSIZE + (p_memsz phdr).toNat - 1) / PGSIZE + 1

def spans (phdrs : List Block) : List (Block × Nat) :=
  phdrs.flatMap fun phdr => (List.range (pageSpan phdr)).map fun i => (phdr, i)

def number (x : Block × Nat) : BitVec 36 :=
  vpn (p_vaddr x.1) + BitVec.ofNat 36 x.2

theorem vpn_add (v : BitVec 64) (k : Nat)
    : vpn (v + BitVec.ofNat 64 k) = vpn v + BitVec.ofNat 36 ((v.toNat % PGSIZE + k) / PGSIZE) := by
  have hlt := v.isLt
  apply BitVec.eq_of_toNat_eq
  unfold Vmm.vpn PGSIZE
  simp only [BitVec.toNat_add, BitVec.toNat_setWidth, BitVec.toNat_ushiftRight, BitVec.toNat_ofNat,
    Nat.shiftRight_eq_div_pow]
  omega

theorem pagecount_toNat (h : (p_memsz phdr).toNat + 4095 < 2 ^ 64)
    : (pagecount phdr).toNat = ((p_memsz phdr).toNat + 4095) / 4096 := by
  unfold pagecount DIV_ROUNDUP
  rw [BitVec.toNat_udiv, BitVec.toNat_sub, BitVec.toNat_add, pgsize_toNat]
  have hone : (1 : BitVec 64).toNat = 1 := rfl
  rw [hone]
  omega

theorem flags_present (phdr : Block) (page : Addr) : (page ||| flags phdr) &&& PTE_PRESENT ≠ 0#64 := by
  intro hzero
  have hbit : ((page ||| flags phdr) &&& PTE_PRESENT).getLsbD 0 = false := by
    rw [hzero]
    rfl
  unfold flags at hbit
  dsimp only at hbit
  split at hbit
  . split at hbit
    . simp [PTE_PRESENT] at hbit
    . simp [PTE_PRESENT] at hbit
  . split at hbit
    . simp [PTE_PRESENT] at hbit
    . simp [PTE_PRESENT] at hbit

theorem flags_addr (phdr : Block) : PTE_GET_ADDR (flags phdr) = 0#64 := by
  unfold flags
  dsimp only
  split
  . split
    . rfl
    . rfl
  . split
    . rfl
    . rfl

theorem mem_mappings {n : BitVec 36}
    : (n, v) ∈ mappings rest ↔ ∃ load ∈ rest, ∃ i, i < (pagecount load.1).toNat ∧ n = number (load.1, i)
        ∧ v = page (frame load.2) i ||| flags load.1 := by
  unfold mappings number Vmm.mappages.mapping
  rw [List.mem_flatMap]
  apply exists_congr
  intro load
  apply and_congr_right
  intro _
  rw [List.mem_map]
  apply exists_congr
  intro i
  rw [List.mem_range'_1, Prod.mk.injEq]
  dsimp only
  constructor
  . rintro ⟨hi, hn, hv⟩
    exact ⟨by omega, hn.symm, hv.symm⟩
  . rintro ⟨hi, hn, hv⟩
    exact ⟨by omega, hn.symm, hv.symm⟩

theorem lt_pageSpan (h : k < (p_memsz phdr).toNat)
    : ((p_vaddr phdr).toNat % PGSIZE + k) / PGSIZE < pageSpan phdr := by
  unfold pageSpan
  rw [if_neg]
  . unfold PGSIZE
    omega
  . intro hzero
    rw [hzero] at h
    exact absurd h (Nat.not_lt_zero k)

theorem number_inj (hnodup : ((spans (rest.map Prod.fst)).map number).Nodup) {load load' : Block × Nat} {i i' : Nat}
    (hload : load ∈ rest) (hload' : load' ∈ rest) (hi : i < pageSpan load.1) (hi' : i' < pageSpan load'.1)
    (heq : number (load.1, i) = number (load'.1, i')) : load = load' ∧ i = i' := by
  have hspans : ∀ loads : List (Block × Nat), (spans (loads.map Prod.fst)).map number =
      (loads.flatMap fun load => (List.range (pageSpan load.1)).map fun i => (load, i)).map
        fun x => number (x.1.1, x.2) := by
    intro loads
    unfold spans
    rw [List.flatMap_map, List.map_flatMap, List.map_flatMap]
    simp only [List.map_map, Function.comp_def]
  rw [hspans] at hnodup
  have hmem : ∀ {load : Block × Nat} {i : Nat}, load ∈ rest → i < pageSpan load.1 →
      (load, i) ∈ rest.flatMap fun load => (List.range (pageSpan load.1)).map fun i => (load, i) := by
    intro load i hload hi
    exact List.mem_flatMap.mpr ⟨load, hload, List.mem_map.mpr ⟨i, List.mem_range.mpr hi, rfl⟩⟩
  exact Prod.mk.inj (List.inj_on_of_nodup_map hnodup (hmem hload hi) (hmem hload' hi') heq)

theorem pageSpan_le (hnodup : ((spans (rest.map Prod.fst)).map number).Nodup) {load : Block × Nat}
    (hload : load ∈ rest)
    : pageSpan load.1 ≤ 2 ^ 36 := by
  by_contra hlt
  have heq : number (load.1, 0) = number (load.1, 2 ^ 36) := by
    unfold number
    dsimp only
    rw [show BitVec.ofNat 36 (2 ^ 36) = BitVec.ofNat 36 0 by rfl]
  have hzero := (number_inj hnodup hload hload (by omega) (by omega) heq).2
  exact absurd hzero (by decide)

theorem memsz_lt (h : pageSpan phdr ≤ 2 ^ 36) : (p_memsz phdr).toNat ≤ 2 ^ 48 := by
  unfold pageSpan PGSIZE at h
  split at h
  . next hzero =>
    rw [hzero]
    exact Nat.zero_le _
  . omega

theorem pagecount_le_pageSpan (h : pageSpan phdr ≤ 2 ^ 36) : (pagecount phdr).toNat ≤ pageSpan phdr := by
  have hlt := memsz_lt h
  rw [pagecount_toNat (by omega)]
  unfold pageSpan
  split
  . next hzero =>
    rw [hzero]
    decide
  . next hne =>
    have hpos : (p_memsz phdr).toNat ≠ 0 := by
      intro hzero
      exact hne (BitVec.eq_of_toNat_eq hzero)
    unfold PGSIZE
    omega

theorem entries_of_loaded (h : Loaded vmap vn rest s s') (hnodup : ((spans (rest.map Prod.fst)).map number).Nodup)
    (hmem : (phdr, p) ∈ rest) (hi : i < (pagecount phdr).toNat)
    (hfree : Free (entries s.mem vmap (number (phdr, i))))
    : entries s'.mem vmap (number (phdr, i)) = page (frame p) i ||| flags phdr := by
  have hspan : ∀ load ∈ rest, (pagecount load.1).toNat ≤ pageSpan load.1 :=
    fun load hload => pagecount_le_pageSpan (pageSpan_le hnodup hload)
  have hphdr := hspan _ hmem
  rw [h.entries]
  apply FirstWins.insertAll_of_mem hfree
  . exact mem_mappings.mpr ⟨(phdr, p), hmem, i, hi, rfl, rfl⟩
  . intro v' hv'
    rcases mem_mappings.mp hv' with ⟨load, hload, i', hi', hnumber, rfl⟩
    have hload' := hspan load hload
    dsimp only at hphdr
    rcases number_inj hnodup hmem hload (show i < pageSpan phdr by omega) (by omega) hnumber with ⟨rfl, rfl⟩
    rfl

theorem entries_of_not_loaded (h : Loaded vmap vn rest s s')
    (hnodup : ((spans (rest.map Prod.fst)).map number).Nodup) (hmem : (phdr, p) ∈ rest)
    (hi : (pagecount phdr).toNat ≤ i) (hspan : i < pageSpan phdr)
    : entries s'.mem vmap (number (phdr, i)) = entries s.mem vmap (number (phdr, i)) := by
  rw [h.entries]
  apply FirstWins.insertAll_of_not_mem
  intro v' hv'
  rcases mem_mappings.mp hv' with ⟨load, hload, i', hi', hnumber, _⟩
  have hload' := pagecount_le_pageSpan (pageSpan_le hnodup hload)
  rcases number_inj hnodup hmem hload hspan (by omega) hnumber with ⟨rfl, rfl⟩
  dsimp only at hi'
  omega

theorem readVirt_of_loaded (h : Loaded vmap vn rest s s') (hgood : Good (single vmap) s.vm)
    (hnodup : ((spans (rest.map Prod.fst)).map number).Nodup) (hmem : (phdr, p) ∈ rest)
    (hk : (p_vaddr phdr).toNat % PGSIZE + k < (pagecount phdr).toNat * PGSIZE)
    (hfree : Free (entries s.mem vmap (number (phdr, ((p_vaddr phdr).toNat % PGSIZE + k) / PGSIZE))))
    : readVirt s'.mem vmap (p_vaddr phdr + BitVec.ofNat 64 k) =
        some (readByte s'.mem (P2V (frame p) + BitVec.ofNat 64 ((p_vaddr phdr).toNat % PGSIZE + k))) := by
  have hpage : ((p_vaddr phdr).toNat % PGSIZE + k) / PGSIZE < (pagecount phdr).toNat := by
    rw [Nat.div_lt_iff_lt_mul (by decide)]
    exact hk
  have hentry := entries_of_loaded h hnodup hmem hpage hfree
  have hwalk : Vmm.walk s'.mem vmap (p_vaddr phdr + BitVec.ofNat 64 k) =
      page (frame p) (((p_vaddr phdr).toNat % PGSIZE + k) / PGSIZE) ||| flags phdr := by
    rw [Vmm.walk_eq_entries, vpn_add]
    exact hentry
  have haddr : PTE_GET_ADDR (page (frame p) (((p_vaddr phdr).toNat % PGSIZE + k) / PGSIZE)) =
      page (frame p) (((p_vaddr phdr).toNat % PGSIZE + k) / PGSIZE) := by
    rcases (h.content hgood hmem).1 with ⟨hle, hclear⟩
    rw [page_frame]
    apply hgood.page
    exact vm_supply_iff.mpr ⟨_, by omega, hclear _ (Nat.le_add_right _ _) (by omega), rfl⟩
  unfold readVirt
  dsimp only
  rw [hwalk, if_pos (flags_present _ _), ((Vmm.split_or_iff _ _).mpr ⟨haddr, flags_addr phdr⟩).1]
  have hoffset : (p_vaddr phdr + BitVec.ofNat 64 k).toNat % PGSIZE =
      ((p_vaddr phdr).toNat % PGSIZE + k) % PGSIZE := by
    unfold PGSIZE
    rw [BitVec.toNat_add, BitVec.toNat_ofNat]
    omega
  rw [hoffset, page_frame, ← P2V_frame_add, Nat.div_add_mod']

theorem readVirt_of_not_loaded (h : Loaded vmap vn rest s s')
    (hnodup : ((spans (rest.map Prod.fst)).map number).Nodup) (hmem : (phdr, p) ∈ rest)
    (hk : (pagecount phdr).toNat * PGSIZE ≤ (p_vaddr phdr).toNat % PGSIZE + k) (hmemsz : k < (p_memsz phdr).toNat)
    (hfree : Free (entries s.mem vmap (number (phdr, ((p_vaddr phdr).toNat % PGSIZE + k) / PGSIZE))))
    : readVirt s'.mem vmap (p_vaddr phdr + BitVec.ofNat 64 k) = none := by
  have hpage : (pagecount phdr).toNat ≤ ((p_vaddr phdr).toNat % PGSIZE + k) / PGSIZE := by
    rw [Nat.le_div_iff_mul_le (by decide)]
    exact hk
  have hentry := entries_of_not_loaded h hnodup hmem hpage (lt_pageSpan hmemsz)
  rw [← hentry] at hfree
  have hwalk : Vmm.walk s'.mem vmap (p_vaddr phdr + BitVec.ofNat 64 k) &&& PTE_PRESENT = 0#64 := by
    rw [Vmm.walk_eq_entries, vpn_add]
    exact hfree
  unfold readVirt
  dsimp only
  rw [hwalk, if_neg (by decide)]

end Pages

section Contains

variable {vmap : Addr} {vn : Fs.File} {phdr : Block} {s s' : State} {locals : Locals} {mem : Mem}

/--
A regular file that nobody holds, with segments that are in the file, in pages of their own, and in pages that are
not mapped.
-/
structure Loadable (locals : Locals) (vn : Fs.File) (vmap : Addr) (mem : Mem) : Prop where
  type : vn.type = .VREG
  lock : vn.lock = false
  ramlock : vn.ramlock = false
  valid : vn.Valid
  inside : ∀ phdr ∈ segments locals vn, (p_offset phdr).toNat + (p_filesz phdr).toNat ≤ vn.size.toNat
  filesz : ∀ phdr ∈ segments locals vn, (p_filesz phdr).toNat ≤ (p_memsz phdr).toNat
  disjoint : ((spans (segments locals vn)).map number).Nodup
  free : ∀ x ∈ spans (segments locals vn), Free (entries mem vmap (number x))

/--
The bytes of the segments that are in the file are where the program expects them, and all of their addresses are
mapped.
-/
def Contains (vn : Fs.File) (phdrs : List Block) (vmap : Addr) (mem : Mem) : Prop :=
  ∀ phdr ∈ phdrs,
    (∀ k, k < (p_filesz phdr).toNat →
      readVirt mem vmap (p_vaddr phdr + BitVec.ofNat 64 k) = some (content vn (p_offset phdr) k)) ∧
    ∀ k, k < (p_memsz phdr).toNat → (readVirt mem vmap (p_vaddr phdr + BitVec.ofNat 64 k)).isSome

/--
The segment starts at the start of a page if it has bytes in the file, and ends in the last page that is mapped
for it.
-/
def Aligned (phdr : Block) : Prop :=
  (p_filesz phdr ≠ 0#64 → (p_vaddr phdr).toNat % PGSIZE = 0) ∧
    (p_memsz phdr ≠ 0#64 →
      (p_vaddr phdr).toNat % PGSIZE + (p_memsz phdr).toNat ≤ (pagecount phdr).toNat * PGSIZE)

theorem Loadable.copies (h : Loadable locals vn vmap mem) (hphdr : phdr ∈ segments locals vn)
    (hfilesz : p_filesz phdr ≠ 0#64) : Copies vn (p_offset phdr) (p_filesz phdr) := by
  have hin := h.inside phdr hphdr
  have hpos : (p_filesz phdr).toNat ≠ 0 := fun hzero => hfilesz (BitVec.eq_of_toNat_eq hzero)
  refine ⟨h.lock, ?_, h.ramlock, ?_, ?_⟩
  . rw [h.type]
    intro htype
    cases htype
  . rw [BitVec.lt_def, BitVec.toNat_add]
    omega
  . have hsize := h.valid.size
    cases hdata : vn.data with
    | null =>
      rw [hdata] at hsize
      change 0 = vn.size.toNat at hsize
      omega
    | _ => exact Bool.false_ne_true

theorem map_fst_pair (phdrs : List Block) : (phdrs.map fun b => (b, 0)).map Prod.fst = phdrs := by
  rw [List.map_map]
  exact List.map_id _

theorem Loadable.memsz_lt (h : Loadable locals vn vmap mem) (hphdr : phdr ∈ segments locals vn)
    : (p_memsz phdr).toNat ≤ 2 ^ 48 := by
  have hnodup := h.disjoint
  generalize segments locals vn = phdrs at hnodup hphdr
  rw [← map_fst_pair phdrs] at hnodup
  have hmem : (phdr, 0) ∈ phdrs.map fun b => (b, 0) := List.mem_map.mpr ⟨phdr, hphdr, rfl⟩
  have hspan := pageSpan_le hnodup hmem
  dsimp only at hspan
  exact Exec.memsz_lt hspan

theorem Loadable.memsz_le (h : Loadable locals vn vmap mem) (hphdr : phdr ∈ segments locals vn)
    : (p_memsz phdr).toNat ≤ (pagecount phdr).toNat * PGSIZE := by
  have hlt := h.memsz_lt hphdr
  rw [pagecount_toNat (by omega)]
  unfold PGSIZE
  omega

theorem Loadable.fits (h : Loadable locals vn vmap mem) : ∀ phdr ∈ segments locals vn, Fits vn phdr := by
  intro phdr hphdr _
  have hfilesz := h.filesz phdr hphdr
  have hmemsz := h.memsz_le hphdr
  omega

theorem Loadable.free_at (h : Loadable locals vn vmap mem) (hphdr : phdr ∈ segments locals vn) {k : Nat}
    (hk : k < (p_memsz phdr).toNat)
    : Free (entries mem vmap (number (phdr, ((p_vaddr phdr).toNat % PGSIZE + k) / PGSIZE))) := by
  apply h.free
  unfold spans
  exact List.mem_flatMap.mpr ⟨phdr, hphdr, List.mem_map.mpr ⟨_, List.mem_range.mpr (lt_pageSpan hk), rfl⟩⟩

theorem exists_load {rest : List (Block × Nat)} (hrest : rest.map Prod.fst = segments locals vn)
    (hphdr : phdr ∈ segments locals vn) : ∃ p, (phdr, p) ∈ rest := by
  rw [← hrest] at hphdr
  rcases List.mem_map.mp hphdr with ⟨load, hload, rfl⟩
  exact ⟨load.2, hload⟩

theorem exists_ne (v : UInt8) : ∃ v', v' ≠ v := by
  by_cases hzero : v = 0
  . exact ⟨1, by rw [hzero]; decide⟩
  . exact ⟨0, fun heq => hzero heq.symm⟩

theorem Loadable.restocked {t : State} (h : Loadable locals vn vmap s.mem) (htwin : Twins vmap s t)
    : Loadable locals vn vmap t.mem := by
  have hentries : entries t.mem vmap = entries s.mem vmap := by
    funext n
    exact htwin.2.walk_same _
  refine ⟨h.type, h.lock, h.ramlock, h.valid, h.inside, h.filesz, h.disjoint, ?_⟩
  rw [hentries]
  exact h.free

theorem Loadable.contains (h : Loadable locals vn vmap s.mem) (hgood : Good (single vmap) s.vm)
    (haligned : ∀ phdr ∈ segments locals vn, Aligned phdr) {aux : Auxval}
    (hrun : loadelf.file locals vmap vn s = .ok aux s') : Contains vn (segments locals vn) vmap s'.mem := by
  rcases (wp_of_ok hrun).mp (file_wp hgood h.fits) with ⟨rest, hrest, hloaded⟩
  have hnodup := h.disjoint
  rw [← hrest] at hnodup
  intro phdr hphdr
  rcases exists_load hrest hphdr with ⟨p, hp⟩
  rcases haligned phdr hphdr with ⟨hstart, hstop⟩
  have hmapped : ∀ k, k < (p_memsz phdr).toNat → readVirt s'.mem vmap (p_vaddr phdr + BitVec.ofNat 64 k) =
      some (readByte s'.mem (P2V (frame p) + BitVec.ofNat 64 ((p_vaddr phdr).toNat % PGSIZE + k))) := by
    intro k hk
    have hle := hstop (by rintro hzero; rw [hzero] at hk; exact absurd hk (Nat.not_lt_zero k))
    exact readVirt_of_loaded hloaded hgood hnodup hp (by omega) (h.free_at hphdr hk)
  constructor
  . intro k hk
    have hfilesz := h.filesz phdr hphdr
    have hmemsz := h.memsz_le hphdr
    have hne : p_filesz phdr ≠ 0#64 := by
      intro hzero
      rw [hzero] at hk
      exact absurd hk (Nat.not_lt_zero k)
    rw [hmapped k (by omega), hstart hne, Nat.zero_add, (hloaded.content hgood hp).2 k (by omega),
      if_pos ⟨h.copies hphdr hne, hk⟩]
  . intro k hk
    rw [hmapped k hk]
    rfl

theorem Loadable.aligned (hfile : Loadable locals vn vmap s.mem) (hgood : Good (single vmap) s.vm) {aux : Auxval}
    {s₁ : State}
    (hrun : loadelf.file locals vmap vn s = .ok aux s₁)
    (hall : ∀ mem, Restocked s mem → ∀ aux s', loadelf.file locals vmap vn { s with mem } = .ok aux s' →
      Contains vn (segments locals vn) vmap s'.mem)
    : ∀ phdr ∈ segments locals vn, Aligned phdr := by
  intro phdr hphdr
  rcases file_twin hgood hfile.fits hrun with ⟨rest, hrest, hloaded, htwins⟩
  rcases exists_load hrest hphdr with ⟨p, hp⟩
  have hnodup := hfile.disjoint
  rw [← hrest] at hnodup
  have hmemsz := hfile.memsz_le hphdr
  have hstop : p_memsz phdr ≠ 0#64 →
      (p_vaddr phdr).toNat % PGSIZE + (p_memsz phdr).toNat ≤ (pagecount phdr).toNat * PGSIZE := by
    intro hne
    by_contra hlt
    have hpos : (p_memsz phdr).toNat ≠ 0 := fun hzero => hne (BitVec.eq_of_toNat_eq hzero)
    have hoffset : (p_vaddr phdr).toNat % PGSIZE < PGSIZE := Nat.mod_lt _ (by decide)
    have hpage : PGSIZE ≤ (pagecount phdr).toNat * PGSIZE := by
      apply Nat.le_mul_of_pos_left
      apply Nat.pos_of_ne_zero
      intro hzero
      rw [hzero] at hmemsz
      omega
    -- The first address behind the pages that are mapped.
    have hk : (pagecount phdr).toNat * PGSIZE - (p_vaddr phdr).toNat % PGSIZE < (p_memsz phdr).toNat := by
      omega
    have hnone := readVirt_of_not_loaded hloaded hnodup hp (by omega) hk (hfile.free_at hphdr hk)
    have hsome := (hall s.mem (Restocked.refl s) aux s₁ hrun phdr hphdr).2 _ hk
    rw [hnone] at hsome
    cases hsome
  refine ⟨?_, hstop⟩
  intro hne
  by_contra hstart
  have hpos : (p_filesz phdr).toNat ≠ 0 := fun hzero => hne (BitVec.eq_of_toNat_eq hzero)
  have hfilesz := hfile.filesz phdr hphdr
  have hle := hstop (by rintro hzero; rw [hzero] at hfilesz; exact hpos (Nat.le_zero.mp hfilesz))
  -- The last byte of the file is expected behind the bytes that were copied.
  have hbyte : (p_vaddr phdr).toNat % PGSIZE + ((p_filesz phdr).toNat - 1) < (pagecount phdr).toNat * PGSIZE := by
    omega
  rcases exists_ne (content vn (p_offset phdr) ((p_filesz phdr).toNat - 1)) with ⟨v, hv⟩
  rcases exists_restocked (hloaded.content hgood hp).1 hbyte v with ⟨mem, hmem, hstale⟩
  have htwin := (Restocked.refl s).twins hmem hgood
  rcases htwins _ htwin with ⟨s', hrun', hloaded'⟩
  have hread := (hall mem hmem aux s' hrun' phdr hphdr).1 ((p_filesz phdr).toNat - 1) (by omega)
  rw [readVirt_of_loaded hloaded' (htwin.good hgood) hnodup hp hbyte
    ((hfile.restocked htwin).free_at hphdr (by omega)), (hloaded'.content (htwin.good hgood) hp).2 _ hbyte,
    if_neg (by omega)] at hread
  dsimp only at hread
  rw [hstale] at hread
  exact hv (Option.some.inj hread)

/--
A program finds its segments, whatever the pages held before, exactly if their start and their end allow it.
-/
theorem loadelf_contains_iff (hgood : Good (single vmap) s.vm) (hfile : Loadable locals vn vmap s.mem)
    : ((∀ phdr ∈ segments locals vn, Aligned phdr) →
        ∀ mem, Restocked s mem → ∀ aux s', loadelf.file locals vmap vn { s with mem } = .ok aux s' →
          Contains vn (segments locals vn) vmap s'.mem) ∧
      ∀ aux s₁, loadelf.file locals vmap vn s = .ok aux s₁ →
        ((∀ mem, Restocked s mem → ∀ aux s', loadelf.file locals vmap vn { s with mem } = .ok aux s' →
            Contains vn (segments locals vn) vmap s'.mem) ↔
          ∀ phdr ∈ segments locals vn, Aligned phdr) := by
  have hsuff : (∀ phdr ∈ segments locals vn, Aligned phdr) →
      ∀ mem, Restocked s mem → ∀ aux s', loadelf.file locals vmap vn { s with mem } = .ok aux s' →
        Contains vn (segments locals vn) vmap s'.mem := by
    intro haligned mem hmem aux s' hrun
    have htwin := (Restocked.refl s).twins hmem hgood
    exact (hfile.restocked htwin).contains (htwin.good hgood) haligned hrun
  refine ⟨hsuff, ?_⟩
  intro aux s₁ hrun
  exact ⟨hfile.aligned hgood hrun, hsuff⟩

theorem entries_zero (vmap : Addr) (n : BitVec 36) : entries (fun _ _ => 0#64) vmap n = 0#64 := by
  simp [Vmm.entries, Vmm.walk, leaf, Vmm.levels, follow]

theorem oneSegment_loadable {offset vaddr filesz memsz : BitVec 64}
    (hheader : IsHeader phdr offset vaddr filesz memsz)
    (hsegments : segments locals (oneSegment offset vaddr filesz memsz) = [phdr])
    (hinside : offset.toNat + filesz.toNat ≤ 120) (hfilesz : filesz.toNat ≤ memsz.toNat)
    (hpage : vaddr.toNat % PGSIZE + memsz.toNat ≤ PGSIZE)
    : Loadable locals (oneSegment offset vaddr filesz memsz) vmap sampleState.mem := by
  have hspan : pageSpan phdr ≤ 1 := by
    unfold pageSpan
    rw [hheader.memsz, hheader.vaddr]
    unfold PGSIZE at *
    split
    . omega
    . omega
  constructor
  case type => rfl
  case lock => rfl
  case ramlock => rfl
  case valid =>
    constructor
    . intro hwild
      cases hwild
    . rfl
  case inside =>
    intro b hb
    rw [hsegments, List.mem_singleton] at hb
    rw [hb, hheader.offset, hheader.filesz]
    exact hinside
  case filesz =>
    intro b hb
    rw [hsegments, List.mem_singleton] at hb
    rw [hb, hheader.filesz, hheader.memsz]
    exact hfilesz
  case disjoint =>
    rw [hsegments]
    unfold spans
    rw [List.flatMap_singleton, List.map_map]
    apply List.Nodup.map_on _ List.nodup_range
    intro i hi j hj _
    rw [List.mem_range] at hi hj
    omega
  case free =>
    intro x _
    rw [show sampleState.mem = fun _ _ => 0#64 from rfl, entries_zero]
    rfl

theorem loadelf_contains_sample :
    ∃ phdr aux s', segments sampleLocals (oneSegment 0#64 0x400000#64 16#64 32#64) = [phdr]
      ∧ loadelf.file sampleLocals (P2V (frame 0)) (oneSegment 0#64 0x400000#64 16#64 32#64) sampleState = .ok aux s'
      ∧ Contains (oneSegment 0#64 0x400000#64 16#64 32#64) [phdr] (P2V (frame 0)) s'.mem := by
  have hpages : (DIV_ROUNDUP 32#64 pgsize).toNat = 1 := by
    decide
  rcases @sampleState_returns 0#64 0x400000#64 16#64 32#64 (by decide) (by decide) (by decide) with
    ⟨phdr, hheader, hsegments, aux, s', hrun⟩
  refine ⟨phdr, aux, s', hsegments, hrun, ?_⟩
  have hfile := @oneSegment_loadable (P2V (frame 0)) phdr sampleLocals 0#64 0x400000#64 16#64 32#64 hheader hsegments
    (by decide) (by decide) (by decide)
  rw [← hsegments]
  apply (loadelf_contains_iff sampleState_good hfile).1 _ sampleState.mem (Restocked.refl _) aux s' hrun
  intro b hb
  rw [hsegments, List.mem_singleton] at hb
  unfold Aligned
  rw [hb, hheader.vaddr, hheader.memsz, header_pagecount hheader, hpages]
  exact ⟨fun _ => by decide, fun _ => by decide⟩

theorem loadelf_misplaces_bytes :
    ∃ phdr mem aux s', segments sampleLocals (oneSegment 1#64 0x400001#64 1#64 1#64) = [phdr]
      ∧ (p_vaddr phdr).toNat % PGSIZE = (p_offset phdr).toNat % PGSIZE
      ∧ Loadable sampleLocals (oneSegment 1#64 0x400001#64 1#64 1#64) (P2V (frame 0)) mem ∧ Restocked sampleState mem
      ∧ loadelf.file sampleLocals (P2V (frame 0)) (oneSegment 1#64 0x400001#64 1#64 1#64) { sampleState with mem } =
          .ok aux s'
      ∧ ¬ Contains (oneSegment 1#64 0x400001#64 1#64 1#64) [phdr] (P2V (frame 0)) s'.mem := by
  have hpages : (DIV_ROUNDUP 1#64 pgsize).toNat = 1 := by
    decide
  rcases @sampleState_returns 1#64 0x400001#64 1#64 1#64 (by decide) (by decide) (by decide) with
    ⟨phdr, hheader, hsegments, aux, s', hrun⟩
  have hfile := @oneSegment_loadable (P2V (frame 0)) phdr sampleLocals 1#64 0x400001#64 1#64 1#64 hheader hsegments
    (by decide) (by decide) (by decide)
  by_contra hnone
  have haligned := hfile.aligned sampleState_good hrun fun mem hmem aux' s'' hrun' => by
    by_contra hcontains
    apply hnone
    rw [hsegments] at hcontains
    refine ⟨phdr, mem, aux', s'', hsegments, ?_, ?_, hmem, hrun', hcontains⟩
    . rw [hheader.vaddr, hheader.offset]
      decide
    . exact hfile.restocked ((Restocked.refl sampleState).twins hmem sampleState_good)
  have hstart := (haligned phdr (by rw [hsegments]; exact List.mem_singleton_self phdr)).1
  rw [hheader.filesz, hheader.vaddr] at hstart
  exact absurd (hstart (by decide)) (by decide)

end Contains

section Scrubbed

variable {vmap : Addr} {vn : Fs.File} {phdr : Block} {s s' : State} {locals : Locals} {mem : Mem}
variable {rest : List (Block × Nat)}

/--
What is behind the bytes of the file is zero, and no page of a segment depends on what has been in it before: the new
pages that are no tables.
-/
def Scrubbed (locals : Locals) (vn : Fs.File) (vmap : Addr) (s : State) : Prop :=
  ∀ mem mem', Restocked s mem → Restocked s mem' → ∀ aux aux' s' s'',
    loadelf.file locals vmap vn { s with mem } = .ok aux s' →
    loadelf.file locals vmap vn { s with mem := mem' } = .ok aux' s'' →
      (∀ phdr ∈ segments locals vn, ∀ k, (p_filesz phdr).toNat ≤ k → k < (p_memsz phdr).toNat →
        readVirt s'.mem vmap (p_vaddr phdr + BitVec.ofNat 64 k) = some 0) ∧
      ∀ q, New s s' q → ¬ Vmm.IsTable s'.mem vmap (P2V (frame q)) →
        s''.mem (P2V (frame q)) = s'.mem (P2V (frame q))

/--
The bytes of the file are all bytes of the pages.
-/
def Filled (vn : Fs.File) (phdr : Block) : Prop :=
  (p_filesz phdr).toNat = (pagecount phdr).toNat * PGSIZE ∧ (p_memsz phdr).toNat ≤ (p_filesz phdr).toNat ∧
    (p_filesz phdr ≠ 0#64 → Copies vn (p_offset phdr) (p_filesz phdr))

theorem scrubbed_of_filled (hgood : Good (single vmap) s.vm) (h : ∀ phdr ∈ segments locals vn, Filled vn phdr)
    : Scrubbed locals vn vmap s := by
  have hfit : ∀ phdr ∈ segments locals vn, Fits vn phdr := by
    intro phdr hphdr _
    rw [(h phdr hphdr).1]
  intro mem mem' hmem hmem' aux aux' s' s'' hrun hrun'
  constructor
  . intro phdr hphdr k hk hk'
    have hle := (h phdr hphdr).2.1
    omega
  . intro q hq htable
    have hgood' := ((Restocked.refl s).twins hmem hgood).good hgood
    rcases file_twin hgood' hfit hrun with ⟨rest, hrest, hloaded, htwins⟩
    rcases htwins _ (hmem.twins hmem' hgood) with ⟨t', ht', hloaded'⟩
    rw [hrun'] at ht'
    rcases (EStateM.Result.ok.inj ht').2 with rfl
    rcases hloaded.used hq with ⟨load, hload, hle, hlt⟩ | ⟨path, hreaches⟩
    . have hfilled := h load.1 (by rw [← hrest]; exact List.mem_map_of_mem hload)
      apply page_ext (P2V_frame_aligned q)
      intro k hk
      have hoffset : P2V (frame q) + BitVec.ofNat 64 k =
          P2V (frame load.2) + BitVec.ofNat 64 ((q - load.2) * PGSIZE + k) := by
        rw [P2V_frame_add, Nat.add_sub_cancel' hle]
      have hbyte : (q - load.2) * PGSIZE + k < (pagecount load.1).toNat * PGSIZE := by
        unfold PGSIZE at *
        omega
      have hgood'' := ((Restocked.refl s).twins hmem' hgood).good hgood
      have hfilesz : (q - load.2) * PGSIZE + k < (p_filesz load.1).toNat := by
        rw [hfilled.1]
        exact hbyte
      have hcopies := hfilled.2.2 (by rintro hzero; rw [hzero] at hfilesz; exact absurd hfilesz (Nat.not_lt_zero _))
      rw [hoffset, (hloaded.content hgood' hload).2 _ hbyte, (hloaded'.content hgood'' hload).2 _ hbyte,
        if_pos ⟨hcopies, hfilesz⟩, if_pos ⟨hcopies, hfilesz⟩]
    . exact absurd ⟨path, Vmm.single_reaches_iff.mp hreaches⟩ htable

theorem filled_of_scrubbed (hgood : Good (single vmap) s.vm)
    (hsize : ∀ phdr ∈ segments locals vn,
      (p_filesz phdr).toNat ≤ (p_memsz phdr).toNat ∧ (p_memsz phdr).toNat + 4095 < 2 ^ 64)
    {aux : Auxval} {s₁ : State} (hrun : loadelf.file locals vmap vn s = .ok aux s₁) (h : Scrubbed locals vn vmap s)
    : ∀ phdr ∈ segments locals vn, Filled vn phdr := by
  have hmemsz : ∀ phdr ∈ segments locals vn, (p_memsz phdr).toNat ≤ (pagecount phdr).toNat * PGSIZE := by
    intro phdr hphdr
    rw [pagecount_toNat (hsize phdr hphdr).2]
    unfold PGSIZE
    omega
  have hfit : ∀ phdr ∈ segments locals vn, Fits vn phdr := by
    intro phdr hphdr _
    exact Nat.le_trans (hsize phdr hphdr).1 (hmemsz phdr hphdr)
  rcases file_twin hgood hfit hrun with ⟨rest, hrest, hloaded, htwins⟩
  intro phdr hphdr
  rcases exists_load hrest hphdr with ⟨p, hp⟩
  rcases hsize phdr hphdr with ⟨hfilesz, hwrap⟩
  by_cases hzero : (pagecount phdr).toNat = 0
  . have hle := hmemsz phdr hphdr
    rw [hzero, Nat.zero_mul] at hle
    refine ⟨by rw [hzero]; omega, by omega, fun hne => absurd (BitVec.eq_of_toNat_eq ?_) hne⟩
    rw [BitVec.toNat_ofNat]
    omega
  . have hle := hmemsz phdr hphdr
    have hfull : Copies vn (p_offset phdr) (p_filesz phdr) ∧
        (pagecount phdr).toNat * PGSIZE - 1 < (p_filesz phdr).toNat := by
      by_contra hstale
      -- The last byte of the last page has not been written.
      have hbyte : (pagecount phdr).toNat * PGSIZE - 1 < (pagecount phdr).toNat * PGSIZE := by
        unfold PGSIZE
        omega
      rcases hloaded.content hgood hp with ⟨hfree, hcontent⟩
      rcases exists_ne (readByte s.mem (P2V (frame p) + BitVec.ofNat 64 ((pagecount phdr).toNat * PGSIZE - 1))) with
        ⟨v, hv⟩
      rcases exists_restocked hfree hbyte v with ⟨mem, hmem, hread⟩
      rcases htwins _ ((Restocked.refl s).twins hmem hgood) with ⟨s', hrun', hloaded'⟩
      have hgood' := ((Restocked.refl s).twins hmem hgood).good hgood
      rcases hloaded.pages hp (Nat.le_add_right p (((pagecount phdr).toNat * PGSIZE - 1) / PGSIZE))
        (by unfold PGSIZE; omega) with ⟨hnew, htable⟩
      have hpage := (h s.mem mem (Restocked.refl s) hmem aux aux s₁ s' hrun hrun').2 _ hnew (by
        rintro ⟨path, hreaches⟩
        exact htable path (Vmm.single_reaches_iff.mpr hreaches))
      have hsame := readByte_frame hpage
      rw [hcontent _ hbyte, (hloaded'.content hgood' hp).2 _ hbyte, if_neg hstale, if_neg hstale] at hsame
      dsimp only at hsame
      rw [hread] at hsame
      exact hv hsame
    have hlast := hfull.2
    exact ⟨by omega, by omega, fun _ => hfull.1⟩

/--
Nothing of what the pages held before is left exactly if the bytes of the file fill them.
-/
theorem loadelf_scrubbed_iff (hgood : Good (single vmap) s.vm)
    : ((∀ phdr ∈ segments locals vn, Filled vn phdr) → Scrubbed locals vn vmap s) ∧
      ((∀ phdr ∈ segments locals vn,
          (p_filesz phdr).toNat ≤ (p_memsz phdr).toNat ∧ (p_memsz phdr).toNat + 4095 < 2 ^ 64) →
        ∀ aux s₁, loadelf.file locals vmap vn s = .ok aux s₁ →
          (Scrubbed locals vn vmap s ↔ ∀ phdr ∈ segments locals vn, Filled vn phdr)) := by
  refine ⟨scrubbed_of_filled hgood, ?_⟩
  intro hsize aux s₁ hrun
  exact ⟨filled_of_scrubbed hgood hsize hrun, scrubbed_of_filled hgood⟩

theorem loadelf_scrubbed_sample :
    Scrubbed sampleLocals (oneSegment 0#64 0x400000#64 0#64 0#64) (P2V (frame 0)) sampleState
      ∧ ¬ Scrubbed sampleLocals (oneSegment 0#64 0x401000#64 16#64 48#64) (P2V (frame 0)) sampleState := by
  constructor
  . rcases @sampleState_returns 0#64 0x400000#64 0#64 0#64 (by decide) (by decide) (by decide) with
      ⟨phdr, hheader, hsegments, _⟩
    have hpages : (DIV_ROUNDUP 0#64 pgsize).toNat = 0 := by
      decide
    apply (loadelf_scrubbed_iff sampleState_good).1
    intro b hb
    rw [hsegments, List.mem_singleton] at hb
    unfold Filled
    rw [hb, header_pagecount hheader, hheader.filesz, hheader.memsz, hpages]
    exact ⟨rfl, Nat.le_refl _, fun hne => absurd rfl hne⟩
  . rcases @sampleState_returns 0#64 0x401000#64 16#64 48#64 (by decide) (by decide) (by decide) with
      ⟨phdr, hheader, hsegments, aux, s₁, hrun⟩
    have hpages : (DIV_ROUNDUP 48#64 pgsize).toNat = 1 := by
      decide
    have hsize : ∀ b ∈ segments sampleLocals (oneSegment 0#64 0x401000#64 16#64 48#64),
        (p_filesz b).toNat ≤ (p_memsz b).toNat ∧ (p_memsz b).toNat + 4095 < 2 ^ 64 := by
      intro b hb
      rw [hsegments, List.mem_singleton] at hb
      rw [hb, hheader.filesz, hheader.memsz]
      decide
    rw [(loadelf_scrubbed_iff sampleState_good).2 hsize aux s₁ hrun]
    intro hfilled
    have hfull := (hfilled phdr (by rw [hsegments]; exact List.mem_singleton_self phdr)).1
    rw [hheader.filesz, header_pagecount hheader, hpages] at hfull
    exact absurd hfull (by decide)

theorem loadelf_keeps_stale :
    ¬ Scrubbed sampleLocals (oneSegment 0#64 0x400000#64 16#64 32#64) (P2V (frame 0)) sampleState := by
  intro hscrubbed
  have hpages : (DIV_ROUNDUP 32#64 pgsize).toNat = 1 := by
    decide
  rcases @sampleState_returns 0#64 0x400000#64 16#64 32#64 (by decide) (by decide) (by decide) with
    ⟨phdr, hheader, hsegments, aux, s₁, hrun⟩
  have hsize : ∀ b ∈ segments sampleLocals (oneSegment 0#64 0x400000#64 16#64 32#64),
      (p_filesz b).toNat ≤ (p_memsz b).toNat ∧ (p_memsz b).toNat + 4095 < 2 ^ 64 := by
    intro b hb
    rw [hsegments, List.mem_singleton] at hb
    rw [hb, hheader.filesz, hheader.memsz]
    decide
  have hfilled := (filled_of_scrubbed sampleState_good hsize hrun hscrubbed phdr
    (by rw [hsegments]; exact List.mem_singleton_self phdr)).1
  rw [hheader.filesz, header_pagecount hheader, hpages] at hfilled
  exact absurd hfilled (by decide)

end Scrubbed

end Exec
end Franklin
