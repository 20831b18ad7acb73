import Franklin.Vmm.Lemmas.KernelHalf
import Franklin.Vmm.Lemmas.Rights

/-!
This module contains the entries that the loops of `init_vm` insert, in the order in which they do so.
-/

open Radix

namespace Franklin
namespace Vmm

namespace init_vm

variable {vm vm' : Vm} {top_level : Addr} {e : BitVec 36 → BitVec 64}

def frame (image : KernelImage) (vaddr : BitVec 64) : BitVec 64 :=
  vaddr - image.virtual_base + image.physical_base

def segmentMapping (image : KernelImage) (flags start : BitVec 64) (i : Nat) : BitVec 36 × BitVec 64 :=
  (vpn (page start i), frame image (page start i) ||| flags)

def segmentMappings (image : KernelImage) (flags start stop : BitVec 64) : List (BitVec 36 × BitVec 64) :=
  (List.range' 0 (segmentPages start stop)).map (segmentMapping image flags (ALIGN_DOWN start pgsize))

def lowerMappings (i n : Nat) : List (BitVec 36 × BitVec 64) :=
  (List.range' i n).flatMap fun i =>
    [(vpn (page 0x1000#64 i), page 0x1000#64 i ||| (PTE_PRESENT ||| PTE_RW ||| PTE_USER)),
      (vpn (page 0x1000#64 i + HHDM_OFFSET),
        page 0x1000#64 i ||| (PTE_PRESENT ||| PTE_NX ||| PTE_RW ||| PTE_USER))]

theorem mapHigherHalf_represents {i : BitVec 9} {n : Nat} (h : Represents vm top_level e)
    (hres : mapHigherHalf vm top_level i n = some vm') : Represents vm' top_level e := by
  induction n generalizing vm i with
  | zero =>
    cases hres
    exact h
  | succ n ih =>
    unfold mapHigherHalf at hres
    split at hres
    . contradiction
    . next res vm₁ hlevel =>
      have hlength : ([] : List (BitVec 9)).length < (single top_level).depth := by simp [single, tables]
      obtain ⟨hgrows, _⟩ := get_next_level_grows h.good (Shape.Reaches.root rfl) hlength hlevel
      apply ih _ hres
      constructor
      . exact hgrows.good
      . exact get_next_level_inner h.good h.inner (Shape.Reaches.root rfl) hlength hlevel
      . rw [hgrows.entries_eq, h.entries]

theorem mapSegment_represents {image : KernelImage} {flags start : BitVec 64} {i n : Nat}
    (h : Represents vm top_level e) (hres : mapSegment vm top_level image flags (page start i) n = some vm')
    : Represents vm' top_level
        (FirstWins.insertAll Free e ((List.range' i n).map (segmentMapping image flags start))) := by
  induction n generalizing vm i e with
  | zero =>
    cases hres
    exact h
  | succ n ih =>
    unfold mapSegment at hres
    dsimp only at hres
    split at hres
    . contradiction
    . next res vm₁ hmap =>
      rw [pgsize, page_succ] at hres
      exact ih (h.mappage2 hmap) hres

theorem mapSegments_represents {image : KernelImage} {flags start stop : BitVec 64}
    (h : Represents vm top_level e) (hres : mapSegments vm top_level image flags start stop = some vm')
    : Represents vm' top_level (FirstWins.insertAll Free e (segmentMappings image flags start stop)) := by
  unfold mapSegments at hres
  apply mapSegment_represents h
  rw [← hres]
  congr 1
  simp [page]

theorem mapLowerHalf_represents {i n : Nat} (h : Represents vm top_level e)
    (hres : mapLowerHalf vm top_level (page 0x1000#64 i) n = some vm')
    : Represents vm' top_level (FirstWins.insertAll Free e (lowerMappings i n)) := by
  induction n generalizing vm i e with
  | zero =>
    cases hres
    exact h
  | succ n ih =>
    unfold mapLowerHalf at hres
    split at hres
    . contradiction
    . next res₁ vm₁ hlow =>
      split at hres
      . contradiction
      . next res₂ vm₂ hhigh =>
        rw [pgsize, page_succ] at hres
        exact ih ((h.mappage2 hlow).mappage2 hhigh) hres

def mappings (image : KernelImage) : List (BitVec 36 × BitVec 64) :=
  segmentMappings image (PTE_PRESENT ||| PTE_USER) image.text_start_addr image.text_end_addr ++
    (segmentMappings image (PTE_PRESENT ||| PTE_NX ||| PTE_USER) image.rodata_start_addr image.rodata_end_addr ++
      (segmentMappings image (PTE_PRESENT ||| PTE_NX ||| PTE_RW ||| PTE_USER) image.data_start_addr
        image.data_end_addr ++ lowerMappings 0 lowerPages))

theorem represents_zero (hgood : Good (single top_level) vm) (hzero : ∀ idx, vm.mem top_level idx = 0#64)
    : Represents vm top_level (fun _ => 0#64) := by
  refine ⟨hgood, ?_, ?_⟩
  . intro path t i hreaches _ hchild
    obtain ⟨_, hfollow⟩ := single_reaches_iff.mp hreaches
    obtain rfl := follow_zero hzero hfollow
    simp only [follow, Option.some.injEq] at hfollow
    rw [← hfollow, hzero, next_zero] at hchild
    contradiction
  . funext n
    simp [entries, walk, leaf, levels, follow, hzero]

end init_vm

theorem init_vm_represents {vm vm' : Vm} {image : KernelImage} {top_level : Addr} (hnodup : vm.supply.Nodup)
    (hpage : ∀ p ∈ vm.supply, PTE_GET_ADDR p = p) (hres : init_vm vm image = some (top_level, vm'))
    : Represents vm' top_level (FirstWins.insertAll Free (fun _ => 0#64) (init_vm.mappings image)) := by
  unfold init_vm at hres
  obtain ⟨⟨page, vm₀⟩, h₀, hres⟩ := Option.bind_eq_some_iff.mp hres
  obtain ⟨vm₁, h₁, hres⟩ := Option.bind_eq_some_iff.mp hres
  obtain ⟨vm₂, h₂, hres⟩ := Option.bind_eq_some_iff.mp hres
  obtain ⟨vm₃, h₃, hres⟩ := Option.bind_eq_some_iff.mp hres
  obtain ⟨vm₄, h₄, hres⟩ := Option.bind_eq_some_iff.mp hres
  obtain ⟨vm₅, h₅, hres⟩ := Option.bind_eq_some_iff.mp hres
  obtain ⟨rfl, rfl⟩ := Prod.mk.inj (Option.some.inj hres)
  have hzero := init_vm.represents_zero (init_vm.good_of_palloc hnodup hpage h₀) (by simp)
  have hhigher := init_vm.mapHigherHalf_represents hzero h₁
  have htext := init_vm.mapSegments_represents hhigher h₂
  have hrodata := init_vm.mapSegments_represents htext h₃
  have hdata := init_vm.mapSegments_represents hrodata h₄
  have hlower := @init_vm.mapLowerHalf_represents _ _ _ _ 0 _ hdata h₅
  unfold init_vm.mappings
  rw [FirstWins.insertAll_append, FirstWins.insertAll_append, FirstWins.insertAll_append]
  exact hlower

namespace init_vm

theorem not_free_or {value flags : BitVec 64} (h : flags &&& PTE_PRESENT ≠ 0#64) : ¬Free (value ||| flags) := by
  unfold Free PTE_PRESENT at *
  rw [ne_eq, and_bit_eq_zero_iff _ (by decide), Bool.not_eq_false] at h
  rw [and_bit_eq_zero_iff _ (by decide), BitVec.getLsbD_or, h, Bool.or_true]
  decide

theorem segmentMappings_not_free {image : KernelImage} {flags start stop : BitVec 64}
    (h : flags &&& PTE_PRESENT ≠ 0#64) : ∀ kv ∈ segmentMappings image flags start stop, ¬Free kv.2 := by
  intro kv hkv
  obtain ⟨i, _, rfl⟩ := List.mem_map.mp hkv
  apply not_free_or h

theorem lowerMappings_not_free (i n : Nat) : ∀ kv ∈ lowerMappings i n, ¬Free kv.2 := by
  intro kv hkv
  obtain ⟨j, _, hkv⟩ := List.mem_flatMap.mp hkv
  simp only [List.mem_cons, List.not_mem_nil, or_false] at hkv
  rcases hkv with rfl | rfl
  . apply not_free_or (by decide)
  . apply not_free_or (by decide)

theorem mappings_not_free (image : KernelImage) : ∀ kv ∈ mappings image, ¬Free kv.2 := by
  intro kv hkv
  unfold mappings at hkv
  rw [List.mem_append, List.mem_append, List.mem_append] at hkv
  rcases hkv with h | h | h | h
  . apply segmentMappings_not_free (by decide) kv h
  . apply segmentMappings_not_free (by decide) kv h
  . apply segmentMappings_not_free (by decide) kv h
  . apply lowerMappings_not_free _ _ kv h

end init_vm

theorem init_vm_hhdm {vm vm' : Vm} {image : KernelImage} {top_level : Addr} (hnodup : vm.supply.Nodup)
    (hpage : ∀ p ∈ vm.supply, PTE_GET_ADDR p = p) (hres : init_vm vm image = some (top_level, vm'))
    : walk vm'.mem top_level (0x1000#64 + HHDM_OFFSET) &&& PTE_PRESENT ≠ 0#64 := by
  have hrep := init_vm_represents hnodup hpage hres
  rw [walk_eq_entries, hrep.entries]
  have hlower : (vpn (page 0x1000#64 0 + HHDM_OFFSET),
      page 0x1000#64 0 ||| (PTE_PRESENT ||| PTE_NX ||| PTE_RW ||| PTE_USER)) ∈
      init_vm.lowerMappings 0 init_vm.lowerPages := by
    apply List.mem_flatMap.mpr
    refine ⟨0, List.mem_range'_1.mpr ⟨Nat.le_refl 0, by decide⟩, ?_⟩
    exact List.mem_cons_of_mem _ (List.mem_singleton.mpr rfl)
  rw [show page 0x1000#64 0 = 0x1000#64 by rfl] at hlower
  have htaken := @FirstWins.not_free_insertAll _ _ _ Free _ (fun _ => 0#64) _ _ (init_vm.mappings image)
    (List.mem_append_right _ (List.mem_append_right _ (List.mem_append_right _ hlower)))
    (init_vm.mappings_not_free image)
  exact htaken

end Vmm
end Franklin
