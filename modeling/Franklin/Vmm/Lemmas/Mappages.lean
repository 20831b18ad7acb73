import Franklin.Vmm.Lemmas.Entries

/-!
This module contains what `mappages` makes of a range of pages, some of which may be mapped already.
-/

open Radix

namespace Franklin
namespace Vmm

variable {vm vm' : Vm} {top_level : Addr} {vaddr paddr flags : BitVec 64}

def mappages.mapping (vaddr paddr flags : BitVec 64) (i : Nat) : BitVec 36 × BitVec 64 :=
  (vpn vaddr + BitVec.ofNat 36 i, page paddr i ||| flags)

theorem mappages.go_entries {i n : Nat} (h : Good (single top_level) vm)
    (hres : go vm top_level vaddr paddr flags (BitVec.ofNat 64 i) n = some vm')
    : entries vm'.mem top_level = FirstWins.insertAll Free (entries vm.mem top_level)
        ((List.range' i n).map (mapping vaddr paddr flags)) := by
  induction n generalizing vm i with
  | zero =>
    cases hres
    rfl
  | succ n ih =>
    unfold go at hres
    dsimp only at hres
    split at hres
    . contradiction
    . next res vm₁ hmap =>
      rw [← BitVec.ofNat_mul] at hmap
      rw [show BitVec.ofNat 64 i + 1#64 = BitVec.ofNat 64 (i + 1) by rw [BitVec.ofNat_add]] at hres
      obtain ⟨hgood, hinsert⟩ := mappage2_entries h hmap
      rw [ih hgood hres, hinsert, ← page, ← page, vpn_page_add, List.range'_succ]
      rfl

theorem mappages.go_isSome {i : BitVec 64} {n : Nat} (h : Good (single top_level) vm)
    (hsupply : 3 * n ≤ vm.supply.length) : (go vm top_level vaddr paddr flags i n).isSome := by
  induction n generalizing vm i with
  | zero => rfl
  | succ n ih =>
    obtain ⟨res, vm₁, hmap, hlength⟩ := mappage2_isSome (vaddr + i * BitVec.ofNat 64 PGSIZE)
      (paddr + i * BitVec.ofNat 64 PGSIZE) flags h rfl trivial (by omega)
    obtain ⟨hgood, _⟩ := mappage2_entries h hmap
    unfold go
    simp only [hmap]
    apply ih hgood
    omega

/--
Success means that the whole range is mapped as requested, a page that was mapped before means failure.
-/
structure MapsRange (mem mem' : Mem) (top_level : Addr) (vaddr paddr flags : BitVec 64) (pagecount : Nat)
    (res : Int) : Prop where
  mapped : res = 0 → ∀ i < pagecount,
    PTE_GET_ADDR (walk mem' top_level (page vaddr i)) = page paddr i ∧
      walk mem' top_level (page vaddr i) &&& ~~~PTE_ADDR_MASK = flags
  taken : (∃ i < pagecount, walk mem top_level (page vaddr i) &&& PTE_PRESENT ≠ 0#64) → res < 0

/--
No page of the range is mapped, the range does not come back to its first page, and an entry can hold the addresses
and the flags.
-/
structure Mappable (mem : Mem) (top_level : Addr) (vaddr paddr flags : BitVec 64) (pagecount : Nat) : Prop where
  free : ∀ i < pagecount, walk mem top_level (page vaddr i) &&& PTE_PRESENT = 0#64
  le : pagecount ≤ 2 ^ 36
  addr : ∀ i < pagecount, PTE_GET_ADDR (page paddr i) = page paddr i
  flags : pagecount ≠ 0 → PTE_GET_ADDR flags = 0#64

theorem vpn_add_inj {n : BitVec 36} {i j pagecount : Nat} (h : pagecount ≤ 2 ^ 36) (hi : i < pagecount)
    (hj : j < pagecount) (heq : n + BitVec.ofNat 36 i = n + BitVec.ofNat 36 j) : i = j := by
  have := congrArg BitVec.toNat ((BitVec.add_right_inj n).mp heq)
  simp only [BitVec.toNat_ofNat] at this
  omega

theorem mappages.go_walk {pagecount i : Nat} (h : Good (single top_level) vm)
    (hres : go vm top_level vaddr paddr flags 0#64 pagecount = some vm') (hle : pagecount ≤ 2 ^ 36)
    (hi : i < pagecount) (hfree : Free (walk vm.mem top_level (page vaddr i)))
    : walk vm'.mem top_level (page vaddr i) = page paddr i ||| flags := by
  rw [walk_eq_entries, vpn_page_add] at hfree ⊢
  rw [go_entries h hres]
  apply FirstWins.insertAll_of_mem hfree
  . rw [List.mem_map]
    exact ⟨i, List.mem_range'_1.mpr ⟨Nat.zero_le i, by omega⟩, rfl⟩
  . intro v' hv'
    obtain ⟨j, hj, heq⟩ := List.mem_map.mp hv'
    have hj := (List.mem_range'_1.mp hj).2
    obtain ⟨hkey, rfl⟩ := Prod.mk.inj heq
    obtain rfl := vpn_add_inj hle (by omega) hi hkey
    rfl

theorem mappages_eq_zero {size : BitVec 64} {res : Int}
    (hres : mappages vm top_level vaddr paddr size flags = some (res, vm')) : res = 0 := by
  unfold mappages at hres
  dsimp only at hres
  split at hres
  . contradiction
  . cases hres
    rfl

/--
`mappages` always returns 0, so it does what it is supposed to do exactly if there is nothing to report.
-/
theorem mappages_mapsRange_iff (vm : Vm) (top_level : Addr) (vaddr paddr size flags : BitVec 64)
    (hforest : (single top_level).Forest next vm.mem) (hfresh : FreshSupply vm top_level)
    : (3 * (size.toNat / PGSIZE) ≤ vm.supply.length →
        (mappages vm top_level vaddr paddr size flags).isSome) ∧
      ∀ res vm', mappages vm top_level vaddr paddr size flags = some (res, vm') →
        (MapsRange vm.mem vm'.mem top_level vaddr paddr flags (size.toNat / PGSIZE) res ↔
          Mappable vm.mem top_level vaddr paddr flags (size.toNat / PGSIZE)) := by
  have hgood := hfresh.good hforest
  unfold mappages
  dsimp only
  generalize size.toNat / PGSIZE = pagecount
  constructor
  . intro hsupply
    obtain ⟨vm', hgo⟩ := Option.isSome_iff_exists.mp
      (@mappages.go_isSome vm top_level vaddr paddr flags 0#64 pagecount hgood hsupply)
    rw [hgo]
    rfl
  . intro res vm' hres
    split at hres
    . contradiction
    . next vm₁ hgo =>
      obtain ⟨rfl, rfl⟩ := Prod.mk.inj (Option.some.inj hres)
      constructor
      . intro h
        have hfree : ∀ i < pagecount, walk vm.mem top_level (page vaddr i) &&& PTE_PRESENT = 0#64 := by
          intro i hi
          by_contra htaken
          exact absurd (h.taken ⟨i, hi, htaken⟩) (by decide)
        have hle : pagecount ≤ 2 ^ 36 := by
          -- Page 2 ^ 36 has the same entry as page 0.
          by_contra hlt
          have h0 := (h.mapped rfl 0 (by omega)).1
          have h1 := (h.mapped rfl (2 ^ 36) (by omega)).1
          rw [walk_eq_entries, vpn_page_add] at h0 h1
          rw [show BitVec.ofNat 36 (2 ^ 36) = BitVec.ofNat 36 0 by rfl, h0] at h1
          have := (BitVec.add_right_inj paddr).mp h1
          exact absurd this (by decide)
        have hsplit : ∀ i < pagecount,
            PTE_GET_ADDR (page paddr i) = page paddr i ∧ PTE_GET_ADDR flags = 0#64 := by
          intro i hi
          have := h.mapped rfl i hi
          rw [mappages.go_walk hgood hgo hle hi (hfree i hi)] at this
          exact (split_or_iff _ _).mp this
        refine ⟨hfree, hle, fun i hi => (hsplit i hi).1, ?_⟩
        intro hpos
        exact (hsplit 0 (Nat.pos_of_ne_zero hpos)).2
      . intro h
        constructor
        . intro _ i hi
          rw [mappages.go_walk hgood hgo h.le hi (h.free i hi)]
          apply (split_or_iff _ _).mpr
          exact ⟨h.addr i hi, h.flags (by omega)⟩
        . rintro ⟨i, hi, htaken⟩
          exact absurd (h.free i hi) htaken

theorem mappages_empty :
    ∃ vm', mappages ⟨fun _ _ => 0#64, [0x2000#64, 0x3000#64, 0x4000#64, 0x5000#64, 0x6000#64, 0x7000#64]⟩
        (P2V 0x1000#64) 0x400000#64 0x20000#64 0x2000#64 (PTE_PRESENT ||| PTE_USER) = some (0, vm') ∧
      MapsRange (fun _ _ => 0#64) vm'.mem (P2V 0x1000#64) 0x400000#64 0x20000#64
        (PTE_PRESENT ||| PTE_USER) 2 0 := by
  have hzero : ∀ idx : BitVec 9, (fun _ _ => 0#64 : Mem) (P2V 0x1000#64) idx = 0#64 := fun _ => rfl
  have hfresh : FreshSupply
      ⟨fun _ _ => 0#64, [0x2000#64, 0x3000#64, 0x4000#64, 0x5000#64, 0x6000#64, 0x7000#64]⟩
      (P2V 0x1000#64) := by
    constructor
    . decide
    . simp [PTE_GET_ADDR, PTE_ADDR_MASK]
    . rintro p hp ⟨path, _, hfollow⟩
      obtain rfl := follow_zero hzero hfollow
      obtain rfl := P2V_inj (Option.some.inj hfollow)
      simp at hp
  obtain ⟨hsome, hiff⟩ := mappages_mapsRange_iff _ (P2V 0x1000#64) 0x400000#64 0x20000#64 0x2000#64
    (PTE_PRESENT ||| PTE_USER) (Mapped.zero hzero).forest hfresh
  obtain ⟨⟨res, vm'⟩, hres⟩ := Option.isSome_iff_exists.mp (hsome (by decide))
  obtain rfl := mappages_eq_zero hres
  refine ⟨vm', hres, (hiff 0 vm' hres).mpr ?_⟩
  have hempty : ∀ vaddr, walk (fun _ _ => 0#64) (P2V 0x1000#64) vaddr = 0#64 := by
    intro vaddr
    simp [walk, leaf, levels, follow]
  constructor
  . intro i _
    rw [hempty]
    rfl
  . decide
  . decide
  . decide

def takenMem : Mem := fun table idx =>
  if table = P2V 0x1000#64 ∧ idx = 0#9 then 0x2007#64
  else if table = P2V 0x2000#64 ∧ idx = 0#9 then 0x3007#64
  else if table = P2V 0x3000#64 ∧ idx = 2#9 then 0x4007#64
  else if table = P2V 0x4000#64 ∧ idx = 0#9 then 0x10005#64
  else 0#64

theorem mappages_ignores_taken :
    mappages ⟨takenMem, []⟩ (P2V 0x1000#64) 0x400000#64 0x20000#64 0x1000#64 (PTE_PRESENT ||| PTE_USER) =
        some (0, ⟨takenMem, []⟩) ∧
      ¬MapsRange takenMem takenMem (P2V 0x1000#64) 0x400000#64 0x20000#64 (PTE_PRESENT ||| PTE_USER) 1 0 := by
  refine ⟨rfl, ?_⟩
  intro h
  exact absurd (h.taken ⟨0, by decide, by decide⟩) (by decide)

end Vmm
end Franklin
