import Franklin.Lib.FirstWins
import Franklin.Vmm.Lemmas.Mappage

/-!
This module contains a page table as the map from page numbers to entries that it stands for.
-/

open Radix

namespace Franklin
namespace Vmm

/--
The bits of a virtual address that the four levels look at.
-/
def vpn (vaddr : BitVec 64) : BitVec 36 :=
  (vaddr >>> 12).setWidth 36

def entries (mem : Mem) (top_level : Addr) (n : BitVec 36) : BitVec 64 :=
  walk mem top_level (n.setWidth 64 <<< 12)

def Free (value : BitVec 64) : Prop :=
  value &&& PTE_PRESENT = 0#64

instance : DecidablePred Free := fun value =>
  inferInstanceAs (Decidable (value &&& PTE_PRESENT = 0#64))

theorem getLsbD_vpn (vaddr : BitVec 64) {k : Nat} (hk : k < 36)
    : (vpn vaddr).getLsbD k = vaddr.getLsbD (12 + k) := by
  simp [vpn, hk]

theorem index_eq (vaddr : BitVec 64) {shift : Nat} (h1 : 12 ≤ shift) (h2 : shift ≤ 39)
    : index vaddr shift = ((vpn vaddr) >>> (shift - 12)).setWidth 9 := by
  apply BitVec.eq_of_getLsbD_eq
  intro k hk
  rw [getLsbD_index vaddr hk]
  simp only [BitVec.getLsbD_setWidth, hk, decide_true, Bool.true_and, BitVec.getLsbD_ushiftRight]
  rw [getLsbD_vpn vaddr (by omega)]
  congr 1
  omega

@[simp]
theorem vpn_page (n : BitVec 36) : vpn (n.setWidth 64 <<< 12) = n := by
  apply BitVec.eq_of_getLsbD_eq
  intro k hk
  rw [getLsbD_vpn _ hk]
  have h1 : 12 + k < 64 := by omega
  have h2 : k < 64 := by omega
  simp only [BitVec.getLsbD_shiftLeft, BitVec.getLsbD_setWidth, Nat.add_sub_cancel_left, h1, h2, decide_true,
    Bool.true_and, Nat.not_lt.mpr (Nat.le_add_right 12 k), decide_false, Bool.not_false]

theorem levels_eq_of_vpn_eq {vaddr vaddr' : BitVec 64} (h : vpn vaddr = vpn vaddr')
    : levels vaddr = levels vaddr' ∧ index vaddr 12 = index vaddr' 12 := by
  unfold levels
  rw [index_eq vaddr (Nat.le_refl 12) (by decide), index_eq vaddr' (Nat.le_refl 12) (by decide)]
  simp [index_eq, h]

theorem vpn_eq_of_levels_eq {vaddr vaddr' : BitVec 64} (hlevels : levels vaddr = levels vaddr')
    (hindex : index vaddr 12 = index vaddr' 12) : vpn vaddr = vpn vaddr' := by
  apply BitVec.eq_of_getLsbD_eq
  intro k hk
  rw [getLsbD_vpn _ hk, getLsbD_vpn _ hk]
  apply getLsbD_eq_of_levels_eq hlevels hindex
  . omega
  . omega

theorem walk_eq_entries (mem : Mem) (top_level : Addr) (vaddr : BitVec 64)
    : walk mem top_level vaddr = entries mem top_level (vpn vaddr) := by
  have heq := levels_eq_of_vpn_eq (vpn_page (vpn vaddr)).symm
  unfold entries walk
  rw [heq.1, heq.2]

theorem Grows.entries_eq {vm vm' : Vm} {top_level : Addr} (h : Grows (single top_level) vm vm')
    : entries vm'.mem top_level = entries vm.mem top_level := by
  funext n
  apply h.leaf top_level _ _ rfl (path_levels _ trivial) rfl

theorem mappage2_entries {vm vm' : Vm} {top_level : Addr} {vaddr paddr flags : BitVec 64} {res : Int}
    (h : Good (single top_level) vm) (hres : mappage2 vm top_level vaddr paddr flags = some (res, vm'))
    : Good (single top_level) vm' ∧ entries vm'.mem top_level =
        FirstWins.insert Free (entries vm.mem top_level) (vpn vaddr) (paddr ||| flags) := by
  cases mappage2_cases h rfl trivial hres with
  | inl hpresent =>
    obtain ⟨hwalk, _, hgrows⟩ := hpresent
    rw [walk_eq_entries] at hwalk
    have htaken : ¬Free (entries vm.mem top_level (vpn vaddr)) := hwalk
    refine ⟨hgrows.good, ?_⟩
    rw [hgrows.entries_eq, FirstWins.insert_of_not_free htaken]
  | inr habsent =>
    obtain ⟨hwalk, _, hgood, _, hself, hother⟩ := habsent
    rw [walk_eq_entries] at hwalk hself
    have hfree : Free (entries vm.mem top_level (vpn vaddr)) := hwalk
    refine ⟨hgood, ?_⟩
    funext n
    by_cases hn : n = vpn vaddr
    . subst hn
      rw [hself, FirstWins.insert_self hfree]
    . rw [FirstWins.insert_of_ne hn]
      apply hother top_level _ _ rfl (path_levels _ trivial) rfl
      rintro ⟨hlevels, hindex⟩
      apply hn
      rw [← vpn_page n]
      apply vpn_eq_of_levels_eq hlevels hindex

theorem PTE_GET_ADDR_idem (value : BitVec 64) : PTE_GET_ADDR (PTE_GET_ADDR value) = PTE_GET_ADDR value := by
  unfold PTE_GET_ADDR
  rw [BitVec.and_assoc, BitVec.and_self]

theorem split_or_iff (p f : BitVec 64)
    : PTE_GET_ADDR (p ||| f) = p ∧ (p ||| f) &&& ~~~PTE_ADDR_MASK = f ↔
        PTE_GET_ADDR p = p ∧ PTE_GET_ADDR f = 0#64 := by
  unfold PTE_GET_ADDR
  generalize PTE_ADDR_MASK = mask
  simp only [BitVec.eq_of_getLsbD_eq_iff, BitVec.getLsbD_and, BitVec.getLsbD_or, BitVec.getLsbD_not,
    BitVec.getLsbD_zero]
  constructor
  . rintro ⟨haddr, hflags⟩
    constructor
    . intro k hk
      have := haddr k hk
      revert this
      cases p.getLsbD k <;> cases mask.getLsbD k <;> simp
    . intro k hk
      have := hflags k hk
      revert this
      cases f.getLsbD k <;> cases mask.getLsbD k <;> simp
  . rintro ⟨haddr, hflags⟩
    constructor
    . intro k hk
      have h1 := haddr k hk
      have h2 := hflags k hk
      revert h1 h2
      cases p.getLsbD k <;> cases f.getLsbD k <;> cases mask.getLsbD k <;> simp
    . intro k hk
      have h1 := haddr k hk
      have h2 := hflags k hk
      revert h1 h2
      simp only [hk, decide_true, Bool.true_and]
      cases p.getLsbD k <;> cases f.getLsbD k <;> cases mask.getLsbD k <;> simp

def page (addr : BitVec 64) (i : Nat) : BitVec 64 :=
  addr + BitVec.ofNat 64 (i * PGSIZE)

theorem page_succ (addr : BitVec 64) (i : Nat) : page addr i + BitVec.ofNat 64 PGSIZE = page addr (i + 1) := by
  unfold page
  rw [Nat.succ_mul, BitVec.ofNat_add, BitVec.add_assoc]

theorem vpn_page_add (vaddr : BitVec 64) (i : Nat) : vpn (page vaddr i) = vpn vaddr + BitVec.ofNat 36 i := by
  apply BitVec.eq_of_toNat_eq
  simp only [vpn, page, BitVec.toNat_setWidth, BitVec.toNat_ushiftRight, BitVec.toNat_add, BitVec.toNat_ofNat,
    Nat.shiftRight_eq_div_pow, PGSIZE]
  omega

end Vmm
end Franklin
