import Franklin.Vmm.Lemmas.Entries

/-!
This module contains what the processor allows for an address: an access needs its right in the entries of all four
levels. As `get_next_level` writes entries with every right, the last entry decides.
-/

open Radix

namespace Franklin
namespace Vmm

def ptes (mem : Mem) (top_level : Addr) (vaddr : BitVec 64) : List (BitVec 64) :=
  words next mem top_level (levels vaddr ++ [index vaddr 12])

def Writable (mem : Mem) (top_level : Addr) (vaddr : BitVec 64) : Prop :=
  ∀ pte ∈ ptes mem top_level vaddr, pte &&& PTE_RW ≠ 0#64

def Executable (mem : Mem) (top_level : Addr) (vaddr : BitVec 64) : Prop :=
  ∀ pte ∈ ptes mem top_level vaddr, pte &&& PTE_NX = 0#64

def Translates (mem : Mem) (top_level : Addr) (vaddr : BitVec 64) (frame : Addr) : Prop :=
  walk mem top_level vaddr &&& PTE_PRESENT ≠ 0#64 ∧ PTE_GET_ADDR (walk mem top_level vaddr) = frame

theorem Translates.frame {mem : Mem} {top_level : Addr} {vaddr : BitVec 64} {frame : Addr}
    (h : Translates mem top_level vaddr frame) : PTE_GET_ADDR frame = frame := by
  rw [← h.2, PTE_GET_ADDR_idem]

def TableEntry (value : BitVec 64) : Prop :=
  ∃ page, PTE_GET_ADDR page = page ∧ value = page ||| PTE_PRESENT ||| PTE_RW ||| PTE_USER

theorem getLsbD_of_page {page : Addr} {k : Nat} (h : PTE_GET_ADDR page = page)
    (hk : PTE_ADDR_MASK.getLsbD k = false) : page.getLsbD k = false := by
  rw [← h, PTE_GET_ADDR, BitVec.getLsbD_and, hk, Bool.and_false]

theorem and_bit_eq_zero_iff (value : BitVec 64) {k : Nat} (hk : k < 64)
    : value &&& (1#64 <<< k) = 0#64 ↔ value.getLsbD k = false := by
  constructor
  . intro h
    have := congrArg (fun v => v.getLsbD k) h
    simpa [hk] using this
  . intro h
    apply BitVec.eq_of_getLsbD_eq
    intro j hj
    by_cases hjk : j = k
    . rw [hjk]
      simp [h]
    . simp
      omega

theorem TableEntry.rights {value : BitVec 64} (h : TableEntry value)
    : value &&& PTE_RW ≠ 0#64 ∧ value &&& PTE_NX = 0#64 := by
  obtain ⟨page, hpage, rfl⟩ := h
  have hrw : PTE_RW.getLsbD 1 = true := by decide
  have hnx := getLsbD_of_page (k := 63) hpage (by decide)
  constructor
  . rw [PTE_RW, ne_eq, and_bit_eq_zero_iff _ (by decide), ← PTE_RW]
    simp only [BitVec.getLsbD_or, hrw, Bool.or_true, Bool.true_or, Bool.true_eq_false, not_false_eq_true]
  . rw [PTE_NX, and_bit_eq_zero_iff _ (by decide)]
    simp only [BitVec.getLsbD_or, hnx]
    decide

section Shape

variable {shape : Shape Addr (BitVec 9)} {vm vm' : Vm}

theorem get_next_level_inner {path : List (BitVec 9)} {t : Addr} {idx : BitVec 9} {res : Option Addr}
    (h : Good shape vm) (hinner : shape.Inner next TableEntry vm.mem)
    (hreaches : shape.Reaches next vm.mem path t) (hlength : path.length < shape.depth)
    (hres : get_next_level vm t idx true = some (res, vm'))
    : shape.Inner next TableEntry vm'.mem := by
  rcases get_next_level_cases hres with ⟨t', _, rfl, rfl⟩ | ⟨page, supply, hfree, hsupply, rfl, rfl⟩
  . exact hinner
  . have hmem : page ∈ vm.supply := by simp [hsupply]
    apply (h.canLink hmem hreaches hlength hfree).inner_link hinner
    exact ⟨page, h.page page hmem, rfl⟩

end Shape

section Tables

variable {roots : Addr → Prop} {valid : BitVec 9 → Prop} {vm vm' : Vm} {top_level : Addr}
variable {vaddr paddr flags : BitVec 64}

theorem va2pte_inner {t : Addr} {idx : BitVec 9} (h : Good (tables roots valid) vm)
    (hinner : (tables roots valid).Inner next TableEntry vm.mem) (htop : roots top_level)
    (hvalid : valid (index vaddr 39)) (hres : va2pte vm top_level vaddr true = some ((t, idx), vm'))
    : (tables roots valid).Inner next TableEntry vm'.mem := by
  rcases va2pte_descent h htop hvalid hres with ⟨_, vm₁, vm₂, pml3, pml2, hd⟩
  have hinner₁ := get_next_level_inner h hinner hd.reaches₁ (by simp [tables]) hd.level₁
  have hinner₂ := get_next_level_inner hd.grows₁.good hinner₁ hd.reaches₂ (by simp [tables]) hd.level₂
  exact get_next_level_inner hd.grows₂.good hinner₂ hd.reaches₃ (by simp [tables]) hd.level₃

theorem mappage2_inner {res : Int} (h : Good (tables roots valid) vm)
    (hinner : (tables roots valid).Inner next TableEntry vm.mem) (htop : roots top_level)
    (hvalid : valid (index vaddr 39)) (hres : mappage2 vm top_level vaddr paddr flags = some (res, vm'))
    : (tables roots valid).Inner next TableEntry vm'.mem := by
  unfold mappage2 at hres
  split at hres
  . contradiction
  . next pml1 idx vm₁ hpte =>
    have hinner₁ := va2pte_inner h hinner htop hvalid hpte
    obtain ⟨hgrows, _, hfollow⟩ := va2pte_grows h htop hvalid hpte
    split at hres
    . cases hres
      exact hinner₁
    . cases hres
      exact hgrows.good.forest.inner_store ⟨path_levels roots hvalid, _, htop, hfollow⟩ rfl _ _ hinner₁

end Tables

structure Represents (vm : Vm) (top_level : Addr) (e : BitVec 36 → BitVec 64) : Prop where
  good : Good (single top_level) vm
  inner : (single top_level).Inner next TableEntry vm.mem
  entries : entries vm.mem top_level = e

namespace Represents

variable {vm vm' : Vm} {top_level : Addr} {e : BitVec 36 → BitVec 64} {vaddr paddr flags : BitVec 64}

theorem mappage2 {res : Int} (h : Represents vm top_level e)
    (hres : mappage2 vm top_level vaddr paddr flags = some (res, vm'))
    : Represents vm' top_level (FirstWins.insert Free e (vpn vaddr) (paddr ||| flags)) := by
  obtain ⟨hgood, hentries⟩ := mappage2_entries h.good hres
  refine ⟨hgood, mappage2_inner h.good h.inner rfl trivial hres, ?_⟩
  rw [hentries, h.entries]

theorem forall_ptes_iff {property : BitVec 64 → Prop} (h : Represents vm top_level e)
    (hpresent : walk vm.mem top_level vaddr &&& PTE_PRESENT ≠ 0#64)
    (htable : ∀ value, TableEntry value → property value)
    : (∀ pte ∈ ptes vm.mem top_level vaddr, property pte) ↔ property (walk vm.mem top_level vaddr) := by
  have hpath := @path_levels (fun root => root = top_level) (fun _ => True) vaddr trivial
  unfold walk leaf at *
  cases hfollow : follow next vm.mem top_level (levels vaddr) with
  | none =>
    rw [hfollow] at hpresent
    exact absurd BitVec.zero_and hpresent
  | some t =>
    have hinner := h.inner.words rfl hpath hfollow
    constructor
    . intro hall
      apply hall
      apply (mem_words_concat next hfollow).mpr
      exact Or.inr rfl
    . intro hleaf pte hpte
      cases (mem_words_concat next hfollow).mp hpte with
      | inl hmem => exact htable pte (hinner pte hmem)
      | inr heq =>
        rw [heq]
        exact hleaf

theorem writable_iff (h : Represents vm top_level e)
    (hpresent : walk vm.mem top_level vaddr &&& PTE_PRESENT ≠ 0#64)
    : Writable vm.mem top_level vaddr ↔ walk vm.mem top_level vaddr &&& PTE_RW ≠ 0#64 :=
  h.forall_ptes_iff hpresent fun _ htable => htable.rights.1

theorem executable_iff (h : Represents vm top_level e)
    (hpresent : walk vm.mem top_level vaddr &&& PTE_PRESENT ≠ 0#64)
    : Executable vm.mem top_level vaddr ↔ walk vm.mem top_level vaddr &&& PTE_NX = 0#64 :=
  h.forall_ptes_iff hpresent fun _ htable => htable.rights.2

end Represents

end Vmm
end Franklin
