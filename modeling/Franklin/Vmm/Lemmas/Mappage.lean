import Franklin.Vmm.Lemmas.Walk

open Radix

namespace Franklin
namespace Vmm

section Shape

variable {roots : Addr → Prop} {valid : BitVec 9 → Prop} {vm vm' : Vm} {top_level : Addr}
variable {vaddr paddr flags : BitVec 64} {res : Int}

theorem mappage2_cases (h : Good (tables roots valid) vm) (htop : roots top_level)
    (hvalid : valid (index vaddr 39))
    (hres : mappage2 vm top_level vaddr paddr flags = some (res, vm'))
    : (walk vm.mem top_level vaddr &&& PTE_PRESENT ≠ 0#64 ∧ res = -EINVAL ∧
        Grows (tables roots valid) vm vm') ∨
      (walk vm.mem top_level vaddr &&& PTE_PRESENT = 0#64 ∧ res = 0 ∧
        Good (tables roots valid) vm' ∧
        (tables roots valid).Extends next vm.mem vm'.mem ∧
        walk vm'.mem top_level vaddr = paddr ||| flags ∧
        ∀ root path idx, roots root → (tables roots valid).Path path → path.length = 3 →
          ¬(path = levels vaddr ∧ idx = index vaddr 12) →
          leaf next 0#64 vm'.mem root path idx = leaf next 0#64 vm.mem root path idx) := by
  unfold mappage2 at hres
  split at hres
  . contradiction
  . next pml1 idx vm₁ hpte =>
    obtain ⟨hgrows, rfl, hfollow⟩ := va2pte_grows h htop hvalid hpte
    have hpath := path_levels roots hvalid
    have hwalk : vm₁.mem pml1 (index vaddr 12) = walk vm.mem top_level vaddr := by
      unfold walk
      rw [← hgrows.leaf top_level (levels vaddr) (index vaddr 12) htop hpath rfl]
      unfold leaf
      rw [hfollow]
    rw [hwalk] at hres
    split at hres
    . next hpresent =>
      simp only [Option.some.injEq, Prod.mk.injEq] at hres
      obtain ⟨rfl, rfl⟩ := hres
      exact Or.inl ⟨hpresent, rfl, hgrows⟩
    . next habsent =>
      simp only [Option.some.injEq, Prod.mk.injEq] at hres
      obtain ⟨rfl, rfl⟩ := hres
      have hforest := hgrows.good.forest
      have hreaches : (tables roots valid).Reaches next vm₁.mem (levels vaddr) pml1 :=
        ⟨hpath, top_level, htop, hfollow⟩
      right
      refine ⟨by simpa using habsent, rfl, ?_, ?_, ?_, ?_⟩
      . constructor
        . exact hforest.forest_store hreaches rfl _ _
        . exact hgrows.good.nodup
        . exact hgrows.good.page
        . intro page hpage path
          rw [hforest.reaches_store hreaches rfl]
          exact hgrows.good.fresh page hpage path
      . exact hgrows.mem.trans (hforest.extends_store hreaches rfl _ _)
      . unfold walk leaf
        rw [hforest.follow_store hreaches rfl _ _ htop hpath, hfollow]
        exact store_self _ _ _ _
      . intro root path idx hroot hpath' hlength hne
        rw [hforest.leaf_store_of_ne hreaches rfl _ hroot hpath' hne]
        exact hgrows.leaf root path idx hroot hpath' hlength

theorem mappage2_isSome (vaddr paddr flags : BitVec 64) (h : Good (tables roots valid) vm)
    (htop : roots top_level) (hvalid : valid (index vaddr 39)) (hsupply : 3 ≤ vm.supply.length)
    : ∃ res vm', mappage2 vm top_level vaddr paddr flags = some (res, vm') ∧
        vm.supply.length ≤ vm'.supply.length + 3 := by
  obtain ⟨⟨pml1, idx⟩, vm₁, hpte, hlength⟩ := va2pte_isSome h htop hvalid hsupply
  unfold mappage2
  simp only [hpte]
  split <;> exact ⟨_, _, rfl, hlength⟩

end Shape

theorem mappage2_suffix {vm vm' : Vm} {top_level : Addr} {vaddr paddr flags : BitVec 64} {res : Int}
    (hres : mappage2 vm top_level vaddr paddr flags = some (res, vm')) : vm'.supply <:+ vm.supply := by
  unfold mappage2 at hres
  split at hres
  . contradiction
  . next hpte =>
    have hsuffix := va2pte_suffix hpte
    split at hres
    . rw [← (Prod.mk.inj (Option.some.inj hres)).2]
      exact hsuffix
    . rw [← (Prod.mk.inj (Option.some.inj hres)).2]
      exact hsuffix

theorem getLsbD_index (vaddr : BitVec 64) {shift k : Nat} (hk : k < 9)
    : (index vaddr shift).getLsbD k = vaddr.getLsbD (shift + k) := by
  simp [index, hk]

theorem getLsbD_eq_of_index_eq {vaddr vaddr' : BitVec 64} {shift k : Nat}
    (h : index vaddr' shift = index vaddr shift) (hk : k < 9)
    : vaddr'.getLsbD (shift + k) = vaddr.getLsbD (shift + k) := by
  rw [← getLsbD_index vaddr' hk, h, getLsbD_index vaddr hk]

theorem getLsbD_eq_of_levels_eq {vaddr vaddr' : BitVec 64} {k : Nat}
    (hlevels : levels vaddr' = levels vaddr) (hindex : index vaddr' 12 = index vaddr 12)
    (hk₁ : 12 ≤ k) (hk₂ : k < 48) : vaddr'.getLsbD k = vaddr.getLsbD k := by
  simp only [levels, List.cons.injEq, and_true] at hlevels
  obtain ⟨h39, h30, h21⟩ := hlevels
  by_cases hlt21 : k < 21
  . rw [← Nat.add_sub_cancel' hk₁]
    exact getLsbD_eq_of_index_eq hindex (by omega)
  . by_cases hlt30 : k < 30
    . rw [← Nat.add_sub_cancel' (Nat.le_of_not_lt hlt21)]
      exact getLsbD_eq_of_index_eq h21 (by omega)
    . by_cases hlt39 : k < 39
      . rw [← Nat.add_sub_cancel' (Nat.le_of_not_lt hlt30)]
        exact getLsbD_eq_of_index_eq h30 (by omega)
      . rw [← Nat.add_sub_cancel' (Nat.le_of_not_lt hlt39)]
        exact getLsbD_eq_of_index_eq h39 (by omega)

def IsTable (mem : Mem) (top_level t : Addr) : Prop :=
  ∃ path, path.length ≤ 3 ∧ follow next mem top_level path = some t

/--
What is assumed of `palloc`: it returns page aligned addresses below `2 ^ 52`, none of them twice and
none that is already a table.
-/
structure FreshSupply (vm : Vm) (top_level : Addr) : Prop where
  nodup : vm.supply.Nodup
  page : ∀ page ∈ vm.supply, PTE_GET_ADDR page = page
  fresh : ∀ page ∈ vm.supply, ¬IsTable vm.mem top_level (P2V page)

/--
The page tables that calls of `mappage2` make from an all-zero top level.
-/
inductive Mapped (top_level : Addr) : Mem → Prop where
  | zero {mem : Mem} : (∀ idx, mem top_level idx = 0#64) → Mapped top_level mem
  | step {vm vm' : Vm} {vaddr paddr flags : BitVec 64} {res : Int} :
    Mapped top_level vm.mem → FreshSupply vm top_level →
    mappage2 vm top_level vaddr paddr flags = some (res, vm') → Mapped top_level vm'.mem

/--
The tables of a single page table, with no restriction on the addresses.
-/
def single (top_level : Addr) : Shape Addr (BitVec 9) :=
  tables (fun root => root = top_level) (fun _ => True)

theorem single_reaches_iff {mem : Mem} {top_level t : Addr} {path : List (BitVec 9)}
    : (single top_level).Reaches next mem path t ↔
        path.length ≤ 3 ∧ follow next mem top_level path = some t := by
  simp [single, tables, Shape.Reaches, Shape.Path]

theorem FreshSupply.good {vm : Vm} {top_level : Addr} (h : FreshSupply vm top_level)
    (hforest : (single top_level).Forest next vm.mem) : Good (single top_level) vm where
  forest := hforest
  nodup := h.nodup
  page := h.page
  fresh := by
    intro page hpage path hreaches
    apply h.fresh page hpage
    exact ⟨path, single_reaches_iff.mp hreaches⟩

theorem follow_zero {mem : Mem} {top_level t : Addr} {path : List (BitVec 9)}
    (hzero : ∀ idx, mem top_level idx = 0#64) (h : follow next mem top_level path = some t)
    : path = [] := by
  cases path with
  | nil => rfl
  | cons idx path => simp [follow, hzero] at h

theorem Mapped.forest {mem : Mem} {top_level : Addr} (h : Mapped top_level mem)
    : (single top_level).Forest next mem := by
  induction h with
  | zero hzero =>
    intro path path' t hpath hpath'
    rw [single_reaches_iff] at hpath hpath'
    rw [follow_zero hzero hpath.2, follow_zero hzero hpath'.2]
  | step _ hfresh hres ih =>
    cases mappage2_cases (hfresh.good ih) rfl trivial hres with
    | inl hpresent => exact hpresent.2.2.good.forest
    | inr habsent => exact habsent.2.2.1.forest

/--
`mappage2` maps exactly the page of `vaddr` if it is not mapped yet, else it changes nothing.
-/
theorem mappage2_walk_of_mapped {vm : Vm} {top_level : Addr} (h : Mapped top_level vm.mem)
    (hfresh : FreshSupply vm top_level) (hsupply : 3 ≤ vm.supply.length)
    (vaddr paddr flags : BitVec 64)
    : (walk vm.mem top_level vaddr &&& PTE_PRESENT = 0#64 →
        ∃ vm', mappage2 vm top_level vaddr paddr flags = some (0, vm') ∧
          walk vm'.mem top_level vaddr = paddr ||| flags ∧
          ∀ vaddr' : BitVec 64,
            (∃ k, 12 ≤ k ∧ k < 48 ∧ vaddr'.getLsbD k ≠ vaddr.getLsbD k) →
            walk vm'.mem top_level vaddr' = walk vm.mem top_level vaddr') ∧
      (walk vm.mem top_level vaddr &&& PTE_PRESENT ≠ 0#64 →
        ∃ vm', mappage2 vm top_level vaddr paddr flags = some (-EINVAL, vm') ∧
          ∀ vaddr', walk vm'.mem top_level vaddr' = walk vm.mem top_level vaddr') := by
  have hgood := hfresh.good h.forest
  obtain ⟨res, vm', hres, _⟩ := mappage2_isSome vaddr paddr flags hgood rfl trivial hsupply
  cases mappage2_cases hgood rfl trivial hres with
  | inl hpresent =>
    obtain ⟨hwalk, rfl, hgrows⟩ := hpresent
    refine ⟨fun hzero => absurd hzero hwalk, fun _ => ⟨vm', hres, ?_⟩⟩
    intro vaddr'
    exact hgrows.leaf top_level _ _ rfl (path_levels _ trivial) rfl
  | inr habsent =>
    obtain ⟨hwalk, rfl, _, _, hself, hother⟩ := habsent
    refine ⟨fun _ => ⟨vm', hres, hself, ?_⟩, fun hnonzero => absurd hwalk hnonzero⟩
    rintro vaddr' ⟨k, hk₁, hk₂, hne⟩
    apply hother top_level _ _ rfl (path_levels _ trivial) rfl
    rintro ⟨hlevels, hindex⟩
    exact hne (getLsbD_eq_of_levels_eq hlevels hindex hk₁ hk₂)

theorem mappage2_walk_empty :
    ∃ vm', mappage2 ⟨fun _ _ => 0#64, [0x2000#64, 0x3000#64, 0x4000#64]⟩ (P2V 0x1000#64)
        0xffffffff80000000#64 0x200000#64 (PTE_PRESENT ||| PTE_USER) = some (0, vm') ∧
      walk vm'.mem (P2V 0x1000#64) 0xffffffff80000000#64 = 0x200005#64 := by
  have hzero : ∀ idx : BitVec 9, (fun _ _ => 0#64 : Mem) (P2V 0x1000#64) idx = 0#64 := fun _ => rfl
  have hfresh : FreshSupply ⟨fun _ _ => 0#64, [0x2000#64, 0x3000#64, 0x4000#64]⟩
      (P2V 0x1000#64) := by
    constructor
    . decide
    . simp [PTE_GET_ADDR, PTE_ADDR_MASK]
    . rintro page hpage ⟨path, _, hfollow⟩
      have hnil := follow_zero hzero hfollow
      subst hnil
      have heq := P2V_inj (Option.some.inj hfollow)
      subst heq
      simp at hpage
  obtain ⟨vm', hres, hwalk, _⟩ := (mappage2_walk_of_mapped (Mapped.zero hzero) hfresh (by decide)
    0xffffffff80000000#64 0x200000#64 (PTE_PRESENT ||| PTE_USER)).1 (by decide)
  exact ⟨vm', hres, hwalk⟩

end Vmm
end Franklin
