import Mathlib.Data.List.Nodup
import Franklin.Vmm.Lemmas.Mappage

open Radix

namespace Franklin
namespace Vmm

structure Later (shape : Shape Addr (BitVec 9)) (vm vm' : Vm) : Prop where
  good : Good shape vm'
  mem : shape.Extends next vm.mem vm'.mem

namespace Later

variable {shape : Shape Addr (BitVec 9)} {vm vm' vm'' : Vm}

theorem refl (h : Good shape vm) : Later shape vm vm where
  good := h
  mem := Shape.Extends.refl vm.mem

theorem trans (h : Later shape vm vm') (h' : Later shape vm' vm'') : Later shape vm vm'' where
  good := h'.good
  mem := h.mem.trans h'.mem

theorem of_grows (h : Grows shape vm vm') : Later shape vm vm' where
  good := h.good
  mem := h.mem

theorem top_eq {roots : Addr → Prop} {valid : BitVec 9 → Prop} {top_level : Addr} {idx : BitVec 9}
    (h : Later (tables roots valid) vm vm') (htop : roots top_level)
    (hpresent : next (vm.mem top_level idx) ≠ none)
    : vm'.mem top_level idx = vm.mem top_level idx :=
  h.mem [] top_level idx (Shape.Reaches.root htop) (by simp [tables]) hpresent

end Later

section Shape

variable {roots : Addr → Prop} {valid : BitVec 9 → Prop} {vm vm' : Vm} {top_level : Addr}

theorem mappage2_later {vaddr paddr flags : BitVec 64} {res : Int}
    (h : Good (tables roots valid) vm) (htop : roots top_level) (hvalid : valid (index vaddr 39))
    (hres : mappage2 vm top_level vaddr paddr flags = some (res, vm'))
    : Later (tables roots valid) vm vm' := by
  cases mappage2_cases h htop hvalid hres with
  | inl hpresent => exact Later.of_grows hpresent.2.2
  | inr habsent => exact ⟨habsent.2.2.1, habsent.2.2.2.1⟩

end Shape

namespace init_vm

variable {vm vm' : Vm} {top_level : Addr}

theorem mapHigherHalf_later {i : BitVec 9} {n : Nat} (h : Good (single top_level) vm)
    (hn : i.toNat + n ≤ 512) (hres : mapHigherHalf vm top_level i n = some vm')
    : Later (single top_level) vm vm' ∧
        ∀ j : BitVec 9, i.toNat ≤ j.toNat → j.toNat < i.toNat + n →
          next (vm'.mem top_level j) ≠ none := by
  induction n generalizing vm i with
  | zero =>
    simp only [mapHigherHalf, Option.some.injEq] at hres
    subst hres
    refine ⟨Later.refl h, ?_⟩
    intro j hj₁ hj₂
    omega
  | succ n ih =>
    unfold mapHigherHalf at hres
    split at hres
    . contradiction
    . next res vm₁ hlevel =>
      obtain ⟨hgrows, t, _, hnext⟩ :=
        get_next_level_grows h (Shape.Reaches.root rfl) (by simp [single, tables]) hlevel
      cases n with
      | zero =>
        simp only [mapHigherHalf, Option.some.injEq] at hres
        subst hres
        refine ⟨Later.of_grows hgrows, ?_⟩
        intro j hj₁ hj₂
        have hj : j = i := BitVec.eq_of_toNat_eq (by omega)
        simp [hj, hnext]
      | succ n =>
        have hsucc : (i + 1#9).toNat = i.toNat + 1 := by
          simp only [BitVec.toNat_add, BitVec.toNat_ofNat]
          omega
        obtain ⟨hlater, hpresent⟩ := ih hgrows.good (by omega) hres
        refine ⟨(Later.of_grows hgrows).trans hlater, ?_⟩
        intro j hj₁ hj₂
        by_cases hj : j = i
        . subst hj
          rw [hlater.top_eq rfl (by simp [hnext])]
          simp [hnext]
        . have hne : j.toNat ≠ i.toNat := fun heq => hj (BitVec.eq_of_toNat_eq heq)
          apply hpresent j <;> omega

theorem mapSegment_later {image : KernelImage} {flags vaddr : BitVec 64} {n : Nat}
    (h : Good (single top_level) vm)
    (hres : mapSegment vm top_level image flags vaddr n = some vm')
    : Later (single top_level) vm vm' := by
  induction n generalizing vm vaddr with
  | zero =>
    simp only [mapSegment, Option.some.injEq] at hres
    subst hres
    exact Later.refl h
  | succ n ih =>
    unfold mapSegment at hres
    dsimp at hres
    split at hres
    . contradiction
    . next res vm₁ hmap =>
      have hlater := mappage2_later h rfl trivial hmap
      exact hlater.trans (ih hlater.good hres)

theorem mapSegments_later {image : KernelImage} {flags start stop : BitVec 64}
    (h : Good (single top_level) vm)
    (hres : mapSegments vm top_level image flags start stop = some vm')
    : Later (single top_level) vm vm' := by
  unfold mapSegments at hres
  exact mapSegment_later h hres

theorem mapLowerHalf_later {vaddr : BitVec 64} {n : Nat} (h : Good (single top_level) vm)
    (hres : mapLowerHalf vm top_level vaddr n = some vm') : Later (single top_level) vm vm' := by
  induction n generalizing vm vaddr with
  | zero =>
    simp only [mapLowerHalf, Option.some.injEq] at hres
    subst hres
    exact Later.refl h
  | succ n ih =>
    unfold mapLowerHalf at hres
    split at hres
    . contradiction
    . next res₁ vm₁ hlow =>
      have hlater₁ := mappage2_later h rfl trivial hlow
      split at hres
      . contradiction
      . next res₂ vm₂ hhigh =>
        have hlater₂ := mappage2_later hlater₁.good rfl trivial hhigh
        exact (hlater₁.trans hlater₂).trans (ih hlater₂.good hres)

theorem good_of_palloc {page : Addr} (hnodup : vm.supply.Nodup)
    (hpage : ∀ p ∈ vm.supply, PTE_GET_ADDR p = p) (hres : palloc vm = some (page, vm'))
    : Good (single (P2V page)) ⟨fill vm'.mem (P2V page) 0#64, vm'.supply⟩ := by
  have hzero : ∀ idx, fill vm'.mem (P2V page) 0#64 (P2V page) idx = 0#64 := by simp
  unfold palloc at hres
  split at hres
  . contradiction
  . next supply hsupply =>
    simp only [Option.some.injEq, Prod.mk.injEq] at hres
    obtain ⟨rfl, rfl⟩ := hres
    rw [hsupply, List.nodup_cons] at hnodup
    constructor
    . exact (Mapped.zero hzero).forest
    . exact hnodup.2
    . intro p hp
      exact hpage p (by simp [hsupply, hp])
    . intro p hp path hreaches
      rw [single_reaches_iff] at hreaches
      have hnil := follow_zero hzero hreaches.2
      subst hnil
      have heq := P2V_inj (Option.some.inj hreaches.2)
      exact hnodup.1 (heq ▸ hp)

/-!
The loops use the pages in the order in which `palloc` returns them.
-/

theorem mapHigherHalf_suffix {i : BitVec 9} {n : Nat} (hres : mapHigherHalf vm top_level i n = some vm')
    : vm'.supply <:+ vm.supply := by
  induction n generalizing vm i with
  | zero =>
    obtain rfl := Option.some.inj hres
    exact List.suffix_refl _
  | succ n ih =>
    unfold mapHigherHalf at hres
    split at hres
    . contradiction
    . next hlevel => exact (ih hres).trans (get_next_level_suffix hlevel)

theorem mapSegment_suffix {image : KernelImage} {flags vaddr : BitVec 64} {n : Nat}
    (hres : mapSegment vm top_level image flags vaddr n = some vm') : vm'.supply <:+ vm.supply := by
  induction n generalizing vm vaddr with
  | zero =>
    obtain rfl := Option.some.inj hres
    exact List.suffix_refl _
  | succ n ih =>
    unfold mapSegment at hres
    dsimp only at hres
    split at hres
    . contradiction
    . next hmap => exact (ih hres).trans (mappage2_suffix hmap)

theorem mapLowerHalf_suffix {vaddr : BitVec 64} {n : Nat} (hres : mapLowerHalf vm top_level vaddr n = some vm')
    : vm'.supply <:+ vm.supply := by
  induction n generalizing vm vaddr with
  | zero =>
    obtain rfl := Option.some.inj hres
    exact List.suffix_refl _
  | succ n ih =>
    unfold mapLowerHalf at hres
    split at hres
    . contradiction
    . next hlow =>
      split at hres
      . contradiction
      . next hhigh => exact ((ih hres).trans (mappage2_suffix hhigh)).trans (mappage2_suffix hlow)

/-!
None of the loops gets stuck as long as `palloc` has a page for each table.
-/

theorem mapHigherHalf_isSome {n : Nat} (i : BitVec 9) (h : n ≤ vm.supply.length)
    : ∃ vm', mapHigherHalf vm top_level i n = some vm' ∧
        vm.supply.length ≤ vm'.supply.length + n := by
  induction n generalizing vm i with
  | zero => exact ⟨vm, rfl, by omega⟩
  | succ n ih =>
    obtain ⟨res, vm₁, hlevel, hlength⟩ := get_next_level_isSome vm top_level i (by omega)
    obtain ⟨vm₂, hrest, hlength'⟩ := @ih vm₁ (i + 1#9) (by omega)
    refine ⟨vm₂, ?_, by omega⟩
    unfold mapHigherHalf
    simp only [hlevel, hrest]

theorem mapSegment_isSome {n : Nat} (image : KernelImage) (flags vaddr : BitVec 64)
    (hgood : Good (single top_level) vm) (h : 3 * n ≤ vm.supply.length)
    : ∃ vm', mapSegment vm top_level image flags vaddr n = some vm' ∧
        vm.supply.length ≤ vm'.supply.length + 3 * n := by
  induction n generalizing vm vaddr with
  | zero => exact ⟨vm, rfl, by omega⟩
  | succ n ih =>
    obtain ⟨res, vm₁, hmap, hlength⟩ := mappage2_isSome vaddr
      (vaddr - image.virtual_base + image.physical_base) flags hgood rfl trivial (by omega)
    have hlater := mappage2_later hgood rfl trivial hmap
    obtain ⟨vm₂, hrest, hlength'⟩ := ih (vaddr + pgsize) hlater.good (by omega)
    refine ⟨vm₂, ?_, by omega⟩
    unfold mapSegment
    simp only [hmap, hrest]

theorem mapLowerHalf_isSome {n : Nat} (vaddr : BitVec 64) (hgood : Good (single top_level) vm)
    (h : 6 * n ≤ vm.supply.length)
    : ∃ vm', mapLowerHalf vm top_level vaddr n = some vm' ∧
        vm.supply.length ≤ vm'.supply.length + 6 * n := by
  induction n generalizing vm vaddr with
  | zero => exact ⟨vm, rfl, by omega⟩
  | succ n ih =>
    obtain ⟨res₁, vm₁, hlow, hlength₁⟩ := mappage2_isSome vaddr vaddr
      (PTE_PRESENT ||| PTE_RW ||| PTE_USER) hgood rfl trivial (by omega)
    have hlater₁ := mappage2_later hgood rfl trivial hlow
    obtain ⟨res₂, vm₂, hhigh, hlength₂⟩ := mappage2_isSome (vaddr + HHDM_OFFSET) vaddr
      (PTE_PRESENT ||| PTE_NX ||| PTE_RW ||| PTE_USER) hlater₁.good rfl trivial (by omega)
    have hlater₂ := mappage2_later hlater₁.good rfl trivial hhigh
    obtain ⟨vm₃, hrest, hlength₃⟩ := ih (vaddr + pgsize) hlater₂.good (by omega)
    refine ⟨vm₃, ?_, by omega⟩
    unfold mapLowerHalf
    simp only [hlow, hhigh, hrest]

/--
An upper bound for the tables that `init_vm` needs, the top level included.
-/
def tablesNeeded (image : KernelImage) : Nat :=
  257 + 3 * segmentPages image.text_start_addr image.text_end_addr +
    3 * segmentPages image.rodata_start_addr image.rodata_end_addr +
    3 * segmentPages image.data_start_addr image.data_end_addr + 6 * lowerPages

end init_vm

theorem init_vm_isSome {vm : Vm} {image : KernelImage} (hnodup : vm.supply.Nodup)
    (hpage : ∀ p ∈ vm.supply, PTE_GET_ADDR p = p)
    (h : init_vm.tablesNeeded image ≤ vm.supply.length)
    : ∃ top_level vm', init_vm vm image = some (top_level, vm') ∧
        vm.supply.length ≤ vm'.supply.length + init_vm.tablesNeeded image := by
  unfold init_vm.tablesNeeded at h ⊢
  obtain ⟨page, supply, hsupply⟩ := List.exists_cons_of_length_pos (show 0 < vm.supply.length by omega)
  have h₀ : palloc vm = some (page, { vm with supply }) := by
    simp only [palloc, hsupply]
  have hgood := init_vm.good_of_palloc hnodup hpage h₀
  rw [hsupply, List.length_cons] at h ⊢
  obtain ⟨vm₁, h₁, hlength₁⟩ :=
    @init_vm.mapHigherHalf_isSome ⟨fill vm.mem (P2V page) 0#64, supply⟩ (P2V page) 256 256#9
      (show 256 ≤ supply.length by omega)
  have hlater₁ := (init_vm.mapHigherHalf_later hgood (by decide) h₁).1
  dsimp at hlength₁
  obtain ⟨vm₂, h₂, hlength₂⟩ := init_vm.mapSegment_isSome image (PTE_PRESENT ||| PTE_USER)
    (ALIGN_DOWN image.text_start_addr init_vm.pgsize) hlater₁.good
    (show 3 * init_vm.segmentPages image.text_start_addr image.text_end_addr ≤ _ by omega)
  have hlater₂ := init_vm.mapSegment_later hlater₁.good h₂
  obtain ⟨vm₃, h₃, hlength₃⟩ := init_vm.mapSegment_isSome image (PTE_PRESENT ||| PTE_NX ||| PTE_USER)
    (ALIGN_DOWN image.rodata_start_addr init_vm.pgsize) hlater₂.good
    (show 3 * init_vm.segmentPages image.rodata_start_addr image.rodata_end_addr ≤ _ by omega)
  have hlater₃ := init_vm.mapSegment_later hlater₂.good h₃
  obtain ⟨vm₄, h₄, hlength₄⟩ := init_vm.mapSegment_isSome image
    (PTE_PRESENT ||| PTE_NX ||| PTE_RW ||| PTE_USER)
    (ALIGN_DOWN image.data_start_addr init_vm.pgsize) hlater₃.good
    (show 3 * init_vm.segmentPages image.data_start_addr image.data_end_addr ≤ _ by omega)
  have hlater₄ := init_vm.mapSegment_later hlater₃.good h₄
  obtain ⟨vm₅, h₅, hlength₅⟩ := init_vm.mapLowerHalf_isSome 0x1000#64 hlater₄.good
    (show 6 * init_vm.lowerPages ≤ _ by omega)
  refine ⟨P2V page, vm₅, ?_, by omega⟩
  unfold init_vm
  refine Option.bind_eq_some_iff.mpr ⟨(page, { vm with supply }), h₀, ?_⟩
  refine Option.bind_eq_some_iff.mpr ⟨vm₁, h₁, ?_⟩
  refine Option.bind_eq_some_iff.mpr ⟨vm₂, h₂, ?_⟩
  refine Option.bind_eq_some_iff.mpr ⟨vm₃, h₃, ?_⟩
  refine Option.bind_eq_some_iff.mpr ⟨vm₄, h₄, ?_⟩
  exact Option.bind_eq_some_iff.mpr ⟨vm₅, h₅, rfl⟩

theorem init_vm_spec {vm vm' : Vm} {image : KernelImage} {top_level : Addr}
    (hnodup : vm.supply.Nodup) (hpage : ∀ p ∈ vm.supply, PTE_GET_ADDR p = p)
    (hres : init_vm vm image = some (top_level, vm'))
    : Good (single top_level) vm' ∧
        ∀ i : BitVec 9, 256 ≤ i.toNat → next (vm'.mem top_level i) ≠ none := by
  unfold init_vm at hres
  obtain ⟨⟨page, vm₀⟩, h₀, hres⟩ := Option.bind_eq_some_iff.mp hres
  obtain ⟨vm₁, h₁, hres⟩ := Option.bind_eq_some_iff.mp hres
  obtain ⟨vm₂, h₂, hres⟩ := Option.bind_eq_some_iff.mp hres
  obtain ⟨vm₃, h₃, hres⟩ := Option.bind_eq_some_iff.mp hres
  obtain ⟨vm₄, h₄, hres⟩ := Option.bind_eq_some_iff.mp hres
  obtain ⟨vm₅, h₅, hres⟩ := Option.bind_eq_some_iff.mp hres
  have hgood := init_vm.good_of_palloc hnodup hpage h₀
  obtain ⟨hlater₁, hpresent⟩ := init_vm.mapHigherHalf_later hgood (by decide) h₁
  have hlater₂ := init_vm.mapSegments_later hlater₁.good h₂
  have hlater₃ := init_vm.mapSegments_later hlater₂.good h₃
  have hlater₄ := init_vm.mapSegments_later hlater₃.good h₄
  have hlater₅ := init_vm.mapLowerHalf_later hlater₄.good h₅
  have hlater := ((hlater₂.trans hlater₃).trans hlater₄).trans hlater₅
  obtain ⟨rfl, rfl⟩ := Prod.mk.inj (Option.some.inj hres)
  refine ⟨hlater.good, ?_⟩
  intro i hi
  have hlt : i.toNat < 512 := i.isLt
  have hpresent := hpresent i (by simpa using hi) (by simpa using hlt)
  rwa [hlater.top_eq rfl hpresent]

theorem init_vm_suffix {vm vm' : Vm} {image : KernelImage} {top_level : Addr}
    (hres : init_vm vm image = some (top_level, vm')) : vm'.supply <:+ vm.supply := by
  unfold init_vm at hres
  obtain ⟨⟨page, vm₀⟩, h₀, hres⟩ := Option.bind_eq_some_iff.mp hres
  obtain ⟨vm₁, h₁, hres⟩ := Option.bind_eq_some_iff.mp hres
  obtain ⟨vm₂, h₂, hres⟩ := Option.bind_eq_some_iff.mp hres
  obtain ⟨vm₃, h₃, hres⟩ := Option.bind_eq_some_iff.mp hres
  obtain ⟨vm₄, h₄, hres⟩ := Option.bind_eq_some_iff.mp hres
  obtain ⟨vm₅, h₅, hres⟩ := Option.bind_eq_some_iff.mp hres
  obtain ⟨rfl, rfl⟩ := Prod.mk.inj (Option.some.inj hres)
  have hpalloc : vm₀.supply <:+ vm.supply := by
    unfold palloc at h₀
    split at h₀
    . contradiction
    . next supply hsupply =>
      rw [← (Prod.mk.inj (Option.some.inj h₀)).2, hsupply]
      exact List.suffix_cons _ supply
  have htext := (init_vm.mapSegment_suffix h₂).trans (init_vm.mapHigherHalf_suffix h₁)
  have hdata := (init_vm.mapSegment_suffix h₄).trans (init_vm.mapSegment_suffix h₃)
  exact (((init_vm.mapLowerHalf_suffix h₅).trans hdata).trans htext).trans hpalloc

def upper (maps : List Addr) : Shape Addr (BitVec 9) :=
  tables (fun root => root ∈ maps) (fun i => 256 ≤ i.toNat)

/--
What is assumed of `palloc` once there are several maps: it returns no page that is the top level of
one of them or a table of the upper half.
-/
structure FreshPages (vm : Vm) (maps : List Addr) : Prop where
  nodup : vm.supply.Nodup
  page : ∀ page ∈ vm.supply, PTE_GET_ADDR page = page
  fresh : ∀ page ∈ vm.supply, ∀ path, ¬(upper maps).Reaches next vm.mem path (P2V page)

theorem init_vm_freshPages {vm vm' : Vm} {image : KernelImage} {kernel_top : Addr} (hnodup : vm.supply.Nodup)
    (hpage : ∀ p ∈ vm.supply, PTE_GET_ADDR p = p) (hres : init_vm vm image = some (kernel_top, vm'))
    : FreshPages vm' [kernel_top] := by
  have hgood := (init_vm_spec hnodup hpage hres).1
  refine ⟨hgood.nodup, hgood.page, ?_⟩
  rintro page hmem path ⟨hpath, root, hroot, hfollow⟩
  apply hgood.fresh page hmem path
  exact ⟨⟨hpath.1, fun _ _ => trivial⟩, root, List.mem_singleton.mp hroot, hfollow⟩

/--
The address spaces that `newvm_map` and `mappage2` make after `init_vm`: `maps` are all top levels,
`kernel_top` is the one of `kernel_vm_map`.
-/
inductive KernelRun (image : KernelImage) : Mem → Addr → List Addr → Prop where
  | init_vm {vm vm' : Vm} {kernel_top : Addr} :
    vm.supply.Nodup → (∀ page ∈ vm.supply, PTE_GET_ADDR page = page) →
    Vmm.init_vm vm image = some (kernel_top, vm') →
    KernelRun image vm'.mem kernel_top [kernel_top]
  | newvm_map {vm vm' : Vm} {kernel_top top_level : Addr} {maps : List Addr} :
    KernelRun image vm.mem kernel_top maps → FreshPages vm maps →
    Vmm.newvm_map vm kernel_top = some (top_level, vm') →
    KernelRun image vm'.mem kernel_top (top_level :: maps)
  | mappage2 {vm vm' : Vm} {kernel_top top_level : Addr} {maps : List Addr}
    {vaddr paddr flags : BitVec 64} {res : Int} :
    KernelRun image vm.mem kernel_top maps → FreshPages vm maps → top_level ∈ maps →
    256 ≤ (index vaddr 39).toNat →
    Vmm.mappage2 vm top_level vaddr paddr flags = some (res, vm') →
    KernelRun image vm'.mem kernel_top maps

structure Shared (mem : Mem) (kernel_top : Addr) (maps : List Addr) : Prop where
  forest : (upper maps).Forest next mem
  kernel_mem : kernel_top ∈ maps
  same : ∀ m ∈ maps, ∀ i : BitVec 9, 256 ≤ i.toNat → mem m i = mem kernel_top i
  present : ∀ i : BitVec 9, 256 ≤ i.toNat → next (mem kernel_top i) ≠ none

theorem FreshPages.good {vm : Vm} {maps : List Addr} (h : FreshPages vm maps)
    (hforest : (upper maps).Forest next vm.mem) : Good (upper maps) vm where
  forest := hforest
  nodup := h.nodup
  page := h.page
  fresh := h.fresh

namespace Shared

variable {vm vm' : Vm} {kernel_top top_level : Addr} {maps : List Addr}

theorem of_single (hgood : Good (single kernel_top) vm)
    (hpresent : ∀ i : BitVec 9, 256 ≤ i.toNat → next (vm.mem kernel_top i) ≠ none)
    : Shared vm.mem kernel_top [kernel_top] where
  forest := by
    intro path path' t hpath hpath'
    have hsub : ∀ path, (upper [kernel_top]).Reaches next vm.mem path t →
        (single kernel_top).Reaches next vm.mem path t := by
      rintro path ⟨hpath, root, hroot, hfollow⟩
      refine ⟨⟨hpath.1, fun _ _ => trivial⟩, root, ?_, hfollow⟩
      exact List.mem_singleton.mp hroot
    exact hgood.forest path path' t (hsub path hpath) (hsub path' hpath')
  kernel_mem := by simp
  same := by simp
  present := hpresent

theorem of_later (h : Shared vm.mem kernel_top maps) (hlater : Later (upper maps) vm vm')
    : Shared vm'.mem kernel_top maps where
  forest := hlater.good.forest
  kernel_mem := h.kernel_mem
  same := by
    intro m hm i hi
    have hpresent := h.present i hi
    rw [hlater.top_eq h.kernel_mem hpresent, ← h.same m hm i hi]
    apply hlater.top_eq hm
    rwa [h.same m hm i hi]
  present := by
    intro i hi
    have hpresent := h.present i hi
    rwa [hlater.top_eq h.kernel_mem hpresent]

section CopyKernel

variable {mem : Mem}

theorem follow_eq (h : Shared mem kernel_top maps) {m : Addr} (hm : m ∈ maps)
    {path : List (BitVec 9)} (hpath : (upper maps).Path path) (hne : path ≠ [])
    : follow next mem m path = follow next mem kernel_top path := by
  cases path with
  | nil => contradiction
  | cons i path =>
    simp only [follow]
    rw [h.same m hm i (hpath.2 i rfl)]

theorem copyKernel_new {i : BitVec 9} (hi : 256 ≤ i.toNat)
    : newvm_map.copyKernel mem top_level kernel_top top_level i = mem kernel_top i := by
  simp [newvm_map.copyKernel, hi]

variable (hnew : ∀ path, ¬(upper maps).Reaches next mem path top_level)

include hnew

theorem copyKernel_of_reaches (path : List (BitVec 9)) (t : Addr)
    (hreaches : (upper maps).Reaches next mem path t)
    : newvm_map.copyKernel mem top_level kernel_top t = mem t := by
  have hne : t ≠ top_level := fun heq => hnew path (heq ▸ hreaches)
  simp [newvm_map.copyKernel, hne]

theorem copyKernel_of_mem {m : Addr} (hm : m ∈ maps)
    : newvm_map.copyKernel mem top_level kernel_top m = mem m :=
  copyKernel_of_reaches hnew [] m (Shape.Reaches.root hm)

theorem reaches_copyKernel (h : Shared mem kernel_top maps) {path : List (BitVec 9)} {t : Addr}
    (hreaches : (upper (top_level :: maps)).Reaches next
      (newvm_map.copyKernel mem top_level kernel_top) path t)
    : (upper maps).Reaches next mem path t ∨ (path = [] ∧ t = top_level) := by
  obtain ⟨hpath, root, hroot, hfollow⟩ := hreaches
  have hpath : (upper maps).Path path := hpath
  have hold : ∀ m ∈ maps, follow next (newvm_map.copyKernel mem top_level kernel_top) m path = some t →
      (upper maps).Reaches next mem path t := by
    intro m hm hfollow
    rw [Shape.follow_eq_of_agree (copyKernel_of_reaches hnew) hm hpath] at hfollow
    exact ⟨hpath, m, hm, hfollow⟩
  cases List.mem_cons.mp hroot with
  | inl heq =>
    subst heq
    cases path with
    | nil => exact Or.inr ⟨rfl, (Option.some.inj hfollow).symm⟩
    | cons i path =>
      left
      apply hold kernel_top h.kernel_mem
      simp only [follow] at hfollow ⊢
      rw [copyKernel_new (hpath.2 i rfl)] at hfollow
      rw [copyKernel_of_mem hnew h.kernel_mem]
      exact hfollow
  | inr hm => exact Or.inl (hold root hm hfollow)

theorem copyKernel (h : Shared mem kernel_top maps)
    : Shared (newvm_map.copyKernel mem top_level kernel_top) kernel_top (top_level :: maps) where
  forest := by
    intro path path' t hpath hpath'
    cases reaches_copyKernel hnew h hpath with
    | inl hold =>
      cases reaches_copyKernel hnew h hpath' with
      | inl hold' => exact h.forest path path' t hold hold'
      | inr htop' => exact absurd (htop'.2 ▸ hold) (hnew path)
    | inr htop =>
      cases reaches_copyKernel hnew h hpath' with
      | inl hold' => exact absurd (htop.2 ▸ hold') (hnew path')
      | inr htop' => rw [htop.1, htop'.1]
  kernel_mem := List.mem_cons_of_mem _ h.kernel_mem
  same := by
    intro m hm i hi
    rw [copyKernel_of_mem hnew h.kernel_mem]
    cases List.mem_cons.mp hm with
    | inl heq => rw [heq, copyKernel_new hi]
    | inr hm => rw [copyKernel_of_mem hnew hm, h.same m hm i hi]
  present := by
    intro i hi
    rw [copyKernel_of_mem hnew h.kernel_mem]
    exact h.present i hi

end CopyKernel

theorem newvm_map (h : Shared vm.mem kernel_top maps) (hfresh : FreshPages vm maps)
    (hres : newvm_map vm kernel_top = some (top_level, vm'))
    : Shared vm'.mem kernel_top (top_level :: maps) := by
  unfold Vmm.newvm_map palloc at hres
  cases hsupply : vm.supply with
  | nil => simp [hsupply] at hres
  | cons page supply =>
    simp only [hsupply, Option.some.injEq, Prod.mk.injEq] at hres
    obtain ⟨rfl, rfl⟩ := hres
    have hmem : page ∈ vm.supply := by simp [hsupply]
    have hcopy := copyKernel (hfresh.fresh page hmem) h
    exact hcopy

theorem newvm_map_freshPages (h : Shared vm.mem kernel_top maps) (hfresh : FreshPages vm maps)
    (hres : Vmm.newvm_map vm kernel_top = some (top_level, vm')) : FreshPages vm' (top_level :: maps) := by
  unfold Vmm.newvm_map palloc at hres
  cases hsupply : vm.supply with
  | nil => simp [hsupply] at hres
  | cons page supply =>
    simp only [hsupply, Option.some.injEq, Prod.mk.injEq] at hres
    obtain ⟨rfl, rfl⟩ := hres
    have hnodup := hfresh.nodup
    rw [hsupply, List.nodup_cons] at hnodup
    have hmem : ∀ p ∈ supply, p ∈ vm.supply := by
      intro p hp
      rw [hsupply]
      exact List.mem_cons_of_mem _ hp
    refine ⟨hnodup.2, fun p hp => hfresh.page p (hmem p hp), ?_⟩
    intro p hp path hreaches
    rcases reaches_copyKernel (hfresh.fresh page (by simp [hsupply])) h hreaches with hold | ⟨_, heq⟩
    . exact hfresh.fresh p (hmem p hp) path hold
    . rw [P2V_inj heq] at hp
      exact hnodup.1 hp

end Shared

theorem KernelRun.shared {image : KernelImage} {mem : Mem} {kernel_top : Addr} {maps : List Addr}
    (h : KernelRun image mem kernel_top maps) : Shared mem kernel_top maps := by
  induction h with
  | init_vm hnodup hpage hres =>
    obtain ⟨hgood, hpresent⟩ := init_vm_spec hnodup hpage hres
    exact Shared.of_single hgood hpresent
  | newvm_map _ hfresh hres ih => exact ih.newvm_map hfresh hres
  | @mappage2 vm vm' kernel_top top_level maps _ _ _ _ _ hfresh hmem hupper hres ih =>
    have hlater : Later (upper maps) vm vm' :=
      mappage2_later (hfresh.good ih.forest) hmem hupper hres
    exact ih.of_later hlater

/--
At any time after `init_vm` all address spaces translate the upper half in the same way.
-/
theorem KernelRun.walk_eq {image : KernelImage} {mem : Mem} {kernel_top : Addr} {maps : List Addr}
    (h : KernelRun image mem kernel_top maps) {m m' : Addr} (hm : m ∈ maps) (hm' : m' ∈ maps)
    {vaddr : BitVec 64} (hvaddr : 256 ≤ (index vaddr 39).toNat)
    : walk mem m vaddr = walk mem m' vaddr := by
  have hshared := h.shared
  have hpath : (upper maps).Path (levels vaddr) := path_levels _ hvaddr
  unfold walk leaf
  rw [hshared.follow_eq hm hpath (by simp [levels]), hshared.follow_eq hm' hpath (by simp [levels])]

def firstPages (n : Nat) : List Addr :=
  (List.range n).map fun i => BitVec.ofNat 64 ((i + 1) * PGSIZE)

theorem firstPages_nodup {n : Nat} (h : n < 2 ^ 40) : (firstPages n).Nodup := by
  unfold firstPages
  rw [List.nodup_map_iff_inj_on List.nodup_range]
  intro i hi j hj heq
  rw [List.mem_range] at hi hj
  have := congrArg BitVec.toNat heq
  simp only [BitVec.toNat_ofNat, PGSIZE] at this
  omega

theorem firstPages_page {n : Nat} (h : n < 2 ^ 40) : ∀ p ∈ firstPages n, PTE_GET_ADDR p = p := by
  intro p hp
  simp only [firstPages, List.mem_map, List.mem_range] at hp
  obtain ⟨i, hi, rfl⟩ := hp
  apply BitVec.eq_of_getLsbD_eq
  intro k hk
  have hmask : PTE_ADDR_MASK = BitVec.ofNat 64 ((2 ^ 40 - 1) * 2 ^ 12) := by rfl
  have hpage : (i + 1) * PGSIZE = (i + 1) * 2 ^ 12 := by rfl
  rw [PTE_GET_ADDR, hmask, hpage, BitVec.getLsbD_and]
  simp only [BitVec.getLsbD_ofNat, hk, decide_true, Bool.true_and, Nat.testBit_mul_two_pow,
    Nat.testBit_two_pow_sub_one]
  by_cases hlow : k - 12 < 40
  . simp only [hlow, decide_true, Bool.and_true]
    cases decide (k ≥ 12) <;> simp
  . have hbit : (i + 1).testBit (k - 12) = false := by
      apply Nat.testBit_lt_two_pow
      calc i + 1 ≤ n := hi
        _ < 2 ^ 40 := h
        _ ≤ 2 ^ (k - 12) := Nat.pow_le_pow_right (by omega) (by omega)
    simp [hbit]

def smallImage : KernelImage :=
  { text_start_addr := 0xffffffff80000000#64
    text_end_addr := 0xffffffff80001000#64
    rodata_start_addr := 0xffffffff80002000#64
    rodata_end_addr := 0xffffffff80003000#64
    data_start_addr := 0xffffffff80004000#64
    data_end_addr := 0xffffffff80005000#64
    virtual_base := 0xffffffff80000000#64
    physical_base := 0x200000#64 }

theorem walk_eq_smallImage :
    ∃ mem kernel_top top_level, KernelRun smallImage mem kernel_top [top_level, kernel_top] ∧
      walk mem top_level 0xffffffff80200000#64 = walk mem kernel_top 0xffffffff80200000#64 := by
  have hneeded : init_vm.tablesNeeded smallImage = 3145988 := by
    simp [init_vm.tablesNeeded, init_vm.segmentPages, init_vm.lowerPages, init_vm.pgsize, smallImage,
      ALIGN_UP, ALIGN_DOWN, PGSIZE]
  obtain ⟨supply, hnodup, hpage, hlength⟩ : ∃ supply : List Addr, supply.Nodup ∧
      (∀ p ∈ supply, PTE_GET_ADDR p = p) ∧ supply.length = 4000000 :=
    ⟨firstPages 4000000, firstPages_nodup (by decide), firstPages_page (by decide),
      by simp [firstPages]⟩
  obtain ⟨kernel_top, vm, hinit, hrest⟩ :=
    @init_vm_isSome ⟨fun _ _ => 0#64, supply⟩ smallImage hnodup hpage
      (by rw [hneeded, hlength]; omega)
  have hrun := KernelRun.init_vm hnodup hpage hinit
  have hfresh := init_vm_freshPages hnodup hpage hinit
  rw [hneeded] at hrest
  dsimp only at hrest
  rw [hlength] at hrest
  obtain ⟨page, supply, hsupply⟩ := List.exists_cons_of_length_pos (show 0 < vm.supply.length by omega)
  have hnew : newvm_map vm kernel_top =
      some (P2V page, ⟨newvm_map.copyKernel vm.mem (P2V page) kernel_top, supply⟩) := by
    unfold newvm_map palloc
    rw [hsupply]
  have hrun' := KernelRun.newvm_map hrun hfresh hnew
  have hfresh' := hrun.shared.newvm_map_freshPages hfresh hnew
  rw [hsupply, List.length_cons] at hrest
  have hupper : 256 ≤ (index 0xffffffff80200000#64 39).toNat := by decide
  obtain ⟨res, vm', hmap, _⟩ := mappage2_isSome 0xffffffff80200000#64 0x5000#64 (PTE_PRESENT ||| PTE_RW)
    (hfresh'.good hrun'.shared.forest) List.mem_cons_self hupper (by dsimp only; omega)
  have hrun'' := KernelRun.mappage2 hrun' hfresh' List.mem_cons_self hupper hmap
  exact ⟨vm'.mem, kernel_top, P2V page, hrun'', hrun''.walk_eq (by simp) (by simp) hupper⟩

end Vmm
end Franklin
