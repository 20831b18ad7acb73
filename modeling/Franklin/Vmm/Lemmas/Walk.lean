import Franklin.Vmm.Basic

/-!
This module contains what a single `get_next_level` and `va2pte` do to the page tables, seen as trees
of depth three below one or more top levels.
-/

open Radix

namespace Franklin
namespace Vmm

/--
The table that an entry of a top level, a `pml3` or a `pml2` refers to.
-/
def next (value : BitVec 64) : Option Addr :=
  if value &&& PTE_PRESENT ≠ 0#64 then
    some (P2V (PTE_GET_ADDR value))
  else
    none

@[simp]
theorem next_zero : next 0#64 = none := by
  decide

theorem next_table {page : Addr} (h : PTE_GET_ADDR page = page)
    : next (page ||| PTE_PRESENT ||| PTE_RW ||| PTE_USER) = some (P2V page) := by
  have hpresent : (page ||| PTE_PRESENT ||| PTE_RW ||| PTE_USER) &&& PTE_PRESENT ≠ 0#64 := by
    intro hzero
    have : ((page ||| PTE_PRESENT ||| PTE_RW ||| PTE_USER) &&& PTE_PRESENT).getLsbD 0 = false := by
      rw [hzero]
      rfl
    simp [PTE_PRESENT] at this
  have haddr : PTE_GET_ADDR (page ||| PTE_PRESENT ||| PTE_RW ||| PTE_USER) = page := by
    have hflags : (PTE_PRESENT ||| PTE_RW ||| PTE_USER) &&& PTE_ADDR_MASK = 0#64 := by decide
    have hassoc : page ||| PTE_PRESENT ||| PTE_RW ||| PTE_USER =
        page ||| (PTE_PRESENT ||| PTE_RW ||| PTE_USER) := by
      simp only [BitVec.or_assoc]
    unfold PTE_GET_ADDR at *
    rw [hassoc, BitVec.and_comm, BitVec.and_or_distrib_left, BitVec.and_comm, h]
    rw [BitVec.and_comm, hflags, BitVec.or_zero]
  unfold next
  rw [if_pos hpresent, haddr]

theorem P2V_inj {p q : Addr} (h : P2V p = P2V q) : p = q := by
  unfold P2V at h
  exact BitVec.add_left_inj _ |>.mp h

def tables (roots : Addr → Prop) (valid : BitVec 9 → Prop) : Shape Addr (BitVec 9) :=
  { depth := 3, roots, valid }

/--
No two entries share a table, and `palloc` returns page aligned addresses below `2 ^ 52` of pages
that are no tables.
-/
structure Good (shape : Shape Addr (BitVec 9)) (vm : Vm) : Prop where
  forest : shape.Forest next vm.mem
  nodup : vm.supply.Nodup
  page : ∀ page ∈ vm.supply, PTE_GET_ADDR page = page
  fresh : ∀ page ∈ vm.supply, ∀ path, ¬shape.Reaches next vm.mem path (P2V page)

structure Grows (shape : Shape Addr (BitVec 9)) (vm vm' : Vm) : Prop where
  good : Good shape vm'
  mem : shape.Extends next vm.mem vm'.mem
  leaf : ∀ root path idx, shape.roots root → shape.Path path → path.length = shape.depth →
    leaf next 0#64 vm'.mem root path idx = leaf next 0#64 vm.mem root path idx

variable {shape : Shape Addr (BitVec 9)} {vm vm' vm'' : Vm}

theorem Grows.refl (h : Good shape vm) : Grows shape vm vm where
  good := h
  mem := Shape.Extends.refl vm.mem
  leaf := by intros; rfl

theorem Grows.trans (h : Grows shape vm vm') (h' : Grows shape vm' vm'') : Grows shape vm vm'' where
  good := h'.good
  mem := h.mem.trans h'.mem
  leaf := by
    intro root path idx hroot hpath hlength
    rw [h'.leaf root path idx hroot hpath hlength, h.leaf root path idx hroot hpath hlength]

theorem Good.canLink {path : List (BitVec 9)} {t page : Addr} {idx : BitVec 9}
    (h : Good shape vm) (hmem : page ∈ vm.supply)
    (hreaches : shape.Reaches next vm.mem path t) (hinner : path.length < shape.depth)
    (hfree : next (vm.mem t idx) = none)
    : Shape.CanLink next shape vm.mem path t idx (P2V page) 0#64
        (page ||| PTE_PRESENT ||| PTE_RW ||| PTE_USER) where
  forest := h.forest
  reaches := hreaches
  inner := hinner
  free := hfree
  fresh := h.fresh page hmem
  child_zero := next_zero
  child_word := next_table (h.page page hmem)

theorem Good.grows_link {path : List (BitVec 9)} {t page : Addr} {idx : BitVec 9}
    {supply : List Addr} (h : Good shape vm) (hsupply : vm.supply = page :: supply)
    (hreaches : shape.Reaches next vm.mem path t) (hinner : path.length < shape.depth)
    (hfree : next (vm.mem t idx) = none)
    : Grows shape vm
        ⟨Shape.link vm.mem t idx (P2V page) 0#64 (page ||| PTE_PRESENT ||| PTE_RW ||| PTE_USER),
          supply⟩ := by
  have hmem : page ∈ vm.supply := by simp [hsupply]
  have hnodup := h.nodup
  rw [hsupply, List.nodup_cons] at hnodup
  have hlink := h.canLink hmem hreaches hinner hfree
  constructor
  . constructor
    . exact hlink.forest_link
    . exact hnodup.2
    . intro page' hpage'
      exact h.page page' (by simp [hsupply, hpage'])
    . intro page' hpage' path' hreaches'
      cases hlink.reaches_link hreaches' with
      | inl hold => exact h.fresh page' (by simp [hsupply, hpage']) path' hold
      | inr hnew =>
        have heq := P2V_inj hnew.2
        exact hnodup.1 (heq ▸ hpage')
  . exact hlink.extends_link
  . intro root path' idx' hroot hpath hlength
    exact hlink.leaf_link idx' hroot hpath hlength

theorem get_next_level_of_some {t t' : Addr} {idx : BitVec 9} (alloc : Bool) (h : next (vm.mem t idx) = some t')
    : get_next_level vm t idx alloc = some (some t', vm) := by
  unfold next at h
  split at h
  . next hpresent =>
    obtain rfl := Option.some.inj h
    unfold get_next_level
    rw [if_pos hpresent]
  . cases h

theorem get_next_level_of_none {t page : Addr} {idx : BitVec 9} {supply : List Addr}
    (h : next (vm.mem t idx) = none) (hsupply : vm.supply = page :: supply)
    : get_next_level vm t idx true = some (some (P2V page),
        ⟨Shape.link vm.mem t idx (P2V page) 0#64 (page ||| PTE_PRESENT ||| PTE_RW ||| PTE_USER), supply⟩) := by
  unfold next at h
  split at h
  . cases h
  . next habsent =>
    unfold get_next_level palloc
    rw [if_neg habsent, if_neg (by simp), hsupply]
    rfl

theorem get_next_level_cases {t : Addr} {idx : BitVec 9} {res : Option Addr}
    (hres : get_next_level vm t idx true = some (res, vm'))
    : (∃ t', next (vm.mem t idx) = some t' ∧ res = some t' ∧ vm' = vm) ∨
      ∃ page supply, next (vm.mem t idx) = none ∧ vm.supply = page :: supply ∧ res = some (P2V page) ∧
        vm' = ⟨Shape.link vm.mem t idx (P2V page) 0#64 (page ||| PTE_PRESENT ||| PTE_RW ||| PTE_USER), supply⟩ := by
  cases hnext : next (vm.mem t idx) with
  | some t' =>
    rw [get_next_level_of_some true hnext] at hres
    rcases Prod.mk.inj (Option.some.inj hres) with ⟨rfl, rfl⟩
    exact Or.inl ⟨t', rfl, rfl, rfl⟩
  | none =>
    cases hsupply : vm.supply with
    | nil =>
      unfold next at hnext
      split at hnext
      . cases hnext
      . next habsent =>
        unfold get_next_level palloc at hres
        rw [if_neg habsent, if_neg (by simp), hsupply] at hres
        cases hres
    | cons page supply =>
      rw [get_next_level_of_none hnext hsupply] at hres
      rcases Prod.mk.inj (Option.some.inj hres) with ⟨rfl, rfl⟩
      exact Or.inr ⟨page, supply, rfl, rfl, rfl, rfl⟩

theorem get_next_level_suffix {t : Addr} {idx : BitVec 9} {res : Option Addr}
    (hres : get_next_level vm t idx true = some (res, vm')) : vm'.supply <:+ vm.supply := by
  rcases get_next_level_cases hres with ⟨t', _, _, rfl⟩ | ⟨page, supply, _, hsupply, _, rfl⟩
  . exact List.suffix_refl _
  . rw [hsupply]
    exact List.suffix_cons page supply

theorem get_next_level_grows {path : List (BitVec 9)} {t : Addr} {idx : BitVec 9}
    {res : Option Addr} (h : Good shape vm) (hreaches : shape.Reaches next vm.mem path t)
    (hinner : path.length < shape.depth) (hres : get_next_level vm t idx true = some (res, vm'))
    : Grows shape vm vm' ∧ ∃ t', res = some t' ∧ next (vm'.mem t idx) = some t' := by
  rcases get_next_level_cases hres with ⟨t', hnext, rfl, rfl⟩ | ⟨page, supply, hfree, hsupply, rfl, rfl⟩
  . exact ⟨Grows.refl h, t', rfl, hnext⟩
  . refine ⟨h.grows_link hsupply hreaches hinner hfree, _, rfl, ?_⟩
    unfold Shape.link
    dsimp only
    rw [store_self]
    exact next_table (h.page page (by simp [hsupply]))

theorem get_next_level_follow (path : List (BitVec 9)) {top_level t : Addr} {idx : BitVec 9}
    {res : Option Addr} (h : Good shape vm) (htop : shape.roots top_level)
    (hpath : shape.Path (path ++ [idx])) (hfollow : follow next vm.mem top_level path = some t)
    (hres : get_next_level vm t idx true = some (res, vm'))
    : Grows shape vm vm' ∧
        ∃ t', res = some t' ∧ follow next vm'.mem top_level (path ++ [idx]) = some t' := by
  have hinner : path.length < shape.depth := by
    have := hpath.1
    simp only [List.length_append, List.length_singleton] at this
    omega
  obtain ⟨hgrows, t', ht', hnext⟩ :=
    get_next_level_grows h ⟨hpath.of_concat, top_level, htop, hfollow⟩ hinner hres
  refine ⟨hgrows, t', ht', ?_⟩
  rw [follow_concat_eq_some_iff]
  exact ⟨t, hgrows.mem.follow_eq_some htop hpath.of_concat hfollow, hnext⟩

theorem get_next_level_isSome (vm : Vm) (t : Addr) (idx : BitVec 9) (h : 1 ≤ vm.supply.length)
    : ∃ res vm', get_next_level vm t idx true = some (res, vm') ∧
        vm.supply.length ≤ vm'.supply.length + 1 := by
  cases hnext : next (vm.mem t idx) with
  | some t' => exact ⟨_, _, get_next_level_of_some true hnext, by omega⟩
  | none =>
    cases hsupply : vm.supply with
    | nil => simp [hsupply] at h
    | cons page supply => exact ⟨_, _, get_next_level_of_none hnext hsupply, Nat.le_refl _⟩

def levels (vaddr : BitVec 64) : List (BitVec 9) :=
  [index vaddr 39, index vaddr 30, index vaddr 21]

/--
The four-level walk: the entry of `vaddr`, zero if one of the tables on the way is missing.
-/
def walk (mem : Mem) (top_level : Addr) (vaddr : BitVec 64) : BitVec 64 :=
  leaf next 0#64 mem top_level (levels vaddr) (index vaddr 12)

theorem path_levels (roots : Addr → Prop) {valid : BitVec 9 → Prop} {vaddr : BitVec 64}
    (h : valid (index vaddr 39)) : (tables roots valid).Path (levels vaddr) := by
  refine ⟨by simp [tables, levels], ?_⟩
  intro i hi
  simp only [levels, List.head?_cons, Option.some.injEq] at hi
  exact hi ▸ h

section Shape

variable {roots : Addr → Prop} {valid : BitVec 9 → Prop} {top_level : Addr} {vaddr : BitVec 64}

structure Descent (roots : Addr → Prop) (valid : BitVec 9 → Prop) (top_level : Addr) (vaddr : BitVec 64)
    (vm vm₁ vm₂ vm' : Vm) (pml3 pml2 pml1 : Addr) : Prop where
  level₁ : get_next_level vm top_level (index vaddr 39) true = some (some pml3, vm₁)
  level₂ : get_next_level vm₁ pml3 (index vaddr 30) true = some (some pml2, vm₂)
  level₃ : get_next_level vm₂ pml2 (index vaddr 21) true = some (some pml1, vm')
  grows₁ : Grows (tables roots valid) vm vm₁
  grows₂ : Grows (tables roots valid) vm₁ vm₂
  grows₃ : Grows (tables roots valid) vm₂ vm'
  reaches₁ : (tables roots valid).Reaches next vm.mem [] top_level
  reaches₂ : (tables roots valid).Reaches next vm₁.mem [index vaddr 39] pml3
  reaches₃ : (tables roots valid).Reaches next vm₂.mem [index vaddr 39, index vaddr 30] pml2
  follow : follow next vm'.mem top_level (levels vaddr) = some pml1

theorem va2pte_descent {t : Addr} {idx : BitVec 9} (h : Good (tables roots valid) vm)
    (htop : roots top_level) (hvalid : valid (index vaddr 39))
    (hres : va2pte vm top_level vaddr true = some ((t, idx), vm'))
    : idx = index vaddr 12 ∧
        ∃ vm₁ vm₂ pml3 pml2, Descent roots valid top_level vaddr vm vm₁ vm₂ vm' pml3 pml2 t := by
  have hpath₃ := path_levels roots hvalid
  have hpath₂ : (tables roots valid).Path [index vaddr 39, index vaddr 30] := hpath₃.of_concat
  have hpath₁ : (tables roots valid).Path [index vaddr 39] := hpath₂.of_concat
  unfold va2pte at hres
  dsimp at hres
  split at hres
  . next pml3 vm₁ h₁ =>
    obtain ⟨hgrows₁, _, heq₁, hfollow₁⟩ := get_next_level_follow [] h htop hpath₁ rfl h₁
    cases heq₁
    split at hres
    . next pml2 vm₂ h₂ =>
      obtain ⟨hgrows₂, _, heq₂, hfollow₂⟩ :=
        get_next_level_follow [index vaddr 39] hgrows₁.good htop hpath₂ hfollow₁ h₂
      cases heq₂
      split at hres
      . next pml1 vm₃ h₃ =>
        obtain ⟨hgrows₃, _, heq₃, hfollow₃⟩ := get_next_level_follow
          [index vaddr 39, index vaddr 30] hgrows₂.good htop hpath₃ hfollow₂ h₃
        cases heq₃
        simp only [Option.some.injEq, Prod.mk.injEq] at hres
        obtain ⟨⟨rfl, rfl⟩, rfl⟩ := hres
        exact ⟨rfl, vm₁, vm₂, pml3, pml2, h₁, h₂, h₃, hgrows₁, hgrows₂, hgrows₃, Shape.Reaches.root htop,
          ⟨hpath₁, top_level, htop, hfollow₁⟩, ⟨hpath₂, top_level, htop, hfollow₂⟩, hfollow₃⟩
      . contradiction
    . contradiction
  . contradiction

theorem va2pte_suffix {pte : Addr × BitVec 9} (hres : va2pte vm top_level vaddr true = some (pte, vm'))
    : vm'.supply <:+ vm.supply := by
  unfold va2pte at hres
  dsimp only at hres
  split at hres
  . next h₁ =>
    split at hres
    . next h₂ =>
      split at hres
      . next h₃ =>
        rw [← (Prod.mk.inj (Option.some.inj hres)).2]
        exact ((get_next_level_suffix h₃).trans (get_next_level_suffix h₂)).trans (get_next_level_suffix h₁)
      . contradiction
    . contradiction
  . contradiction

theorem va2pte_grows {t : Addr} {idx : BitVec 9} (h : Good (tables roots valid) vm)
    (htop : roots top_level) (hvalid : valid (index vaddr 39))
    (hres : va2pte vm top_level vaddr true = some ((t, idx), vm'))
    : Grows (tables roots valid) vm vm' ∧ idx = index vaddr 12 ∧
        follow next vm'.mem top_level (levels vaddr) = some t := by
  rcases va2pte_descent h htop hvalid hres with ⟨hidx, vm₁, vm₂, pml3, pml2, hd⟩
  exact ⟨(hd.grows₁.trans hd.grows₂).trans hd.grows₃, hidx, hd.follow⟩

theorem va2pte_isSome (h : Good (tables roots valid) vm) (htop : roots top_level)
    (hvalid : valid (index vaddr 39)) (hsupply : 3 ≤ vm.supply.length)
    : ∃ pte vm', va2pte vm top_level vaddr true = some (pte, vm') ∧
        vm.supply.length ≤ vm'.supply.length + 3 := by
  have hpath₃ := path_levels roots hvalid
  have hpath₂ : (tables roots valid).Path [index vaddr 39, index vaddr 30] := hpath₃.of_concat
  have hpath₁ : (tables roots valid).Path [index vaddr 39] := hpath₂.of_concat
  obtain ⟨_, vm₁, h₁, hsupply₁⟩ :=
    get_next_level_isSome vm top_level (index vaddr 39) (by omega)
  obtain ⟨hgrows₁, pml3, rfl, hfollow₁⟩ := get_next_level_follow [] h htop hpath₁ rfl h₁
  obtain ⟨_, vm₂, h₂, hsupply₂⟩ :=
    get_next_level_isSome vm₁ pml3 (index vaddr 30) (by omega)
  obtain ⟨hgrows₂, pml2, rfl, hfollow₂⟩ :=
    get_next_level_follow [index vaddr 39] hgrows₁.good htop hpath₂ hfollow₁ h₂
  obtain ⟨_, vm₃, h₃, hsupply₃⟩ :=
    get_next_level_isSome vm₂ pml2 (index vaddr 21) (by omega)
  obtain ⟨_, pml1, rfl, _⟩ := get_next_level_follow
    [index vaddr 39, index vaddr 30] hgrows₂.good htop hpath₃ hfollow₂ h₃
  refine ⟨(pml1, index vaddr 12), vm₃, ?_, by omega⟩
  simp only [va2pte, h₁, h₂, h₃]

end Shape

end Vmm
end Franklin
