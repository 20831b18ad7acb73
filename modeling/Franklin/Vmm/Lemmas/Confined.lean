import Franklin.Vmm.Lemmas.Mappages

/-!
This module contains that a mapping writes to nothing but the tables of the address space and the pages that it takes
for new ones.
-/

open Radix

namespace Franklin
namespace Vmm

theorem Good.mono {shape : Shape Addr (BitVec 9)} {vm vm' : Vm} (h : Good shape vm) (hmem : vm'.mem = vm.mem)
    (hnodup : vm'.supply.Nodup)
    (hsubset : ∀ page ∈ vm'.supply, page ∈ vm.supply) : Good shape vm' where
  forest := by
    rw [hmem]
    exact h.forest
  nodup := hnodup
  page page hpage := h.page page (hsubset page hpage)
  fresh page hpage := by
    rw [hmem]
    exact h.fresh page (hsubset page hpage)

def Word (shape : Shape Addr (BitVec 9)) (mem : Mem) (t : Addr) (i : BitVec 9) : Prop :=
  ∃ path, shape.Reaches next mem path t ∧ (path = [] → shape.valid i)

def Used (vm vm' : Vm) (t : Addr) : Prop :=
  ∃ page ∈ vm.supply, page ∉ vm'.supply ∧ t = P2V page

structure Confined (shape : Shape Addr (BitVec 9)) (vm vm' : Vm) : Prop where
  supply : ∃ used, vm.supply = used ++ vm'.supply
  grows : shape.Extends next vm.mem vm'.mem
  used : ∀ t, Used vm vm' t → ∃ path, shape.Reaches next vm'.mem path t
  reaches : ∀ path t, shape.Reaches next vm'.mem path t → shape.Reaches next vm.mem path t ∨ Used vm vm' t
  mem : ∀ t i, ¬ Word shape vm.mem t i → ¬ Used vm vm' t → vm'.mem t i = vm.mem t i

section Confined

variable {shape : Shape Addr (BitVec 9)} {vm vm' vm'' : Vm}

theorem Confined.refl (vm : Vm) : Confined shape vm vm where
  supply := ⟨[], rfl⟩
  grows := Shape.Extends.refl vm.mem
  used := by
    rintro t ⟨page, hmem, hnot, _⟩
    exact absurd hmem hnot
  reaches _ _ h := Or.inl h
  mem _ _ _ _ := rfl

theorem Confined.subset (h : Confined shape vm vm') {page : Addr} (hpage : page ∈ vm'.supply) : page ∈ vm.supply := by
  rcases h.supply with ⟨used, hused⟩
  rw [hused]
  exact List.mem_append_right used hpage

theorem Confined.trans (h : Confined shape vm vm') (h' : Confined shape vm' vm'') : Confined shape vm vm'' := by
  have hfirst : ∀ t, Used vm vm' t → Used vm vm'' t := by
    rintro t ⟨page, hmem, hnot, ht⟩
    exact ⟨page, hmem, fun hpage => hnot (h'.subset hpage), ht⟩
  have hsecond : ∀ t, Used vm' vm'' t → Used vm vm'' t := by
    rintro t ⟨page, hmem, hnot, ht⟩
    exact ⟨page, h.subset hmem, hnot, ht⟩
  constructor
  . rcases h.supply with ⟨used, hused⟩
    rcases h'.supply with ⟨used', hused'⟩
    refine ⟨used ++ used', ?_⟩
    rw [hused, hused', List.append_assoc]
  . exact h.grows.trans h'.grows
  . rintro t ⟨page, hmem, hnot, ht⟩
    by_cases hpage : page ∈ vm'.supply
    . exact h'.used t ⟨page, hpage, hnot, ht⟩
    . rcases h.used t ⟨page, hmem, hpage, ht⟩ with ⟨path, hreaches⟩
      exact ⟨path, h'.grows.reaches hreaches⟩
  . intro path t hreaches
    rcases h'.reaches path t hreaches with hold | hused
    . exact (h.reaches path t hold).imp_right (hfirst t)
    . exact Or.inr (hsecond t hused)
  . intro t i hword hused
    have hword' : ¬ Word shape vm'.mem t i := by
      rintro ⟨path, hreaches, hvalid⟩
      rcases h.reaches path t hreaches with hold | hnew
      . exact hword ⟨path, hold, hvalid⟩
      . exact hused (hfirst t hnew)
    rw [h'.mem t i hword' (fun hnew => hused (hsecond t hnew)),
      h.mem t i hword (fun hnew => hused (hfirst t hnew))]

theorem Reaches.concat {mem : Mem} {path : List (BitVec 9)} {t t' : Addr} {idx : BitVec 9}
    (h : shape.Reaches next mem path t) (hinner : path.length < shape.depth) (hvalid : path = [] → shape.valid idx)
    (hnext : next (mem t idx) = some t') : shape.Reaches next mem (path ++ [idx]) t' := by
  rcases h with ⟨hpath, root, hroot, hfollow⟩
  refine ⟨⟨?_, ?_⟩, root, hroot, ?_⟩
  . rw [List.length_append, List.length_singleton]
    omega
  . intro i hi
    cases path with
    | nil =>
      rw [← Option.some.inj hi]
      exact hvalid rfl
    | cons j path => exact hpath.2 i hi
  . rw [follow_concat_eq_some_iff]
    exact ⟨t, hfollow, hnext⟩

theorem get_next_level_confined {path : List (BitVec 9)} {t : Addr} {idx : BitVec 9} {res : Option Addr}
    (h : Good shape vm) (hreaches : shape.Reaches next vm.mem path t) (hinner : path.length < shape.depth)
    (hvalid : path = [] → shape.valid idx) (hres : get_next_level vm t idx true = some (res, vm'))
    : Confined shape vm vm' := by
  have hgrows := get_next_level_grows h hreaches hinner hres
  rcases get_next_level_cases hres with ⟨t', _, rfl, rfl⟩ | ⟨page, supply, hfree, hsupply, rfl, rfl⟩
  . exact Confined.refl vm'
  . have hmem : page ∈ vm.supply := by
      rw [hsupply]
      exact List.mem_cons_self
    have hnodup := h.nodup
    rw [hsupply, List.nodup_cons] at hnodup
    have hlink := h.canLink hmem hreaches hinner hfree
    have hused : Used vm ⟨Shape.link vm.mem t idx (P2V page) 0#64
        (page ||| PTE_PRESENT ||| PTE_RW ||| PTE_USER), supply⟩ (P2V page) :=
      ⟨page, hmem, hnodup.1, rfl⟩
    constructor
    . refine ⟨[page], ?_⟩
      rw [hsupply]
      rfl
    . exact hgrows.1.mem
    . rintro t' ⟨page', hmem', hnot', rfl⟩
      have hpage : page' = page := by
        rw [hsupply, List.mem_cons] at hmem'
        exact hmem'.resolve_right hnot'
      rw [hpage]
      rcases hgrows with ⟨hgrows, t'', ht'', hnext⟩
      rw [← Option.some.inj ht''] at hnext
      exact ⟨path ++ [idx], Reaches.concat (hgrows.mem.reaches hreaches) hinner hvalid hnext⟩
    . intro path' t' hreaches'
      rcases hlink.reaches_link hreaches' with hold | hnew
      . exact Or.inl hold
      . rw [hnew.2]
        exact Or.inr hused
    . intro t' i hword hnot
      apply Shape.link_of_ne
      . intro heq
        rw [heq] at hnot
        exact hnot hused
      . rintro ⟨rfl, rfl⟩
        exact hword ⟨path, hreaches, hvalid⟩

end Confined

section Agree

variable {shape : Shape Addr (BitVec 9)} {mem mem' : Mem} {path : List (BitVec 9)} {t : Addr}

def Agree (shape : Shape Addr (BitVec 9)) (mem mem' : Mem) : Prop :=
  ∀ path t, shape.Reaches next mem path t → mem' t = mem t

theorem Agree.reaches_iff (h : Agree shape mem mem')
    : shape.Reaches next mem' path t ↔ shape.Reaches next mem path t := by
  unfold Shape.Reaches
  apply and_congr_right
  intro hpath
  apply exists_congr
  intro root
  apply and_congr_right
  intro hroot
  rw [Shape.follow_eq_of_agree h hroot hpath]

theorem Agree.good {supply : List Addr} (h : Agree shape mem mem') (hgood : Good shape ⟨mem, supply⟩)
    : Good shape ⟨mem', supply⟩ where
  forest := by
    intro path path' t hpath hpath'
    exact hgood.forest path path' t (h.reaches_iff.mp hpath) (h.reaches_iff.mp hpath')
  nodup := hgood.nodup
  page := hgood.page
  fresh := by
    intro page hpage path hreaches
    exact hgood.fresh page hpage path (h.reaches_iff.mp hreaches)

theorem Agree.grows (h : Agree shape mem mem') : shape.Extends next mem mem' := by
  intro path t i hreaches _ _
  rw [h path t hreaches]

theorem Agree.walk_same {top_level : Addr} (h : Agree (single top_level) mem mem') (vaddr : BitVec 64)
    : walk mem' top_level vaddr = walk mem top_level vaddr := by
  have hpath : (single top_level).Path (levels vaddr) := path_levels _ trivial
  unfold walk leaf
  rw [Shape.follow_eq_of_agree h rfl hpath]
  cases hfollow : follow next mem top_level (levels vaddr) with
  | none => rfl
  | some t =>
    dsimp only
    rw [h (levels vaddr) t ⟨hpath, top_level, rfl, hfollow⟩]

end Agree

section Mappage

variable {roots : Addr → Prop} {valid : BitVec 9 → Prop} {vm vm' : Vm} {top_level : Addr}
variable {vaddr paddr flags : BitVec 64} {res : Int}

theorem va2pte_confined {t : Addr} {idx : BitVec 9} (h : Good (tables roots valid) vm) (htop : roots top_level)
    (hvalid : valid (index vaddr 39)) (hres : va2pte vm top_level vaddr true = some ((t, idx), vm'))
    : Confined (tables roots valid) vm vm' := by
  rcases va2pte_descent h htop hvalid hres with ⟨_, vm₁, vm₂, pml3, pml2, hd⟩
  have hconf₁ := get_next_level_confined h hd.reaches₁ (by simp [tables]) (fun _ => hvalid) hd.level₁
  have hconf₂ := get_next_level_confined hd.grows₁.good hd.reaches₂ (by simp [tables]) (by simp) hd.level₂
  have hconf₃ := get_next_level_confined hd.grows₂.good hd.reaches₃ (by simp [tables]) (by simp) hd.level₃
  exact (hconf₁.trans hconf₂).trans hconf₃

theorem mappage2_confined (h : Good (tables roots valid) vm) (htop : roots top_level)
    (hvalid : valid (index vaddr 39)) (hres : mappage2 vm top_level vaddr paddr flags = some (res, vm'))
    : Confined (tables roots valid) vm vm' := by
  unfold mappage2 at hres
  split at hres
  . contradiction
  . next pml1 idx vm₁ hpte =>
    have hconf := va2pte_confined h htop hvalid hpte
    obtain ⟨hgrows, _, hfollow⟩ := va2pte_grows h htop hvalid hpte
    have hreaches : (tables roots valid).Reaches next vm₁.mem (levels vaddr) pml1 :=
      ⟨path_levels roots hvalid, top_level, htop, hfollow⟩
    split at hres
    . rw [← (Prod.mk.inj (Option.some.inj hres)).2]
      exact hconf
    . rw [← (Prod.mk.inj (Option.some.inj hres)).2]
      apply hconf.trans
      constructor
      . exact ⟨[], rfl⟩
      . exact hgrows.good.forest.extends_store hreaches rfl _ _
      . rintro t ⟨page, hmem, hnot, _⟩
        exact absurd hmem hnot
      . intro path t hreaches'
        rw [hgrows.good.forest.reaches_store hreaches rfl] at hreaches'
        exact Or.inl hreaches'
      . intro t i hword _
        apply store_of_ne
        rintro ⟨rfl, rfl⟩
        exact hword ⟨levels vaddr, hreaches, by simp [levels]⟩

theorem mappage2_good (h : Good (tables roots valid) vm) (htop : roots top_level)
    (hvalid : valid (index vaddr 39)) (hres : mappage2 vm top_level vaddr paddr flags = some (res, vm'))
    : Good (tables roots valid) vm' := by
  rcases mappage2_cases h htop hvalid hres with ⟨_, _, hgrows⟩ | ⟨_, _, hgood, _⟩
  . exact hgrows.good
  . exact hgood

end Mappage

theorem mappages.go_confined {vm vm' : Vm} {top_level : Addr} {vaddr paddr flags i : BitVec 64} {n : Nat}
    (h : Good (single top_level) vm) (hres : go vm top_level vaddr paddr flags i n = some vm')
    : Good (single top_level) vm' ∧ Confined (single top_level) vm vm' := by
  induction n generalizing vm i with
  | zero =>
    rw [← Option.some.inj hres]
    exact ⟨h, Confined.refl vm⟩
  | succ n ih =>
    unfold go at hres
    dsimp only at hres
    split at hres
    . contradiction
    . next res vm₁ hmap =>
      have hgood := mappage2_good h rfl trivial hmap
      have hconf := mappage2_confined h rfl trivial hmap
      rcases ih hgood hres with ⟨hgood', hconf'⟩
      exact ⟨hgood', hconf.trans hconf'⟩

theorem mappages.go_length {vm : Vm} {top_level : Addr} {i : BitVec 64} {n : Nat} (h : Good (single top_level) vm)
    (vaddr paddr flags : BitVec 64) (hsupply : 3 * n ≤ vm.supply.length)
    : ∃ vm', go vm top_level vaddr paddr flags i n = some vm' ∧ vm.supply.length ≤ vm'.supply.length + 3 * n := by
  induction n generalizing vm i with
  | zero => exact ⟨vm, rfl, by omega⟩
  | succ n ih =>
    rcases mappage2_isSome (vaddr + i * BitVec.ofNat 64 PGSIZE) (paddr + i * BitVec.ofNat 64 PGSIZE) flags h rfl
      trivial
      (by omega) with ⟨res, vm₁, hmap, hlength⟩
    have hgood := mappage2_good h rfl trivial hmap
    rcases @ih vm₁ (i + 1#64) hgood (by omega) with ⟨vm', hgo, hlength'⟩
    refine ⟨vm', ?_, by omega⟩
    unfold go
    dsimp only
    rw [hmap]
    exact hgo

end Vmm
end Franklin
