import Franklin.Vmm.Lemmas.Confined
import Franklin.Vmm.Lemmas.InitVm

/-!
This module contains that `init_vm` writes to nothing but the pages that it takes for tables.
-/

open Radix

namespace Franklin
namespace Vmm

namespace init_vm

variable {vm vm' : Vm} {top_level : Addr}

theorem mapHigherHalf_confined {i : BitVec 9} {n : Nat} (h : Good (single top_level) vm)
    (hres : mapHigherHalf vm top_level i n = some vm')
    : Good (single top_level) vm' ∧ Confined (single top_level) vm vm' := by
  induction n generalizing vm i with
  | zero =>
    cases hres
    exact ⟨h, Confined.refl _⟩
  | succ n ih =>
    unfold mapHigherHalf at hres
    split at hres
    . contradiction
    . next res vm₁ hlevel =>
      have hroot : (single top_level).Reaches next vm.mem [] top_level := Shape.Reaches.root rfl
      have hinner : ([] : List (BitVec 9)).length < (single top_level).depth := by simp [single, tables]
      have hgrows := (get_next_level_grows h hroot hinner hlevel).1
      have hconf := get_next_level_confined h hroot hinner (fun _ => trivial) hlevel
      rcases ih hgrows.good hres with ⟨hgood', hconf'⟩
      exact ⟨hgood', hconf.trans hconf'⟩

theorem mapSegment_confined {image : KernelImage} {flags vaddr : BitVec 64} {n : Nat} (h : Good (single top_level) vm)
    (hres : mapSegment vm top_level image flags vaddr n = some vm')
    : Good (single top_level) vm' ∧ Confined (single top_level) vm vm' := by
  induction n generalizing vm vaddr with
  | zero =>
    cases hres
    exact ⟨h, Confined.refl _⟩
  | succ n ih =>
    unfold mapSegment at hres
    dsimp only at hres
    split at hres
    . contradiction
    . next res vm₁ hmap =>
      rcases ih (mappage2_good h rfl trivial hmap) hres with ⟨hgood', hconf'⟩
      exact ⟨hgood', (mappage2_confined h rfl trivial hmap).trans hconf'⟩

theorem mapLowerHalf_confined {vaddr : BitVec 64} {n : Nat} (h : Good (single top_level) vm)
    (hres : mapLowerHalf vm top_level vaddr n = some vm')
    : Good (single top_level) vm' ∧ Confined (single top_level) vm vm' := by
  induction n generalizing vm vaddr with
  | zero =>
    cases hres
    exact ⟨h, Confined.refl _⟩
  | succ n ih =>
    unfold mapLowerHalf at hres
    split at hres
    . contradiction
    . next res₁ vm₁ hlow =>
      split at hres
      . contradiction
      . next res₂ vm₂ hhigh =>
        have hgood := mappage2_good h rfl trivial hlow
        rcases ih (mappage2_good hgood rfl trivial hhigh) hres with ⟨hgood', hconf'⟩
        have hconf := (mappage2_confined h rfl trivial hlow).trans (mappage2_confined hgood rfl trivial hhigh)
        exact ⟨hgood', hconf.trans hconf'⟩

end init_vm

theorem init_vm_confined {vm vm' : Vm} {image : KernelImage} {top_level : Addr} (hnodup : vm.supply.Nodup)
    (hpage : ∀ p ∈ vm.supply, PTE_GET_ADDR p = p) (hres : init_vm vm image = some (top_level, vm'))
    : ∃ page supply, vm.supply = page :: supply ∧ top_level = P2V page ∧
        Good (single top_level) ⟨fill vm.mem top_level 0#64, supply⟩ ∧
        Confined (single top_level) ⟨fill vm.mem top_level 0#64, supply⟩ vm' := by
  unfold init_vm at hres
  obtain ⟨⟨page, vm₀⟩, h₀, hres⟩ := Option.bind_eq_some_iff.mp hres
  obtain ⟨vm₁, h₁, hres⟩ := Option.bind_eq_some_iff.mp hres
  obtain ⟨vm₂, h₂, hres⟩ := Option.bind_eq_some_iff.mp hres
  obtain ⟨vm₃, h₃, hres⟩ := Option.bind_eq_some_iff.mp hres
  obtain ⟨vm₄, h₄, hres⟩ := Option.bind_eq_some_iff.mp hres
  obtain ⟨vm₅, h₅, hres⟩ := Option.bind_eq_some_iff.mp hres
  obtain ⟨rfl, rfl⟩ := Prod.mk.inj (Option.some.inj hres)
  have hgood₀ := init_vm.good_of_palloc hnodup hpage h₀
  rcases init_vm.mapHigherHalf_confined hgood₀ h₁ with ⟨hgood₁, hconf₁⟩
  rcases init_vm.mapSegment_confined hgood₁ h₂ with ⟨hgood₂, hconf₂⟩
  rcases init_vm.mapSegment_confined hgood₂ h₃ with ⟨hgood₃, hconf₃⟩
  rcases init_vm.mapSegment_confined hgood₃ h₄ with ⟨hgood₄, hconf₄⟩
  rcases init_vm.mapLowerHalf_confined hgood₄ h₅ with ⟨_, hconf₅⟩
  have hconf := hconf₁.trans (hconf₂.trans (hconf₃.trans (hconf₄.trans hconf₅)))
  unfold palloc at h₀
  cases hsupply : vm.supply with
  | nil =>
    rw [hsupply] at h₀
    cases h₀
  | cons page' supply =>
    rw [hsupply] at h₀
    rcases Prod.mk.inj (Option.some.inj h₀) with ⟨rfl, rfl⟩
    exact ⟨page', supply, rfl, rfl, hgood₀, hconf⟩

theorem init_vm_kept {vm vm' : Vm} {image : KernelImage} {top_level : Addr} (hnodup : vm.supply.Nodup)
    (hpage : ∀ p ∈ vm.supply, PTE_GET_ADDR p = p) (hres : init_vm vm image = some (top_level, vm')) {p : Addr}
    (hp : p ∈ vm'.supply) : p ∈ vm.supply ∧ vm'.mem (P2V p) = vm.mem (P2V p) := by
  rcases init_vm_confined hnodup hpage hres with ⟨page, supply, hsupply, htop, hgood₀, hconf⟩
  have hin : p ∈ supply := hconf.subset hp
  rw [hsupply, List.nodup_cons] at hnodup
  have hne : P2V p ≠ top_level := by
    rw [htop]
    intro heq
    rw [P2V_inj heq] at hin
    exact hnodup.1 hin
  constructor
  . rw [hsupply]
    exact List.mem_cons_of_mem _ hin
  . funext i
    have htable : ¬ Word (single top_level) (fill vm.mem top_level 0#64) (P2V p) i := by
      rintro ⟨path, hreaches, _⟩
      exact hgood₀.fresh p hin path hreaches
    have hmem := hconf.mem (P2V p) i htable (by
      rintro ⟨p', _, hnot, heq⟩
      rw [P2V_inj heq] at hp
      exact hnot hp)
    dsimp only at hmem
    rw [hmem, fill_of_ne hne]

end Vmm
end Franklin
