import Franklin.Vmm.Lemmas.Confined

/-!
This module contains that a mapping does the same in two memories that agree on the tables.
-/

open Radix

namespace Franklin
namespace Vmm

structure Twin (shape : Shape Addr (BitVec 9)) (vm vm' : Vm) : Prop where
  supply : vm'.supply = vm.supply
  agree : Agree shape vm.mem vm'.mem

section Link

variable {mem mem' : Mem} {t u z : Addr} {idx : BitVec 9} {w : BitVec 64}

theorem store_congr (h : mem' u = mem u) : store mem' t idx w u = store mem t idx w u := by
  funext i
  by_cases heq : u = t ∧ i = idx
  . rw [heq.1, heq.2, store_self, store_self]
  . rw [store_of_ne heq, store_of_ne heq, h]

theorem link_congr (h : u ≠ z → mem' u = mem u)
    : Shape.link mem' t idx z 0#64 w u = Shape.link mem t idx z 0#64 w u := by
  unfold Shape.link
  apply store_congr
  by_cases heq : u = z
  . funext i
    rw [heq, fill_self, fill_self]
  . rw [fill_of_ne heq, fill_of_ne heq]
    exact h heq

end Link

variable {shape : Shape Addr (BitVec 9)} {vm vm' vm₁ : Vm}

theorem get_next_level_twin {path : List (BitVec 9)} {t : Addr} {idx : BitVec 9} {res : Option Addr}
    (h : Good shape vm) (htwin : Twin shape vm vm') (hreaches : shape.Reaches next vm.mem path t)
    (hinner : path.length < shape.depth) (hvalid : path = [] → shape.valid idx)
    (hres : get_next_level vm t idx true = some (res, vm₁))
    : ∃ vm₁', get_next_level vm' t idx true = some (res, vm₁') ∧ Twin shape vm₁ vm₁' := by
  have hconf := get_next_level_confined h hreaches hinner hvalid hres
  have hword : vm'.mem t = vm.mem t := htwin.agree path t hreaches
  rcases get_next_level_cases hres with ⟨t', hnext, rfl, rfl⟩ | ⟨page, supply, hfree, hsupply, rfl, rfl⟩
  . rw [← hword] at hnext
    exact ⟨vm', get_next_level_of_some true hnext, htwin⟩
  . rw [← hword] at hfree
    have hsupply' := htwin.supply
    rw [hsupply] at hsupply'
    refine ⟨_, get_next_level_of_none hfree hsupply', rfl, ?_⟩
    intro path' u hreaches'
    apply link_congr
    intro hne
    rcases hconf.reaches path' u hreaches' with hold | ⟨page', hmem', hnot', rfl⟩
    . exact htwin.agree path' u hold
    . -- The page that was taken is the new table.
      rw [hsupply, List.mem_cons] at hmem'
      rcases hmem' with rfl | hmem'
      . exact absurd rfl hne
      . exact absurd hmem' hnot'

section Mappage

variable {roots : Addr → Prop} {valid : BitVec 9 → Prop} {top_level : Addr} {vaddr paddr flags : BitVec 64}
  {res : Int}

theorem va2pte_twin {t : Addr} {idx : BitVec 9} (h : Good (tables roots valid) vm)
    (htwin : Twin (tables roots valid) vm vm') (htop : roots top_level) (hvalid : valid (index vaddr 39))
    (hres : va2pte vm top_level vaddr true = some ((t, idx), vm₁))
    : ∃ vm₁', va2pte vm' top_level vaddr true = some ((t, idx), vm₁') ∧ Twin (tables roots valid) vm₁ vm₁' := by
  rcases va2pte_descent h htop hvalid hres with ⟨rfl, vm₁, vm₂, pml3, pml2, hd⟩
  rcases get_next_level_twin h htwin hd.reaches₁ (by simp [tables]) (fun _ => hvalid) hd.level₁ with
    ⟨vm₁', h₁', htwin₁⟩
  rcases get_next_level_twin hd.grows₁.good htwin₁ hd.reaches₂ (by simp [tables]) (by simp) hd.level₂ with
    ⟨vm₂', h₂', htwin₂⟩
  rcases get_next_level_twin hd.grows₂.good htwin₂ hd.reaches₃ (by simp [tables]) (by simp) hd.level₃ with
    ⟨vm₃', h₃', htwin₃⟩
  refine ⟨vm₃', ?_, htwin₃⟩
  unfold va2pte
  dsimp only
  rw [h₁']
  dsimp only
  rw [h₂']
  dsimp only
  rw [h₃']

theorem mappage2_twin (h : Good (tables roots valid) vm) (htwin : Twin (tables roots valid) vm vm')
    (htop : roots top_level) (hvalid : valid (index vaddr 39))
    (hres : mappage2 vm top_level vaddr paddr flags = some (res, vm₁))
    : ∃ vm₁', mappage2 vm' top_level vaddr paddr flags = some (res, vm₁') ∧ Twin (tables roots valid) vm₁ vm₁' := by
  unfold mappage2 at hres ⊢
  split at hres
  . contradiction
  . next pml1 idx vm₂ hpte =>
    obtain ⟨hgrows, _, hfollow⟩ := va2pte_grows h htop hvalid hpte
    rcases va2pte_twin h htwin htop hvalid hpte with ⟨vm₂', hpte', htwin₂⟩
    have hreaches : (tables roots valid).Reaches next vm₂.mem (levels vaddr) pml1 :=
      ⟨path_levels roots hvalid, top_level, htop, hfollow⟩
    rw [hpte']
    dsimp only
    rw [htwin₂.agree _ _ hreaches]
    split at hres
    . next hpresent =>
      rcases Prod.mk.inj (Option.some.inj hres) with ⟨rfl, rfl⟩
      rw [if_pos hpresent]
      exact ⟨vm₂', rfl, htwin₂⟩
    . next habsent =>
      rcases Prod.mk.inj (Option.some.inj hres) with ⟨rfl, rfl⟩
      rw [if_neg habsent]
      refine ⟨_, rfl, htwin₂.supply, ?_⟩
      intro path t hreaches'
      dsimp only at hreaches' ⊢
      rw [hgrows.good.forest.reaches_store hreaches rfl] at hreaches'
      apply store_congr
      exact htwin₂.agree path t hreaches'

end Mappage

theorem mappages.go_twin {top_level : Addr} {vaddr paddr flags i : BitVec 64} {n : Nat}
    (h : Good (single top_level) vm) (htwin : Twin (single top_level) vm vm')
    (hres : go vm top_level vaddr paddr flags i n = some vm₁)
    : ∃ vm₁', go vm' top_level vaddr paddr flags i n = some vm₁' ∧ Twin (single top_level) vm₁ vm₁' := by
  induction n generalizing vm vm' i with
  | zero =>
    rw [← Option.some.inj hres]
    exact ⟨vm', rfl, htwin⟩
  | succ n ih =>
    unfold go at hres ⊢
    dsimp only at hres ⊢
    split at hres
    . contradiction
    . next res vm₂ hmap =>
      rcases mappage2_twin h htwin rfl trivial hmap with ⟨vm₂', hmap', htwin₂⟩
      have hgood := mappage2_good h rfl trivial hmap
      rw [hmap']
      exact ih hgood htwin₂ hres

end Vmm
end Franklin
