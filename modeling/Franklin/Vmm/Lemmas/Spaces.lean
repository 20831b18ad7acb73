import Franklin.Vmm.Lemmas.Mappages
import Franklin.Vmm.Lemmas.Boot
import Franklin.Vmm.Lemmas.Newvm

/-!
This module contains the address spaces that `newvm_map`, `mappage2` and `mappages` make after `init_vm` as what
they stand for: each space has a lower half of its own and all of them have the upper half of the kernel. In both
the first entry for a page stays.
-/

open Radix

namespace Franklin
namespace Vmm

structure Spaces where
  kernel : BitVec 36 → BitVec 64
  user : Addr → BitVec 36 → BitVec 64

inductive Event where
  | newvm_map (top_level : Addr)
  | mappage2 (top_level : Addr) (vaddr paddr flags : BitVec 64)
  | mappages (top_level : Addr) (vaddr paddr size flags : BitVec 64)

def Event.concerns (m : Addr) : Event → Bool
  | newvm_map top_level => top_level = m
  | mappage2 top_level _ _ _ => top_level = m
  | mappages top_level _ _ _ _ => top_level = m

namespace Spaces

def translate (s : Spaces) (m : Addr) (n : BitVec 36) : BitVec 64 :=
  if n.msb then s.kernel n else s.user m n

def newvm_map (s : Spaces) (m : Addr) : Spaces :=
  { s with user := Function.update s.user m fun _ => 0#64 }

def insert (s : Spaces) (m : Addr) (n : BitVec 36) (entry : BitVec 64) : Spaces :=
  if n.msb then
    { s with kernel := FirstWins.insert Free s.kernel n entry }
  else
    { s with user := Function.update s.user m (FirstWins.insert Free (s.user m) n entry) }

def insertAll (s : Spaces) (m : Addr) (entries : List (BitVec 36 × BitVec 64)) : Spaces :=
  entries.foldl (fun s e => s.insert m e.1 e.2) s

def step (s : Spaces) : Event → Spaces
  | .newvm_map m => s.newvm_map m
  | .mappage2 m vaddr paddr flags => s.insert m (vpn vaddr) (paddr ||| flags)
  | .mappages m vaddr paddr size flags =>
    s.insertAll m ((List.range (size.toNat / PGSIZE)).map (mappages.mapping vaddr paddr flags))

def run (s : Spaces) (events : List Event) : Spaces :=
  events.foldl step s

end Spaces

def whole (maps : List Addr) : Shape Addr (BitVec 9) :=
  tables (fun root => root ∈ maps) (fun _ => True)

/--
What is assumed of `palloc`: it returns page aligned addresses below `2 ^ 52`, none of them twice and
none that is a table of one of the spaces.
-/
structure TablePages (vm : Vm) (maps : List Addr) : Prop where
  nodup : vm.supply.Nodup
  page : ∀ page ∈ vm.supply, PTE_GET_ADDR page = page
  fresh : ∀ page ∈ vm.supply, ∀ path, ¬(whole maps).Reaches next vm.mem path (P2V page)

theorem TablePages.good {vm : Vm} {maps : List Addr} (h : TablePages vm maps)
    (hforest : (whole maps).Forest next vm.mem) : Good (whole maps) vm where
  forest := hforest
  nodup := h.nodup
  page := h.page
  fresh := h.fresh

/--
The runs after `init_vm`, `boot` is what it has left in the top level of the kernel. The page that `newvm_map`
takes has no present bit in its lower half, as `newvm_map` leaves that half as it is.
-/
inductive SpaceRun (image : KernelImage) : Mem → Addr → List Addr → (BitVec 36 → BitVec 64) → List Event → Prop where
  | init_vm {vm vm' : Vm} {kernel_top : Addr} :
    vm.supply.Nodup → (∀ page ∈ vm.supply, PTE_GET_ADDR page = page) →
    Vmm.init_vm vm image = some (kernel_top, vm') →
    SpaceRun image vm'.mem kernel_top [kernel_top] (entries vm'.mem kernel_top) []
  | newvm_map {vm vm' : Vm} {kernel_top top_level : Addr} {maps : List Addr} {boot : BitVec 36 → BitVec 64}
    {events : List Event} :
    SpaceRun image vm.mem kernel_top maps boot events → TablePages vm maps →
    Vmm.newvm_map vm kernel_top = some (top_level, vm') →
    (∀ i : BitVec 9, i.toNat < 256 → vm.mem top_level i &&& PTE_PRESENT = 0#64) →
    SpaceRun image vm'.mem kernel_top (top_level :: maps) boot (events ++ [.newvm_map top_level])
  | mappage2 {vm vm' : Vm} {kernel_top top_level : Addr} {maps : List Addr} {boot : BitVec 36 → BitVec 64}
    {events : List Event} {vaddr paddr flags : BitVec 64} {res : Int} :
    SpaceRun image vm.mem kernel_top maps boot events → TablePages vm maps → top_level ∈ maps →
    Vmm.mappage2 vm top_level vaddr paddr flags = some (res, vm') →
    SpaceRun image vm'.mem kernel_top maps boot (events ++ [.mappage2 top_level vaddr paddr flags])
  | mappages {vm vm' : Vm} {kernel_top top_level : Addr} {maps : List Addr} {boot : BitVec 36 → BitVec 64}
    {events : List Event} {vaddr paddr size flags : BitVec 64} {res : Int} :
    SpaceRun image vm.mem kernel_top maps boot events → TablePages vm maps → top_level ∈ maps →
    Vmm.mappages vm top_level vaddr paddr size flags = some (res, vm') →
    SpaceRun image vm'.mem kernel_top maps boot (events ++ [.mappages top_level vaddr paddr size flags])

structure Apart (mem : Mem) (kernel_top : Addr) (maps : List Addr) : Prop where
  forest : (whole maps).Forest next mem
  kernel_mem : kernel_top ∈ maps
  same : ∀ m ∈ maps, ∀ i : BitVec 9, 256 ≤ i.toNat → mem m i = mem kernel_top i
  present : ∀ i : BitVec 9, 256 ≤ i.toNat → next (mem kernel_top i) ≠ none
  own : ∀ m ∈ maps, ∀ m' ∈ maps, ∀ path t, path.length ≤ 3 → LowerPath path →
    follow next mem m path = some t → follow next mem m' path = some t → m = m'

section Apart

variable {vm vm' : Vm} {mem : Mem} {kernel_top top_level t : Addr} {maps : List Addr} {path : List (BitVec 9)}

theorem msb_vpn_iff {vaddr : BitVec 64} : (vpn vaddr).msb = true ↔ 256 ≤ (index vaddr 39).toNat := by
  have hmsb : (vpn vaddr).msb = (index vaddr 39).msb := by
    rw [BitVec.msb_eq_getLsbD_last, BitVec.msb_eq_getLsbD_last, getLsbD_vpn vaddr (by decide),
      getLsbD_index vaddr (by decide)]
  rw [hmsb, BitVec.msb_eq_decide, decide_eq_true_eq]

theorem whole_path (h : path.length ≤ 3) : (whole maps).Path path :=
  ⟨h, fun _ _ => trivial⟩

theorem whole_root {m : Addr} (hm : m ∈ maps) : (whole maps).Reaches next mem [] m :=
  Shape.Reaches.root hm

namespace Apart

theorem follow_upper (h : Apart mem kernel_top maps) {m : Addr} (hm : m ∈ maps) {i : BitVec 9}
    (hi : 256 ≤ i.toNat) (rest : List (BitVec 9))
    : follow next mem m (i :: rest) = follow next mem kernel_top (i :: rest) := by
  simp only [follow]
  rw [h.same m hm i hi]

theorem of_link {w : BitVec 64} {z : Addr} {i : BitVec 9} (h : Apart mem kernel_top maps)
    (hlink : Shape.CanLink next (whole maps) mem path t i z 0#64 w)
    : Apart (Shape.link mem t i z 0#64 w) kernel_top maps where
  forest := hlink.forest_link
  kernel_mem := h.kernel_mem
  same := by
    have htop : ∀ m ∈ maps, ∀ j : BitVec 9, 256 ≤ j.toNat → Shape.link mem t i z 0#64 w m j = mem m j := by
      intro m hm j hj
      apply hlink.extends_link [] m j (whole_root hm) (by simp [whole, tables])
      rw [h.same m hm j hj]
      exact h.present j hj
    intro m hm j hj
    rw [htop m hm j hj, htop kernel_top h.kernel_mem j hj, h.same m hm j hj]
  present := by
    intro j hj
    have hpresent := h.present j hj
    rwa [hlink.extends_link [] kernel_top j (whole_root h.kernel_mem) (by simp [whole, tables]) hpresent]
  own := by
    -- the table in front of the new one was there before
    have hbehind : ∀ m ∈ maps, (path ++ [i]).length ≤ 3 →
        follow next (Shape.link mem t i z 0#64 w) m (path ++ [i]) = some z → follow next mem m path = some t := by
      intro m hm hlength hfollow
      rw [follow_concat_eq_some_iff] at hfollow
      rcases hfollow with ⟨s, hs, hnext⟩
      have hpath : (whole maps).Path path := (whole_path hlength).of_concat
      rcases hlink.follow_link hm hpath hs with hold | ⟨heq, _⟩
      . by_cases hcell : s = t
        . rw [← hcell]
          exact hold
        . have hreaches : (whole maps).Reaches next mem path s := ⟨hpath, m, hm, hold⟩
          rw [Shape.link_of_ne (hlink.ne hreaches) (fun hc => hcell hc.1)] at hnext
          exfalso
          apply hlink.fresh (path ++ [i])
          exact ⟨whole_path hlength, m, hm, (follow_concat_eq_some_iff next).mpr ⟨s, hold, hnext⟩⟩
      . have := congrArg List.length heq
        simp at this
    intro m hm m' hm' path' s hlength hlower hs hs'
    have hpath : (whole maps).Path path' := whole_path hlength
    rcases hlink.follow_link hm hpath hs with hold | ⟨hnew, hz⟩
    . rcases hlink.follow_link hm' hpath hs' with hold' | ⟨_, hz'⟩
      . exact h.own m hm m' hm' path' s hlength hlower hold hold'
      . exact absurd hz' (hlink.ne ⟨hpath, m, hm, hold⟩)
    . subst hnew
      rw [hz] at hs hs'
      have hshort : path.length ≤ 3 := hpath.of_concat.1
      exact h.own m hm m' hm' path t hshort hlower.of_concat (hbehind m hm hlength hs) (hbehind m' hm' hlength hs')

theorem get_next_level {i : BitVec 9} {res : Option Addr} (h : Apart vm.mem kernel_top maps)
    (hgood : Good (whole maps) vm) (hreaches : (whole maps).Reaches next vm.mem path t) (hinner : path.length < 3)
    (hres : get_next_level vm t i true = some (res, vm')) : Apart vm'.mem kernel_top maps := by
  rcases get_next_level_cases hres with ⟨t', _, _, rfl⟩ | ⟨page, supply, hfree, hsupply, _, rfl⟩
  . exact h
  . apply h.of_link
    exact hgood.canLink (by simp [hsupply]) hreaches hinner hfree

theorem va2pte {vaddr : BitVec 64} {pml1 : Addr} {idx : BitVec 9} (h : Apart vm.mem kernel_top maps)
    (hgood : Good (whole maps) vm) (htop : top_level ∈ maps)
    (hres : va2pte vm top_level vaddr true = some ((pml1, idx), vm'))
    : Apart vm'.mem kernel_top maps ∧ Grows (whole maps) vm vm' ∧ idx = index vaddr 12 ∧
        follow next vm'.mem top_level (levels vaddr) = some pml1 := by
  rcases va2pte_descent hgood htop trivial hres with ⟨hidx, vm₁, vm₂, pml3, pml2, hd⟩
  have h₁ := h.get_next_level hgood hd.reaches₁ (by simp) hd.level₁
  have h₂ := h₁.get_next_level hd.grows₁.good hd.reaches₂ (by simp) hd.level₂
  have h₃ := h₂.get_next_level hd.grows₂.good hd.reaches₃ (by simp) hd.level₃
  exact ⟨h₃, (hd.grows₁.trans hd.grows₂).trans hd.grows₃, hidx, hd.follow⟩

theorem of_store {i : BitVec 9} {w : BitVec 64} (h : Apart mem kernel_top maps)
    (hreaches : (whole maps).Reaches next mem path t) (hleaf : path.length = 3)
    : Apart (store mem t i w) kernel_top maps := by
  have htop : ∀ m ∈ maps, ∀ j, store mem t i w m j = mem m j := by
    intro m hm j
    apply store_of_ne
    rintro ⟨rfl, _⟩
    rw [h.forest path [] m hreaches (whole_root hm)] at hleaf
    cases hleaf
  constructor
  . exact h.forest.forest_store hreaches hleaf i w
  . exact h.kernel_mem
  . intro m hm j hj
    rw [htop m hm, htop kernel_top h.kernel_mem, h.same m hm j hj]
  . intro j hj
    rw [htop kernel_top h.kernel_mem]
    exact h.present j hj
  . intro m hm m' hm' path' s hlength hlower hs hs'
    have hpath : (whole maps).Path path' := whole_path hlength
    rw [h.forest.follow_store hreaches hleaf i w hm hpath] at hs
    rw [h.forest.follow_store hreaches hleaf i w hm' hpath] at hs'
    exact h.own m hm m' hm' path' s hlength hlower hs hs'

theorem entries_upper (h : Apart mem kernel_top maps) {m : Addr} (hm : m ∈ maps) {n : BitVec 36} (hn : n.msb = true)
    : entries mem m n = entries mem kernel_top n := by
  rw [← vpn_page n, msb_vpn_iff] at hn
  unfold entries walk leaf levels
  rw [h.follow_upper hm hn]

end Apart

theorem Grows.entries_whole (h : Grows (whole maps) vm vm') {m : Addr} (hm : m ∈ maps)
    : entries vm'.mem m = entries vm.mem m := by
  funext n
  apply h.leaf m _ _ hm (whole_path (by simp [levels])) rfl

namespace Apart

section Store

variable {vaddr w : BitVec 64} (h : Apart mem kernel_top maps) (htop : top_level ∈ maps)
    (hfollow : follow next mem top_level (levels vaddr) = some t)

include h htop hfollow

omit h in
theorem reaches_levels : (whole maps).Reaches next mem (levels vaddr) t :=
  ⟨whole_path (by simp [levels]), top_level, htop, hfollow⟩

theorem entries_store_self : entries (store mem t (index vaddr 12) w) top_level (vpn vaddr) = w := by
  rw [← walk_eq_entries]
  unfold walk leaf
  rw [h.forest.follow_store (reaches_levels htop hfollow) rfl _ _ htop (whole_path (by simp [levels])), hfollow]
  apply store_self

theorem entries_store_of_ne {m : Addr} (hm : m ∈ maps) {n : BitVec 36} (hn : n ≠ vpn vaddr)
    : entries (store mem t (index vaddr 12) w) m n = entries mem m n := by
  apply h.forest.leaf_store_of_ne (reaches_levels htop hfollow) rfl w hm (whole_path (by simp [levels]))
  rintro ⟨hlevels, hindex⟩
  apply hn
  rw [← vpn_page n]
  exact vpn_eq_of_levels_eq hlevels hindex

theorem entries_store_lower {m : Addr} (hm : m ∈ maps) (hne : m ≠ top_level) (hlow : (vpn vaddr).msb = false)
    : entries (store mem t (index vaddr 12) w) m (vpn vaddr) = entries mem m (vpn vaddr) := by
  have hpath : (whole maps).Path (levels vaddr) := whole_path (by simp [levels])
  have hlower : LowerPath (levels vaddr) := by
    apply LowerPath.of_concat (i := 0#9)
    apply lowerPath_levels
    rw [← Bool.not_eq_true, msb_vpn_iff] at hlow
    omega
  rw [← walk_eq_entries, ← walk_eq_entries]
  unfold walk leaf
  rw [h.forest.follow_store (reaches_levels htop hfollow) rfl _ _ hm hpath]
  cases hother : follow next mem m (levels vaddr) with
  | none => rfl
  | some t' =>
    apply store_of_ne
    rintro ⟨rfl, _⟩
    exact hne (h.own m hm top_level htop _ _ (by simp [levels]) hlower hother hfollow)

end Store

theorem mappage2 {vaddr paddr flags : BitVec 64} {res : Int} (h : Apart vm.mem kernel_top maps)
    (hgood : Good (whole maps) vm) (htop : top_level ∈ maps)
    (hres : mappage2 vm top_level vaddr paddr flags = some (res, vm'))
    : Apart vm'.mem kernel_top maps ∧ Good (whole maps) vm' ∧
        (res = if Free (entries vm.mem top_level (vpn vaddr)) then 0 else -EINVAL) ∧
        ∀ m ∈ maps, entries vm'.mem m =
          if (vpn vaddr).msb ∨ m = top_level then
            FirstWins.insert Free (entries vm.mem m) (vpn vaddr) (paddr ||| flags)
          else
            entries vm.mem m := by
  unfold Vmm.mappage2 at hres
  split at hres
  . contradiction
  . next pml1 idx vm₁ hpte =>
    rcases h.va2pte hgood htop hpte with ⟨h₁, hgrows, rfl, hfollow⟩
    have hentry : vm₁.mem pml1 (index vaddr 12) = entries vm.mem top_level (vpn vaddr) := by
      rw [← hgrows.entries_whole htop, ← walk_eq_entries]
      unfold walk leaf
      rw [hfollow]
    have hupper : ∀ m ∈ maps, (vpn vaddr).msb = true ∨ m = top_level →
        entries vm.mem m (vpn vaddr) = entries vm.mem top_level (vpn vaddr) := by
      rintro m hm (hmsb | rfl)
      . rw [h.entries_upper hm hmsb, h.entries_upper htop hmsb]
      . rfl
    rw [hentry] at hres
    split at hres
    . next htaken =>
      rcases Prod.mk.inj (Option.some.inj hres) with ⟨rfl, rfl⟩
      have htaken : ¬ Free (entries vm.mem top_level (vpn vaddr)) := htaken
      refine ⟨h₁, hgrows.good, by rw [if_neg htaken], ?_⟩
      intro m hm
      rw [hgrows.entries_whole hm]
      split
      . next hcase =>
        rw [FirstWins.insert_of_not_free]
        rwa [hupper m hm hcase]
      . rfl
    . next hfree =>
      rcases Prod.mk.inj (Option.some.inj hres) with ⟨rfl, rfl⟩
      have hfree : Free (entries vm.mem top_level (vpn vaddr)) := not_not.mp hfree
      have hreaches := reaches_levels htop hfollow
      have hstore := @of_store vm₁.mem kernel_top pml1 maps (levels vaddr) (index vaddr 12) (paddr ||| flags) h₁
        hreaches rfl
      refine ⟨hstore, ⟨hstore.forest, hgrows.good.nodup, hgrows.good.page, ?_⟩, by rw [if_pos hfree], ?_⟩
      . intro page hpage path
        rw [h₁.forest.reaches_store hreaches rfl]
        exact hgrows.good.fresh page hpage path
      . intro m hm
        rw [← hgrows.entries_whole hm]
        have hself := h₁.entries_store_self htop hfollow (w := paddr ||| flags)
        funext n
        by_cases hn : n = vpn vaddr
        . subst hn
          split
          . next hcase =>
            rw [FirstWins.insert_self (by rwa [hgrows.entries_whole hm, hupper m hm hcase])]
            rcases hcase with hmsb | rfl
            . rw [hstore.entries_upper hm hmsb, ← hstore.entries_upper htop hmsb]
              exact hself
            . exact hself
          . next hcase =>
            rw [not_or, Bool.not_eq_true] at hcase
            exact h₁.entries_store_lower htop hfollow hm hcase.2 hcase.1
        . rw [h₁.entries_store_of_ne htop hfollow hm hn]
          split
          . rw [FirstWins.insert_of_ne hn]
          . rfl

theorem of_single (hgood : Good (single kernel_top) vm)
    (hpresent : ∀ i : BitVec 9, 256 ≤ i.toNat → next (vm.mem kernel_top i) ≠ none)
    : Apart vm.mem kernel_top [kernel_top] where
  forest := by
    have hsub : ∀ path t, (whole [kernel_top]).Reaches next vm.mem path t →
        (single kernel_top).Reaches next vm.mem path t := by
      rintro path t ⟨hpath, root, hroot, hfollow⟩
      exact ⟨hpath, root, List.mem_singleton.mp hroot, hfollow⟩
    intro path path' t hpath hpath'
    exact hgood.forest path path' t (hsub path t hpath) (hsub path' t hpath')
  kernel_mem := by simp
  same := by simp
  present := hpresent
  own := by
    intro m hm m' hm' _ _ _ _ _ _
    rw [List.mem_singleton.mp hm, List.mem_singleton.mp hm']

section CopyKernel

variable (h : Apart mem kernel_top maps) (hnew : ∀ path, ¬(whole maps).Reaches next mem path top_level)

include hnew

theorem copyKernel_of_mem {m : Addr} (hm : m ∈ maps)
    : newvm_map.copyKernel mem top_level kernel_top m = mem m := by
  apply copyKernel_of_ne
  rintro rfl
  exact hnew [] (whole_root hm)

theorem follow_copyKernel {m : Addr} (hm : m ∈ maps) (hlength : path.length ≤ 3)
    : follow next (newvm_map.copyKernel mem top_level kernel_top) m path = follow next mem m path := by
  have hpath : (whole maps).Path path := whole_path hlength
  refine Shape.follow_eq_of_agree ?_ hm hpath
  intro path' t' hreaches
  apply copyKernel_of_ne
  rintro rfl
  exact hnew path' hreaches

theorem entries_copyKernel {m : Addr} (hm : m ∈ maps)
    : entries (newvm_map.copyKernel mem top_level kernel_top) m = entries mem m := by
  funext n
  unfold entries walk leaf
  rw [follow_copyKernel hnew hm (by simp [levels])]
  split
  . rfl
  . next t' hfollow =>
    rw [copyKernel_of_ne]
    rintro rfl
    exact hnew _ ⟨whole_path (by simp [levels]), m, hm, hfollow⟩

include h

theorem follow_new (hclear : ∀ i : BitVec 9, i.toNat < 256 → mem top_level i &&& PTE_PRESENT = 0#64)
    {i : BitVec 9} (hlength : path.length ≤ 2)
    : follow next (newvm_map.copyKernel mem top_level kernel_top) top_level (i :: path) =
        if 256 ≤ i.toNat then follow next mem kernel_top (i :: path) else none := by
  split
  . next hi =>
    rw [← follow_copyKernel hnew h.kernel_mem (show (i :: path).length ≤ 3 from Nat.succ_le_succ hlength)]
    unfold follow
    rw [Shared.copyKernel_new hi, copyKernel_of_mem hnew h.kernel_mem]
  . next hi =>
    unfold follow
    rw [copyKernel_lower (by omega)]
    have hnone : next (mem top_level i) = none := by
      unfold next
      rw [if_neg (by rw [hclear i (by omega)]; simp)]
    rw [hnone]

theorem reaches_copyKernel (hclear : ∀ i : BitVec 9, i.toNat < 256 → mem top_level i &&& PTE_PRESENT = 0#64)
    {m : Addr} (hm : m ∈ top_level :: maps) (hlength : path.length ≤ 3)
    (hfollow : follow next (newvm_map.copyKernel mem top_level kernel_top) m path = some t)
    : (whole maps).Reaches next mem path t ∨ (path = [] ∧ t = top_level ∧ m = top_level) := by
  rcases List.mem_cons.mp hm with rfl | hm
  . cases path with
    | nil => exact Or.inr ⟨rfl, (Option.some.inj hfollow).symm, rfl⟩
    | cons i path =>
      rw [follow_new h hnew hclear (Nat.le_of_succ_le_succ hlength)] at hfollow
      split at hfollow
      . exact Or.inl ⟨whole_path hlength, kernel_top, h.kernel_mem, hfollow⟩
      . cases hfollow
  . rw [follow_copyKernel hnew hm hlength] at hfollow
    exact Or.inl ⟨whole_path hlength, m, hm, hfollow⟩

theorem copyKernel (hclear : ∀ i : BitVec 9, i.toNat < 256 → mem top_level i &&& PTE_PRESENT = 0#64)
    : Apart (newvm_map.copyKernel mem top_level kernel_top) kernel_top (top_level :: maps) := by
  have hne : ∀ m ∈ maps, m ≠ top_level := by
    rintro m hm rfl
    exact hnew [] (whole_root hm)
  have hreaches : ∀ m ∈ top_level :: maps, ∀ path t, path.length ≤ 3 →
      follow next (newvm_map.copyKernel mem top_level kernel_top) m path = some t →
      (whole maps).Reaches next mem path t ∨ (path = [] ∧ t = top_level ∧ m = top_level) :=
    fun m hm path t => reaches_copyKernel h hnew hclear hm
  constructor
  . rintro path path' t ⟨hpath, m, hm, hfollow⟩ ⟨hpath', m', hm', hfollow'⟩
    rcases hreaches m hm path t hpath.1 hfollow with hold | ⟨rfl, rfl, _⟩
    . rcases hreaches m' hm' path' t hpath'.1 hfollow' with hold' | ⟨_, rfl, _⟩
      . exact h.forest path path' t hold hold'
      . exact absurd hold (hnew path)
    . rcases hreaches m' hm' path' t hpath'.1 hfollow' with hold' | ⟨rfl, _, _⟩
      . exact absurd hold' (hnew path')
      . rfl
  . exact List.mem_cons_of_mem _ h.kernel_mem
  . intro m hm i hi
    rw [copyKernel_of_mem hnew h.kernel_mem]
    rcases List.mem_cons.mp hm with rfl | hm
    . exact Shared.copyKernel_new hi
    . rw [copyKernel_of_mem hnew hm, h.same m hm i hi]
  . intro i hi
    rw [copyKernel_of_mem hnew h.kernel_mem]
    exact h.present i hi
  . -- a lower path from the new top level ends at once
    have hstuck : ∀ path t, path.length ≤ 3 → LowerPath path →
        follow next (newvm_map.copyKernel mem top_level kernel_top) top_level path = some t →
        t = top_level := by
      intro path t hlength hlower hfollow
      cases path with
      | nil => exact (Option.some.inj hfollow).symm
      | cons i path =>
        rw [follow_new h hnew hclear (Nat.le_of_succ_le_succ hlength), if_neg] at hfollow
        . cases hfollow
        . have := hlower i rfl
          omega
    have hold : ∀ m ∈ maps, ∀ path, path.length ≤ 3 →
        follow next (newvm_map.copyKernel mem top_level kernel_top) m path ≠ some top_level := by
      intro m hm path hlength hfollow
      rcases hreaches m (List.mem_cons_of_mem _ hm) path top_level hlength hfollow with hold | ⟨_, _, heq⟩
      . exact hnew path hold
      . exact hne m hm heq
    intro m hm m' hm' path t hlength hlower hfollow hfollow'
    rcases List.mem_cons.mp hm with rfl | hold₁
    . have ht := hstuck path t hlength hlower hfollow
      rcases List.mem_cons.mp hm' with rfl | hold₂
      . rfl
      . exact absurd (ht ▸ hfollow') (hold m' hold₂ path hlength)
    . rcases List.mem_cons.mp hm' with rfl | hold₂
      . have ht := hstuck path t hlength hlower hfollow'
        exact absurd (ht ▸ hfollow) (hold m hold₁ path hlength)
      . rw [follow_copyKernel hnew hold₁ hlength] at hfollow
        rw [follow_copyKernel hnew hold₂ hlength] at hfollow'
        exact h.own m hold₁ m' hold₂ path t hlength hlower hfollow hfollow'

theorem entries_new (hclear : ∀ i : BitVec 9, i.toNat < 256 → mem top_level i &&& PTE_PRESENT = 0#64)
    (n : BitVec 36)
    : entries (newvm_map.copyKernel mem top_level kernel_top) top_level n =
        if n.msb then entries mem kernel_top n else 0#64 := by
  have happ := copyKernel h hnew hclear
  split
  . next hn =>
    rw [happ.entries_upper (List.mem_cons_self ..) hn, entries_copyKernel hnew h.kernel_mem]
  . next hn =>
    rw [← vpn_page n, msb_vpn_iff] at hn
    unfold entries walk leaf
    rw [show levels (n.setWidth 64 <<< 12) = _ :: [_, _] from rfl, follow_new h hnew hclear (by simp), if_neg hn]

end CopyKernel

theorem newvm_map_tablePages (h : Apart vm.mem kernel_top maps) (hpages : TablePages vm maps)
    (hres : newvm_map vm kernel_top = some (top_level, vm'))
    (hclear : ∀ i : BitVec 9, i.toNat < 256 → vm.mem top_level i &&& PTE_PRESENT = 0#64)
    : TablePages vm' (top_level :: maps) := by
  rcases newvm_map_eq_some hres with ⟨page, supply, hsupply, rfl, rfl⟩
  have hnodup := hpages.nodup
  rw [hsupply, List.nodup_cons] at hnodup
  have hmem : ∀ p ∈ supply, p ∈ vm.supply := by
    intro p hp
    rw [hsupply]
    exact List.mem_cons_of_mem _ hp
  have hnew := hpages.fresh page (by simp [hsupply])
  refine ⟨hnodup.2, fun p hp => hpages.page p (hmem p hp), ?_⟩
  rintro p hp path ⟨hpath, m, hm, hfollow⟩
  rcases reaches_copyKernel h hnew hclear hm hpath.1 hfollow with hold | ⟨_, heq, _⟩
  . exact hpages.fresh p (hmem p hp) path hold
  . rw [P2V_inj heq] at hp
    exact hnodup.1 hp

end Apart

end Apart

namespace Spaces

variable {s : Spaces} {m : Addr} {n : BitVec 36} {entry : BitVec 64}

def booted (boot : BitVec 36 → BitVec 64) : Spaces :=
  { kernel := boot, user := fun _ => boot }

theorem translate_insert (s : Spaces) (m : Addr) (n : BitVec 36) (entry : BitVec 64) (m' : Addr)
    : (s.insert m n entry).translate m' =
        if n.msb ∨ m' = m then FirstWins.insert Free (s.translate m') n entry else s.translate m' := by
  funext k
  unfold Spaces.insert
  by_cases hk : k = n
  . subst hk
    cases hmsb : k.msb <;> by_cases hm : m' = m <;>
      simp [translate, hmsb, hm, FirstWins.insert, apply_ite (fun f : BitVec 36 → BitVec 64 => f k)]
  . by_cases hm : m' = m <;> cases hmsb : n.msb <;> cases hkm : k.msb <;>
      simp [translate, hkm, hm, FirstWins.insert_of_ne hk]

theorem translate_newvm_map (s : Spaces) (m : Addr) (n : BitVec 36)
    : (s.newvm_map m).translate m n = if n.msb then s.kernel n else 0#64 := by
  simp [translate, newvm_map]

theorem translate_newvm_map_of_ne (s : Spaces) {m m' : Addr} (hne : m' ≠ m)
    : (s.newvm_map m).translate m' = s.translate m' := by
  funext n
  simp [translate, newvm_map, hne]

def Models (s : Spaces) (mem : Mem) (maps : List Addr) : Prop :=
  ∀ m ∈ maps, entries mem m = s.translate m

section Models

variable {vm vm' : Vm} {kernel_top top_level : Addr} {maps : List Addr} {vaddr paddr flags : BitVec 64}

theorem Models.mappage2 {res : Int} (h : s.Models vm.mem maps) (happ : Apart vm.mem kernel_top maps)
    (hgood : Good (whole maps) vm) (htop : top_level ∈ maps)
    (hres : mappage2 vm top_level vaddr paddr flags = some (res, vm'))
    : (s.insert top_level (vpn vaddr) (paddr ||| flags)).Models vm'.mem maps := by
  intro m hm
  rw [(happ.mappage2 hgood htop hres).2.2.2 m hm, translate_insert, h m hm]

theorem Models.go {i n : Nat} (h : s.Models vm.mem maps) (happ : Apart vm.mem kernel_top maps)
    (hgood : Good (whole maps) vm) (htop : top_level ∈ maps)
    (hres : mappages.go vm top_level vaddr paddr flags (BitVec.ofNat 64 i) n = some vm')
    : Apart vm'.mem kernel_top maps ∧
        (s.insertAll top_level ((List.range' i n).map (mappages.mapping vaddr paddr flags))).Models vm'.mem maps := by
  induction n generalizing vm i s with
  | zero =>
    cases hres
    exact ⟨happ, h⟩
  | succ n ih =>
    unfold mappages.go at hres
    dsimp only at hres
    split at hres
    . contradiction
    . next res vm₁ hmap =>
      rw [← BitVec.ofNat_mul] at hmap
      rw [show BitVec.ofNat 64 i + 1#64 = BitVec.ofNat 64 (i + 1) by rw [BitVec.ofNat_add]] at hres
      rcases happ.mappage2 hgood htop hmap with ⟨happ', hgood', _⟩
      have h' := h.mappage2 happ hgood htop hmap
      rw [← page, ← page, vpn_page_add] at h'
      rw [List.range'_succ]
      exact ih h' happ' hgood' hres

theorem Models.newvm_map (h : s.Models vm.mem maps) (happ : Apart vm.mem kernel_top maps)
    (hpages : TablePages vm maps) (hres : Vmm.newvm_map vm kernel_top = some (top_level, vm'))
    (hclear : ∀ i : BitVec 9, i.toNat < 256 → vm.mem top_level i &&& PTE_PRESENT = 0#64)
    : Apart vm'.mem kernel_top (top_level :: maps) ∧ (s.newvm_map top_level).Models vm'.mem (top_level :: maps) := by
  rcases newvm_map_eq_some hres with ⟨page, supply, hsupply, rfl, rfl⟩
  have hmem : page ∈ vm.supply := by simp [hsupply]
  have hnew := hpages.fresh page hmem
  have hcopy := happ.copyKernel hnew hclear
  refine ⟨hcopy, ?_⟩
  intro m hm
  by_cases hne : m = P2V page
  . rw [hne]
    funext n
    rw [happ.entries_new hnew hclear, translate_newvm_map, h kernel_top happ.kernel_mem]
    unfold translate
    split <;> rfl
  . have hm := (List.mem_cons.mp hm).resolve_left hne
    rw [translate_newvm_map_of_ne s hne, Apart.entries_copyKernel hnew hm, h m hm]

end Models

theorem user_insert_of_ne (s : Spaces) {m' : Addr} (hne : m' ≠ m) : (s.insert m' n entry).user m = s.user m := by
  unfold Spaces.insert
  split
  . rfl
  . exact Function.update_of_ne hne.symm _ _

theorem user_insertAll_of_ne (s : Spaces) {m' : Addr} (hne : m' ≠ m) (l : List (BitVec 36 × BitVec 64))
    : (s.insertAll m' l).user m = s.user m := by
  induction l generalizing s with
  | nil => rfl
  | cons x l ih =>
    unfold Spaces.insertAll at ih ⊢
    rw [List.foldl_cons, ih, user_insert_of_ne s hne]

theorem user_step_of_not_concerns (s : Spaces) {e : Event} (he : e.concerns m = false)
    : (s.step e).user m = s.user m := by
  cases e with
  | newvm_map m' =>
    have hne : m' ≠ m := of_decide_eq_false he
    exact Function.update_of_ne hne.symm _ _
  | mappage2 m' vaddr paddr flags => exact user_insert_of_ne s (of_decide_eq_false he)
  | mappages m' vaddr paddr size flags => exact user_insertAll_of_ne s (of_decide_eq_false he) _

section Congr

variable {s s' : Spaces}

theorem user_insert_congr (h : s.user m = s'.user m) (m' : Addr)
    : (s.insert m' n entry).user m = (s'.insert m' n entry).user m := by
  unfold Spaces.insert
  split
  . exact h
  . dsimp only
    by_cases hm : m = m'
    . subst hm
      rw [Function.update_self, Function.update_self, h]
    . rw [Function.update_of_ne hm, Function.update_of_ne hm, h]

theorem user_insertAll_congr (h : s.user m = s'.user m) (m' : Addr) (l : List (BitVec 36 × BitVec 64))
    : (s.insertAll m' l).user m = (s'.insertAll m' l).user m := by
  induction l generalizing s s' with
  | nil => exact h
  | cons x l ih =>
    unfold Spaces.insertAll at ih ⊢
    rw [List.foldl_cons, List.foldl_cons]
    exact ih (user_insert_congr h m')

theorem user_step_congr (h : s.user m = s'.user m) (e : Event) : (s.step e).user m = (s'.step e).user m := by
  cases e with
  | newvm_map m' =>
    unfold step Spaces.newvm_map
    dsimp only
    by_cases hm : m = m'
    . subst hm
      rw [Function.update_self, Function.update_self]
    . rw [Function.update_of_ne hm, Function.update_of_ne hm, h]
  | mappage2 m' vaddr paddr flags => exact user_insert_congr h m'
  | mappages m' vaddr paddr size flags => exact user_insertAll_congr h m' _

theorem user_run_congr (h : s.user m = s'.user m) (events : List Event)
    : (s.run events).user m = (s'.run (events.filter (Event.concerns m))).user m := by
  induction events generalizing s s' with
  | nil => exact h
  | cons e events ih =>
    rw [List.filter_cons]
    split
    . exact ih (user_step_congr h e)
    . next he =>
      apply ih
      rw [user_step_of_not_concerns s (by simpa using he), h]

end Congr

end Spaces

namespace SpaceRun

variable {image : KernelImage} {mem : Mem} {kernel_top : Addr} {maps : List Addr} {boot : BitVec 36 → BitVec 64}
    {events : List Event}

theorem models (h : SpaceRun image mem kernel_top maps boot events)
    : Apart mem kernel_top maps ∧ ((Spaces.booted boot).run events).Models mem maps := by
  have hsnoc : ∀ (s : Spaces) (events : List Event) (e : Event), s.run (events ++ [e]) = (s.run events).step e := by
    intro s events e
    unfold Spaces.run
    rw [List.foldl_append]
    rfl
  induction h with
  | init_vm hnodup hpage hres =>
    rcases init_vm_spec hnodup hpage hres with ⟨hgood, hpresent⟩
    refine ⟨Apart.of_single hgood hpresent, ?_⟩
    intro m hm
    rw [List.mem_singleton.mp hm]
    funext n
    simp [Spaces.run, Spaces.booted, Spaces.translate]
  | newvm_map _ hpages hres hclear ih =>
    rw [hsnoc]
    exact ih.2.newvm_map ih.1 hpages hres hclear
  | mappage2 _ hpages htop hres ih =>
    rw [hsnoc]
    have hgood := hpages.good ih.1.forest
    exact ⟨(ih.1.mappage2 hgood htop hres).1, ih.2.mappage2 ih.1 hgood htop hres⟩
  | mappages _ hpages htop hres ih =>
    rw [hsnoc]
    have hgood := hpages.good ih.1.forest
    unfold Vmm.mappages at hres
    dsimp only at hres
    split at hres
    . contradiction
    . next vm₁ hgo =>
      rcases Prod.mk.inj (Option.some.inj hres) with ⟨_, rfl⟩
      simp only [Spaces.step, List.range_eq_range']
      exact ih.2.go ih.1 hgood htop hgo

/--
At any time after `init_vm` the page tables are the address spaces that the calls so far stand for, and the next
`mappage2` returns what it returns there.
-/
theorem refines (h : SpaceRun image mem kernel_top maps boot events)
    : (∀ m ∈ maps, ∀ vaddr, walk mem m vaddr = ((Spaces.booted boot).run events).translate m (vpn vaddr)) ∧
        ∀ (vm vm' : Vm) (m vaddr paddr flags : BitVec 64) (res : Int), vm.mem = mem → TablePages vm maps → m ∈ maps →
          Vmm.mappage2 vm m vaddr paddr flags = some (res, vm') →
          res = if Free (((Spaces.booted boot).run events).translate m (vpn vaddr)) then 0 else -EINVAL := by
  rcases h.models with ⟨happ, hmodels⟩
  constructor
  . intro m hm vaddr
    rw [walk_eq_entries, hmodels m hm]
  . rintro vm vm' m vaddr paddr flags res rfl hpages hm hres
    rw [(happ.mappage2 (hpages.good happ.forest) hm hres).2.2.1, hmodels m hm]

def stackPage (top_level : Addr) : Event :=
  .mappage2 top_level 0x7000003f000#64 0x5000#64 (PTE_PRESENT ||| PTE_RW ||| PTE_USER)

theorem exists_stack : ∃ (mem : Mem) (kernel_top user : Addr) (boot : BitVec 36 → BitVec 64), kernel_top ≠ user ∧
    SpaceRun smallImage mem kernel_top [user, kernel_top] boot [.newvm_map user, stackPage user] := by
  have hneeded : init_vm.tablesNeeded smallImage + 4 < 4000000 := by decide
  have hlength : (firstPages 4000000).length = 4000000 := by simp [firstPages]
  have hnodup := firstPages_nodup (n := 4000000) (by decide)
  have hpage := firstPages_page (n := 4000000) (by decide)
  generalize firstPages 4000000 = pages at hlength hnodup hpage
  rw [← hlength] at hneeded
  obtain ⟨kernel_top, vm, hinit, hrest⟩ :=
    @init_vm_isSome ⟨fun _ _ => 0#64, pages⟩ smallImage hnodup hpage (by dsimp only; omega)
  dsimp only at hrest
  have hgood := (init_vm_spec hnodup hpage hinit).1
  have hrun := SpaceRun.init_vm hnodup hpage hinit
  have hpages : TablePages vm [kernel_top] := by
    refine ⟨hgood.nodup, hgood.page, ?_⟩
    rintro page hmem path ⟨hpath, root, hroot, hfollow⟩
    apply hgood.fresh page hmem path
    exact ⟨hpath, root, List.mem_singleton.mp hroot, hfollow⟩
  obtain ⟨page, supply, hsupply⟩ := List.exists_cons_of_length_pos (show 0 < vm.supply.length by omega)
  have hin : page ∈ vm.supply := by simp [hsupply]
  have hnew : Vmm.newvm_map vm kernel_top =
      some (P2V page, ⟨newvm_map.copyKernel vm.mem (P2V page) kernel_top, supply⟩) := by
    unfold Vmm.newvm_map palloc
    rw [hsupply]
  have hclear : ∀ i : BitVec 9, i.toNat < 256 → vm.mem (P2V page) i &&& PTE_PRESENT = 0#64 := by
    intro i _
    rw [(init_vm_kept hnodup hpage hinit hin).2]
    exact BitVec.zero_and
  have hrun' := SpaceRun.newvm_map hrun hpages hnew hclear
  have hpages' := hrun.models.1.newvm_map_tablePages hpages hnew hclear
  rw [hsupply, List.length_cons] at hrest
  obtain ⟨res, vm', hmap, _⟩ := mappage2_isSome 0x7000003f000#64 0x5000#64 (PTE_PRESENT ||| PTE_RW ||| PTE_USER)
    (hpages'.good hrun'.models.1.forest) List.mem_cons_self trivial (by dsimp only; omega)
  refine ⟨vm'.mem, kernel_top, P2V page, _, ?_, SpaceRun.mappage2 hrun' hpages' List.mem_cons_self hmap⟩
  rintro rfl
  exact hpages.fresh page hin [] (whole_root List.mem_cons_self)

theorem refines_stack : ∃ (mem : Mem) (kernel_top user : Addr) (boot : BitVec 36 → BitVec 64),
    SpaceRun smallImage mem kernel_top [user, kernel_top] boot [.newvm_map user, stackPage user] ∧
      walk mem user 0x7000003f000#64 = 0x5007#64 ∧
      walk mem kernel_top 0x7000003f000#64 = boot (vpn 0x7000003f000#64) := by
  obtain ⟨mem, kernel_top, user, boot, hne, hrun⟩ := exists_stack
  have hlow : (vpn 0x7000003f000#64).msb = false := by decide
  have hfree : Free 0#64 := by decide
  have hentry : 0x5000#64 ||| (PTE_PRESENT ||| PTE_RW ||| PTE_USER) = 0x5007#64 := by decide
  have hwalk := hrun.refines.1
  refine ⟨mem, kernel_top, user, boot, hrun, ?_, ?_⟩
  . rw [hwalk user (by simp)]
    simp [Spaces.run, Spaces.step, Spaces.translate, Spaces.insert, Spaces.newvm_map, FirstWins.insert, stackPage,
      hlow, hfree, hentry]
  . rw [hwalk kernel_top (by simp)]
    simp [Spaces.run, Spaces.step, Spaces.translate, Spaces.insert, Spaces.newvm_map, Spaces.booted, stackPage, hlow,
      hne]

/--
The lower half of an address space depends only on the calls that were made for it.
-/
theorem isolated (h : SpaceRun image mem kernel_top maps boot events) {m : Addr} (hm : m ∈ maps) {vaddr : BitVec 64}
    (hlow : (index vaddr 39).toNat < 256)
    : walk mem m vaddr =
        ((Spaces.booted boot).run (events.filter (Event.concerns m))).translate m (vpn vaddr) := by
  have hmsb : (vpn vaddr).msb = false := by
    rw [← Bool.not_eq_true, msb_vpn_iff]
    omega
  rw [walk_eq_entries, h.models.2 m hm]
  unfold Spaces.translate
  rw [hmsb, if_neg (by simp), if_neg (by simp), Spaces.user_run_congr rfl]

theorem isolated_stack : ∃ (mem : Mem) (kernel_top user : Addr) (boot : BitVec 36 → BitVec 64),
    SpaceRun smallImage mem kernel_top [user, kernel_top] boot [.newvm_map user, stackPage user] ∧
      walk mem kernel_top 0x7000003f000#64 = (Spaces.booted boot).translate kernel_top (vpn 0x7000003f000#64) := by
  obtain ⟨mem, kernel_top, user, boot, hne, hrun⟩ := exists_stack
  have hlow : (index 0x7000003f000#64 39).toNat < 256 := by decide
  have hkernel : kernel_top ∈ [user, kernel_top] := by simp
  have hwalk := hrun.isolated hkernel hlow
  have hfilter : [Event.newvm_map user, stackPage user].filter (Event.concerns kernel_top) = [] := by
    simp [Event.concerns, stackPage, Ne.symm hne]
  rw [hfilter] at hwalk
  exact ⟨mem, kernel_top, user, boot, hrun, hwalk⟩

end SpaceRun

end Vmm
end Franklin
