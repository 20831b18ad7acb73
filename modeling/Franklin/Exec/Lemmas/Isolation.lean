import Franklin.Exec.Lemmas.Contents
import Franklin.Slab.Lemmas.Heap
import Franklin.Vmm.Lemmas.Newvm
import Franklin.Vmm.Lemmas.Sections

/-!
This module contains what `loadelf` changes in the upper half, which all address spaces share.
-/

open Radix

namespace Franklin
namespace Exec

open Vmm (Addr Mem Vm Good P2V PTE_PRESENT single upper next walk index levels entries Free vpn page Shared FreshPages
  KernelState)
open Pmm (bitmap_test FreeRun setRun)

section Newvm

variable {s s' : State} {kernel_top top : Addr} {maps : List Addr} {size fuel ptr : Nat} {vm vm' : Vm}

theorem kalloc_ok (h : kalloc size fuel s = .ok ptr s')
    : ∃ p n heap slabs id, FreeRun s.bm p n ∧ s' = { s with heap, slabs, id, bm := setRun s.bm p n } := by
  unfold kalloc at h
  split at h
  . cases h
  . next ptr' heap hkalloc =>
    rcases Slab.Heap.kalloc_bm hkalloc with ⟨p, hbm, hrun⟩
    refine ⟨p, _, heap.mem, heap.slabs, heap.id, hrun, ?_⟩
    rw [← (EStateM.Result.ok.inj h).2, hbm]

theorem newvm_map.copy_ok (h : newvm_map.copy kernel_top s = .ok top s')
    : ∃ page supply, s.vm.supply = page :: supply ∧ top = P2V page
        ∧ s' = s.withVm ⟨Vmm.newvm_map.copyKernel s.mem (P2V page) kernel_top, supply⟩ := by
  unfold newvm_map.copy at h
  split at h
  . cases h
  . next top' vm hnew =>
    rcases Vmm.newvm_map_eq_some hnew with ⟨page, supply, hsupply, rfl, rfl⟩
    rcases EStateM.Result.ok.inj h with ⟨rfl, rfl⟩
    exact ⟨page, supply, hsupply, rfl, rfl⟩

theorem newvm_map_ok (h : newvm_map fuel kernel_top s = .ok top s')
    : ∃ ptr s₁, kalloc sizeofVmMap fuel s = .ok ptr s₁ ∧ newvm_map.copy kernel_top s₁ = .ok top s' := by
  unfold newvm_map at h
  cases hkalloc : kalloc sizeofVmMap fuel s with
  | ok ptr s₁ =>
    rw [bind_of_ok hkalloc] at h
    exact ⟨ptr, s₁, rfl, h⟩
  | error e s₁ =>
    rw [bind_of_error hkalloc] at h
    cases h

theorem kalloc_supply (hkalloc : kalloc size fuel s = .ok ptr s') : ∀ page ∈ s'.vm.supply, page ∈ s.vm.supply := by
  rcases kalloc_ok hkalloc with ⟨p, n, heap, slabs, id, _, rfl⟩
  intro page hpage
  rcases vm_supply_iff.mp hpage with ⟨q, hq, hclear, rfl⟩
  dsimp only at hq hclear
  rw [setRun_pages] at hq
  rw [Bool.eq_false_iff, ne_eq, setRun_test] at hclear
  exact vm_supply_iff.mpr ⟨q, hq, Bool.eq_false_iff.mpr (fun hset => hclear (Or.inl hset)), rfl⟩

theorem kalloc_freshPages (h : FreshPages s.vm maps) (hkalloc : kalloc size fuel s = .ok ptr s')
    : FreshPages s'.vm maps := by
  have hold := kalloc_supply hkalloc
  have hmem : s'.vm.mem = s.vm.mem := by
    rcases kalloc_ok hkalloc with ⟨p, n, heap, slabs, id, _, rfl⟩
    rfl
  refine ⟨supply_nodup _ _, ?_, ?_⟩
  . intro page hpage
    exact h.page page (hold page hpage)
  . intro page hpage
    rw [hmem]
    exact h.fresh page (hold page hpage)

end Newvm

section Isolated

variable {s s₁ s' : State} {kernel_top top : Addr} {maps : List Addr} {vn : Fs.File} {locals : Locals}
variable {vaddr : BitVec 64} {mem : Mem} {m m' : Addr}

theorem walk_eq_of_top_eq (h : mem m (index vaddr 39) = mem m' (index vaddr 39))
    : walk mem m vaddr = walk mem m' vaddr := by
  have hfollow : follow next mem m (levels vaddr) = follow next mem m' (levels vaddr) := by
    unfold Vmm.levels follow
    rw [h]
  unfold Vmm.walk leaf
  rw [hfollow]

structure NewMap (mem : Mem) (kernel_top top : Addr) (maps : List Addr) : Prop where
  shared : Shared mem kernel_top (top :: maps)
  new : top ∉ maps
  lower : ∀ i : BitVec 9, i.toNat < 256 → next (mem top i) = none

theorem newvm_map.copy_newMap (hshared : Shared s.mem kernel_top maps) (hfresh : FreshPages s.vm maps)
    (h : newvm_map.copy kernel_top s = .ok top s₁)
    (hlower : ∀ i : BitVec 9, i.toNat < 256 → next (s₁.mem top i) = none)
    : NewMap s₁.mem kernel_top top maps ∧ FreshPages s₁.vm (top :: maps) := by
  rcases newvm_map.copy_ok h with ⟨page, supply, hsupply, rfl, rfl⟩
  have hmem : page ∈ s.vm.supply := by
    rw [hsupply]
    exact List.mem_cons_self ..
  have hnew : ∀ path, ¬ (upper maps).Reaches next s.mem path (P2V page) := hfresh.fresh page hmem
  have hnodup := hfresh.nodup
  rw [hsupply, List.nodup_cons] at hnodup
  have hcopy := Shared.copyKernel hnew hshared
  have hreach := fun path t => @Shared.reaches_copyKernel _ _ _ _ hnew hshared path t
  generalize Vmm.newvm_map.copyKernel s.mem (P2V page) kernel_top = mem' at *
  refine ⟨⟨hcopy, ?_, hlower⟩, ?_⟩
  . intro hm
    exact hnew [] (Shape.Reaches.root hm)
  . have hrest : ∀ p ∈ (s.withVm ⟨mem', supply⟩).vm.supply, p ∈ supply := by
      intro p hp
      exact withVm_supply ⟨[page], hsupply⟩ hp
    have hold : ∀ p ∈ supply, p ∈ s.vm.supply := by
      intro p hp
      rw [hsupply]
      exact List.mem_cons_of_mem _ hp
    refine ⟨supply_nodup _ _, fun p hp => hfresh.page p (hold p (hrest p hp)), ?_⟩
    intro p hp path hreaches
    rcases hreach path _ hreaches with hupper | ⟨_, htop⟩
    . exact hfresh.fresh p (hold p (hrest p hp)) path hupper
    . apply hnodup.1
      rw [← Vmm.P2V_inj htop]
      exact hrest p hp

theorem NewMap.upper_reaches (h : NewMap mem kernel_top top maps) {path : List (BitVec 9)} {t : Addr}
    (hreaches : (single top).Reaches next mem path t) : (upper (top :: maps)).Reaches next mem path t := by
  rcases hreaches with ⟨hpath, root, hroot, hfollow⟩
  rw [hroot] at hfollow
  refine ⟨⟨hpath.1, ?_⟩, top, List.mem_cons_self .., hfollow⟩
  intro i hi
  by_contra hlt
  cases path with
  | nil => cases hi
  | cons j path =>
    rw [List.head?_cons] at hi
    rcases Option.some.inj hi with rfl
    unfold follow at hfollow
    rw [h.lower j (Nat.lt_of_not_le hlt)] at hfollow
    cases hfollow

theorem NewMap.good {vm : Vm} (h : NewMap vm.mem kernel_top top maps) (hfresh : FreshPages vm (top :: maps))
    : Good (single top) vm where
  forest := by
    intro path path' t hpath hpath'
    exact h.shared.forest path path' t (h.upper_reaches hpath) (h.upper_reaches hpath')
  nodup := hfresh.nodup
  page := hfresh.page
  fresh := by
    intro page hpage path hreaches
    exact hfresh.fresh page hpage path (h.upper_reaches hreaches)

theorem NewMap.not_table (h : NewMap mem kernel_top top maps) (hm : m ∈ maps) (path : List (BitVec 9))
    : ¬ (single top).Reaches next mem path m := by
  intro hreaches
  have hroot : (upper (top :: maps)).Reaches next mem [] m := Shape.Reaches.root (List.mem_cons_of_mem _ hm)
  have hnil := h.shared.forest path [] m (h.upper_reaches hreaches) hroot
  rw [hnil] at hreaches
  rcases hreaches with ⟨_, root, hroot', hfollow⟩
  have heq : root = m := Option.some.inj hfollow
  rw [hroot'] at heq
  rw [← heq] at hm
  exact h.new hm

theorem NewMap.walk_same (h : NewMap s₁.mem kernel_top top maps) (hfresh : FreshPages s₁.vm (top :: maps))
    (hwithin : Within (single top) s₁ s') (hm : m ∈ maps) (hvaddr : 256 ≤ (index vaddr 39).toNat)
    : walk s'.mem m vaddr = walk s'.mem top vaddr := by
  have hmap : s'.mem m (index vaddr 39) = s₁.mem m (index vaddr 39) := by
    apply hwithin.mem
    . rintro ⟨path, hreaches, _⟩
      exact h.not_table hm path hreaches
    . rintro q ⟨hq, hclear, _⟩ rfl
      apply hfresh.fresh (frame q) (vm_supply_iff.mpr ⟨q, hq, hclear, rfl⟩) []
      exact Shape.Reaches.root (List.mem_cons_of_mem _ hm)
  have hpresent : next (s₁.mem top (index vaddr 39)) ≠ none := by
    rw [h.shared.same top (List.mem_cons_self ..) _ hvaddr]
    exact h.shared.present _ hvaddr
  have htop : s'.mem top (index vaddr 39) = s₁.mem top (index vaddr 39) :=
    hwithin.grows [] top _ (Shape.Reaches.root rfl) (by simp [Vmm.single, Vmm.tables]) hpresent
  apply walk_eq_of_top_eq
  rw [hmap, htop, h.shared.same m (List.mem_cons_of_mem _ hm) _ hvaddr,
    h.shared.same top (List.mem_cons_self ..) _ hvaddr]

theorem NewMap.walk_eq_kernel (h : NewMap mem kernel_top top maps) (hm : m ∈ top :: maps)
    (hvaddr : 256 ≤ (index vaddr 39).toNat) : walk mem m vaddr = walk mem kernel_top vaddr := by
  apply walk_eq_of_top_eq
  exact h.shared.same m hm _ hvaddr

/--
The translation of the upper half in the address spaces that were there before.
-/
def UpperKept (maps : List Addr) (mem mem' : Mem) : Prop :=
  ∀ m ∈ maps, ∀ vaddr, 256 ≤ (index vaddr 39).toNat → walk mem' m vaddr = walk mem m vaddr

def Taken (mem : Mem) (kernel_top : Addr) (phdr : Block) : Prop :=
  ∀ i, i < (pagecount phdr).toNat → 256 ≤ (index (page (p_vaddr phdr) i) 39).toNat →
    walk mem kernel_top (page (p_vaddr phdr) i) &&& PTE_PRESENT ≠ 0#64

theorem index_eq_of_vpn_eq {v v' : BitVec 64} (h : vpn v = vpn v') : index v 39 = index v' 39 :=
  (List.cons.inj (Vmm.levels_eq_of_vpn_eq h).1).1

theorem NewMap.upperKept (h : NewMap s₁.mem kernel_top top maps) (hfresh : FreshPages s₁.vm (top :: maps))
    (hwithin : Within (single top) s₁ s')
    {rest : List (Block × Nat)} (hentries : entries s'.mem top =
      FirstWins.insertAll Free (entries s₁.mem top) (mappings rest))
    (htaken : ∀ load ∈ rest, Taken s₁.mem kernel_top load.1) : UpperKept maps s₁.mem s'.mem := by
  intro m hm vaddr hvaddr
  rw [h.walk_same hfresh hwithin hm hvaddr, h.walk_eq_kernel (List.mem_cons_of_mem _ hm) hvaddr,
    ← h.walk_eq_kernel (List.mem_cons_self ..) hvaddr, Vmm.walk_eq_entries, Vmm.walk_eq_entries, hentries]
  by_cases hmem : ∃ v, (vpn vaddr, v) ∈ mappings rest
  . rcases hmem with ⟨v, hv⟩
    rcases List.mem_flatMap.mp hv with ⟨load, hload, hv⟩
    rcases List.mem_map.mp hv with ⟨i, hi, heq⟩
    have hpage : vpn (page (p_vaddr load.1) i) = vpn vaddr := by
      rw [Vmm.vpn_page_add]
      exact (Prod.mk.inj heq).1
    have hupper : 256 ≤ (index (page (p_vaddr load.1) i) 39).toNat := by
      rw [index_eq_of_vpn_eq hpage]
      exact hvaddr
    apply FirstWins.insertAll_of_not_free
    have hpresent := htaken load hload i (by have := (List.mem_range'_1.mp hi).2; omega) hupper
    rw [← h.walk_eq_kernel (List.mem_cons_self ..) hupper, Vmm.walk_eq_entries, hpage] at hpresent
    exact hpresent
  . apply FirstWins.insertAll_of_not_mem
    intro v hv
    exact hmem ⟨v, hv⟩

theorem NewMap.taken (h : NewMap s₁.mem kernel_top top maps) (hfresh : FreshPages s₁.vm (top :: maps))
    (hkernel : kernel_top ∈ maps) {rest : List (Block × Nat)} (hloaded : Loaded top vn rest s₁ s')
    (hkept : UpperKept maps s₁.mem s'.mem) : ∀ load ∈ rest, Taken s₁.mem kernel_top load.1 := by
  intro load hload i hi hupper hfree
  have hnot : ¬ Free (entries s'.mem top (vpn (page (p_vaddr load.1) i))) := by
    rw [hloaded.entries]
    apply @FirstWins.not_free_insertAll _ _ _ _ _ _ _ (page (frame load.2) i ||| flags load.1)
    . apply List.mem_flatMap.mpr
      refine ⟨load, hload, List.mem_map.mpr ⟨i, List.mem_range'_1.mpr ⟨Nat.zero_le i, by omega⟩, ?_⟩⟩
      rw [Vmm.vpn_page_add]
      rfl
    . intro kv hkv
      rcases List.mem_flatMap.mp hkv with ⟨load', _, hkv⟩
      rcases List.mem_map.mp hkv with ⟨j, _, rfl⟩
      exact flags_present _ _
  apply hnot
  rw [← Vmm.walk_eq_entries, ← h.walk_same hfresh hloaded.within hkernel hupper, hkept kernel_top hkernel _ hupper]
  exact hfree

theorem NewMap.upperKept_iff (h : NewMap s₁.mem kernel_top top maps) (hfresh : FreshPages s₁.vm (top :: maps))
    (hkernel : kernel_top ∈ maps) {rest : List (Block × Nat)} (hloaded : Loaded top vn rest s₁ s')
    : UpperKept maps s₁.mem s'.mem ↔ ∀ load ∈ rest, Taken s₁.mem kernel_top load.1 :=
  ⟨h.taken hfresh hkernel hloaded, h.upperKept hfresh hloaded.within hloaded.entries⟩

end Isolated

section Mapped

variable {s s₁ s' : State} {vmap : Addr} {vn : Fs.File} {phdr elf : Block} {phdrs phdrs' : List Block}
variable {locals : Locals} {aux : Auxval} {i n : Nat}

/--
A load that has come to some point: it has mapped pages of the segments, and nothing else of the map has changed.
-/
structure Mapped (vmap : Addr) (phdrs : List Block) (s s' : State) : Prop where
  within : Within (single vmap) s s'
  entries : ∃ rest, (∀ load ∈ rest, load.1 ∈ phdrs) ∧
    entries s'.mem vmap = FirstWins.insertAll Free (entries s.mem vmap) (mappings rest)

theorem Within.copies {shape : Shape Addr (BitVec 9)} (h : Within shape s s') (copies : List Copy)
    : Within shape s { s' with copies } :=
  ⟨h.pages, h.bits, h.good, h.grows, h.reaches, h.mem⟩

theorem Mapped.of_within (h : Within (single vmap) s s') (hmem : s'.mem = s.mem) : Mapped vmap phdrs s s' := by
  refine ⟨h, [], ?_, ?_⟩
  . intro load hload
    cases hload
  . rw [hmem]
    rfl

theorem Mapped.of_maps {p : Nat} (h : Within (single vmap) s s') (hmem : phdr ∈ phdrs)
    (hentries : Vmm.entries s'.mem vmap = FirstWins.insertAll Free (Vmm.entries s.mem vmap)
      ((List.range' 0 (pagecount phdr).toNat).map (Vmm.mappages.mapping (p_vaddr phdr) (frame p) (flags phdr))))
    : Mapped vmap phdrs s s' := by
  refine ⟨h, [(phdr, p)], ?_, ?_⟩
  . intro load hload
    rw [List.mem_singleton.mp hload]
    exact hmem
  . rw [hentries]
    unfold mappings
    rw [List.flatMap_singleton]

theorem Mapped.trans (h : Mapped vmap phdrs s s₁) (h' : Mapped vmap phdrs s₁ s') : Mapped vmap phdrs s s' := by
  rcases h.entries with ⟨rest, hrest, hentries⟩
  rcases h'.entries with ⟨rest', hrest', hentries'⟩
  refine ⟨h.within.trans h'.within, rest ++ rest', ?_, ?_⟩
  . intro load hload
    rcases List.mem_append.mp hload with hload | hload
    . exact hrest load hload
    . exact hrest' load hload
  . unfold mappings
    rw [List.flatMap_append, FirstWins.insertAll_append]
    rw [hentries', hentries]
    rfl

theorem Mapped.mono (h : Mapped vmap phdrs s s') (hsub : ∀ phdr ∈ phdrs, phdr ∈ phdrs')
    : Mapped vmap phdrs' s s' := by
  rcases h.entries with ⟨rest, hrest, hentries⟩
  exact ⟨h.within, rest, fun load hload => hsub _ (hrest load hload), hentries⟩

theorem segment_mapped (hgood : Good (single vmap) s.vm) (hfit : Fits vn phdr)
    : wp (loadelf.segment vmap vn phdr) (fun _ s' => Mapped vmap [phdr] s s')
        (fun _ s' => Mapped vmap [phdr] s s') s := by
  have hpages := pagecount_lt phdr
  have hmem := List.mem_singleton_self phdr
  have hstop : wp (loadelf.segment vmap vn phdr) (fun _ _ => True) (fun _ s' => Mapped vmap [phdr] s s') s := by
    unfold loadelf.segment
    apply wp_bind_mono (palloc_wp s (by omega))
    . rintro e s' rfl
      exact Mapped.of_within (Within.refl hgood) rfl
    . rintro paddr s₁ ⟨p, rfl, hrun, hs₁, _⟩
      have hwithin₁ := Within.setRun hgood p (pagecount phdr).toNat
      rw [← hs₁] at hwithin₁
      have hmem₁ : s₁.mem = s.mem := by
        rw [hs₁]
      apply wp_bind_mono (mappages_wp hwithin₁.good)
      . rintro e s' rfl
        exact Mapped.of_within hwithin₁ hmem₁
      . rintro u s₂ hmaps
        have hentries := hmaps.entries
        rw [pagecount_size, hmem₁] at hentries
        apply wp_mono readPages_wp
        . intro u s₃ _
          trivial
        . rintro e s₃ rfl
          exact Mapped.of_maps ((hwithin₁.trans hmaps.within).copies _) hmem hentries
  rw [wp_iff]
  refine ⟨?_, (wp_iff.mp hstop).2⟩
  intro u s' hrun
  rcases (wp_of_ok hrun).mp (segment_wp hgood hfit) with ⟨p, hloads⟩
  exact Mapped.of_maps hloads.within hmem hloads.entries

theorem loop_mapped (hgood : Good (single vmap) s.vm) (hfit : ∀ b ∈ loads (headers vn elf phdr i n), Fits vn b)
    : wp (loadelf.loop vmap vn elf phdr aux i n)
        (fun _ s' => Mapped vmap (loads (headers vn elf phdr i n)) s s')
        (fun _ s' => Mapped vmap (loads (headers vn elf phdr i n)) s s') s := by
  induction n generalizing phdr aux i s with
  | zero => exact Mapped.of_within (Within.refl hgood) rfl
  | succ n ih =>
    unfold loadelf.loop
    apply wp_bind_mono readLocal_wp
    . rintro e s' ⟨_, rfl⟩
      exact Mapped.of_within (Within.refl hgood) rfl
    . rintro b s' ⟨hread, rfl⟩
      rw [headers_cons hread] at hfit ⊢
      split
      . next hload =>
        rw [loads_cons_load hload] at hfit ⊢
        have hfirst : ∀ c ∈ [b], c ∈ b :: loads (headers vn elf b (i + 1) n) := by
          intro c hc
          rw [List.mem_singleton.mp hc]
          exact List.mem_cons_self
        apply wp_bind_mono (segment_mapped hgood (hfit b (List.mem_cons_self ..)))
        . intro e s₁ hmapped
          exact hmapped.mono hfirst
        . intro u s₁ hmapped
          have hrest := fun c hc => hfit c (List.mem_cons_of_mem _ hc)
          apply wp_mono (@ih s₁ b aux (i + 1) hmapped.within.good hrest)
          . intro aux' s₂ hmapped'
            exact (hmapped.mono hfirst).trans (hmapped'.mono fun c hc => List.mem_cons_of_mem _ hc)
          . intro e s₂ hmapped'
            exact (hmapped.mono hfirst).trans (hmapped'.mono fun c hc => List.mem_cons_of_mem _ hc)
      . next hother =>
        rw [loads_cons_other hother] at hfit ⊢
        split
        . exact ih hgood hfit
        . exact ih hgood hfit

theorem file_mapped (hgood : Good (single vmap) s.vm) (hfit : ∀ b ∈ segments locals vn, Fits vn b)
    : wp (loadelf.file locals vmap vn) (fun _ s' => Mapped vmap (segments locals vn) s s')
        (fun _ s' => Mapped vmap (segments locals vn) s s') s := by
  unfold loadelf.file
  apply wp_bind_mono readLocal_wp
  . rintro e s' ⟨_, rfl⟩
    exact Mapped.of_within (Within.refl hgood) rfl
  . rintro b s' ⟨hread, rfl⟩
    rw [segments_of_elf hread] at hfit ⊢
    apply wp_bind_mono (loop_mapped hgood hfit)
    . intro e s₁ hmapped
      exact hmapped
    . intro aux s₁ hmapped
      exact hmapped

end Mapped

section Isolated

variable {s s₁ s' : State} {kernel_top top : Addr} {maps : List Addr} {vn : Fs.File} {locals : Locals}

theorem newMap_of_newvm_map {image : Vmm.KernelImage} {s₀ : State} {fuel : Nat}
    (hstate : KernelState image s₀.vm kernel_top maps) (hnew : newvm_map fuel kernel_top s₀ = .ok top s₁)
    (hlower : ∀ i : BitVec 9, i.toNat < 256 → next (s₁.mem top i) = none)
    : kernel_top ∈ maps ∧ NewMap s₁.mem kernel_top top maps ∧ FreshPages s₁.vm (top :: maps) := by
  rcases newvm_map_ok hnew with ⟨ptr, s, hkalloc, hcopy⟩
  have hfresh := kalloc_freshPages hstate.fresh hkalloc
  rcases hstate.run with ⟨mem, hkernel, hagree⟩
  have hshared : Shared s.mem kernel_top maps := by
    rcases kalloc_ok hkalloc with ⟨p, n, heap, slabs, id, _, rfl⟩
    exact hagree.shared hkernel.shared
  rcases newvm_map.copy_newMap hshared hfresh hcopy hlower with ⟨hmap, hpages⟩
  exact ⟨hshared.kernel_mem, hmap, hpages⟩

theorem NewMap.loaded_iff (h : NewMap s₁.mem kernel_top top maps) (hfresh : FreshPages s₁.vm (top :: maps))
    (hkernel : kernel_top ∈ maps) (hfit : ∀ phdr ∈ segments locals vn, Fits vn phdr) {aux : Auxval}
    (hrun : loadelf.file locals top vn s₁ = .ok aux s')
    : UpperKept maps s₁.mem s'.mem ↔ ∀ phdr ∈ segments locals vn, Taken s₁.mem kernel_top phdr := by
  rcases (wp_of_ok hrun).mp (file_wp (h.good hfresh) hfit) with ⟨rest, hrest, hloaded⟩
  rw [h.upperKept_iff hfresh hkernel hloaded, ← hrest]
  constructor
  . intro htaken phdr hphdr
    rcases List.mem_map.mp hphdr with ⟨load, hload, rfl⟩
    exact htaken load hload
  . intro htaken load hload
    exact htaken load.1 (List.mem_map_of_mem hload)

/--
The page that has become the top level was clear in the lower half, the bytes of each segment fit in its pages, and
the segments stay away from the pages of the upper half that the kernel has not mapped.
-/
structure Isolates (locals : Locals) (vn : Fs.File) (mem : Mem) (kernel_top top : Addr) : Prop where
  lower : ∀ i : BitVec 9, i.toNat < 256 → next (mem top i) = none
  fits : ∀ phdr ∈ segments locals vn, Fits vn phdr
  taken : ∀ phdr ∈ segments locals vn, Taken mem kernel_top phdr

theorem loadelf_upperKept_iff {image : Vmm.KernelImage} {s₀ : State} {fuel : Nat}
    (hstate : KernelState image s₀.vm kernel_top maps) (hnew : newvm_map fuel kernel_top s₀ = .ok top s₁)
    : (Isolates locals vn s₁.mem kernel_top top →
        wp (loadelf.file locals top vn) (fun _ s' => UpperKept maps s₁.mem s'.mem)
          (fun _ s' => UpperKept maps s₁.mem s'.mem) s₁) ∧
      ((∀ i : BitVec 9, i.toNat < 256 → next (s₁.mem top i) = none) → (∀ phdr ∈ segments locals vn, Fits vn phdr) →
        ∀ aux s', loadelf.file locals top vn s₁ = .ok aux s' →
          (UpperKept maps s₁.mem s'.mem ↔ Isolates locals vn s₁.mem kernel_top top)) := by
  constructor
  . intro h
    rcases newMap_of_newvm_map hstate hnew h.lower with ⟨_, hmap, hfresh⟩
    have hkept : ∀ s', Mapped top (segments locals vn) s₁ s' → UpperKept maps s₁.mem s'.mem := by
      intro s' hmapped
      rcases hmapped.entries with ⟨rest, hrest, hentries⟩
      exact hmap.upperKept hfresh hmapped.within hentries fun load hload => h.taken _ (hrest load hload)
    apply wp_mono (file_mapped (hmap.good hfresh) h.fits)
    . intro aux s'
      exact hkept s'
    . intro e s'
      exact hkept s'
  . intro hlower hfit aux s' hrun
    rcases newMap_of_newvm_map hstate hnew hlower with ⟨hkernel, hmap, hfresh⟩
    rw [hmap.loaded_iff hfresh hkernel hfit hrun]
    exact ⟨fun htaken => ⟨hlower, hfit, htaken⟩, fun h => h.taken⟩

end Isolated

section Sample

open Vmm (UpperAgree init_vm init_vm_suffix init_vm_freshPages KernelRun smallSections)

variable {s s₀ : State} {kernel_top : Addr} {q n : Nat}

theorem kalloc_first (fuel : Nat) (hslabs : s.slabs = 0) (hroom : FreeRun s.bm q (n + 1))
    : ∃ ptr s', kalloc sizeofVmMap (fuel + 1) s = .ok ptr s' ∧ s'.mem = s.mem ∧ s'.heap s'.slabs = 0
        ∧ ∃ q', FreeRun s'.bm q' n := by
  rcases palloc_room hroom (show 1 ≤ n + 1 by omega) with ⟨p, q', hpalloc, _, hrest⟩
  rw [Nat.add_sub_cancel] at hrest
  rcases @Slab.Heap.kalloc_first { mem := s.heap, slabs := s.slabs, id := s.id, bm := s.bm } sizeofVmMap fuel _ _ hslabs
    (by decide) hpalloc with ⟨ptr, st, hk, hlink⟩
  refine ⟨ptr, { s with heap := st.mem, slabs := st.slabs, id := st.id, bm := setRun s.bm p 1 }, ?_, rfl, hlink, q',
    hrest⟩
  unfold kalloc
  rw [hk]
  rfl

/--
A memory in which all pages that `palloc` can return are clear.
-/
structure Clear (s : State) : Prop where
  words : ∀ page ∈ s.vm.supply, ∀ i, s.mem (P2V page) i = 0#64

theorem newvm_map_first {image : Vmm.KernelImage} (fuel : Nat) (hstate : KernelState image s₀.vm kernel_top [kernel_top])
    (hclear : Clear s₀) (hslabs : s₀.slabs = 0) (hroom : FreeRun s₀.bm q (n + 2))
    : ∃ top s₁, newvm_map (fuel + 1) kernel_top s₀ = .ok top s₁
        ∧ (∀ i : BitVec 9, i.toNat < 256 → next (s₁.mem top i) = none)
        ∧ NewMap s₁.mem kernel_top top [kernel_top] ∧ FreshPages s₁.vm [top, kernel_top]
        ∧ UpperAgree [kernel_top] s₀.mem s₁.mem ∧ s₁.heap s₁.slabs = 0 ∧ ∃ q', FreeRun s₁.bm q' n := by
  rcases kalloc_first fuel hslabs hroom with ⟨ptr, s, hkalloc, hmem, hlink, q', hroom'⟩
  have hfresh := kalloc_freshPages hstate.fresh hkalloc
  have hsub := kalloc_supply hkalloc
  rcases hstate.run with ⟨mem, hkernel, hagree⟩
  have hagree' : UpperAgree [kernel_top] mem s.mem := by
    rw [hmem]
    exact hagree
  have hpos : 0 < s.vm.supply.length := Nat.lt_of_lt_of_le (Nat.succ_pos n) (vm_supply_length hroom')
  rcases List.exists_cons_of_length_pos hpos with ⟨page, supply, hsupply⟩
  have hmem_page : page ∈ s.vm.supply := by
    rw [hsupply]
    exact List.mem_cons_self
  have hcopy : newvm_map.copy kernel_top s =
      .ok (P2V page) (s.withVm ⟨Vmm.newvm_map.copyKernel s.mem (P2V page) kernel_top, supply⟩) := by
    unfold newvm_map.copy Vmm.newvm_map Vmm.palloc
    rw [hsupply]
    rfl
  generalize hs₁ : s.withVm ⟨Vmm.newvm_map.copyKernel s.mem (P2V page) kernel_top, supply⟩ = s₁ at hcopy
  have hmem₁ : s₁.mem = Vmm.newvm_map.copyKernel s.mem (P2V page) kernel_top := by
    rw [← hs₁]
    rfl
  have hlower : ∀ i : BitVec 9, i.toNat < 256 → next (s₁.mem (P2V page) i) = none := by
    intro i hi
    rw [hmem₁, Vmm.copyKernel_lower hi, hmem, hclear.words page (hsub page hmem_page)]
    exact Vmm.next_zero
  rcases newvm_map.copy_newMap (hagree'.shared hkernel.shared) hfresh hcopy hlower with ⟨hmap, hpages⟩
  refine ⟨P2V page, s₁, ?_, hlower, hmap, hpages, ?_, ?_, ?_⟩
  . unfold newvm_map
    rw [bind_of_ok hkalloc]
    exact hcopy
  . rw [hmem₁, ← hmem]
    exact UpperAgree.copyKernel (hfresh.fresh page hmem_page)
  . rw [← hs₁]
    exact hlink
  . rcases taken_room hroom' (show 1 ≤ n + 1 by omega) with ⟨q₁, hroom₁⟩
    refine ⟨q₁, ?_⟩
    rw [← hs₁]
    unfold State.withVm
    dsimp only
    rw [hsupply, List.length_cons, Nat.add_sub_cancel_left]
    exact hroom₁

theorem size_lt_bitmap : 2 ^ 19 < 2 ^ 49 := by
  decide

def bigBitmap : Pmm.Bitmap :=
  Pmm.setRun { addr := 0, size := 2 ^ 19, byte := fun _ => 0#8, size_lt := size_lt_bitmap } 0 1

theorem bigBitmap_pages : bigBitmap.pages = 2 ^ 22 := by
  unfold bigBitmap
  rw [setRun_pages]
  rfl

def bigState : State :=
  { sampleState with bm := bigBitmap }

theorem bigState_test (p : Nat) : bitmap_test bigState.bm p = true ↔ p = 0 :=
  setRun_test_of_zero (fun _ => rfl) p

theorem bigState_room : FreeRun bigState.bm 1 (2 ^ 22 - 1) :=
  freeRun_of_test bigState_test (Nat.le_of_eq bigBitmap_pages.symm)

theorem bigState_page : ∀ page ∈ bigState.vm.supply, Vmm.PTE_GET_ADDR page = page := by
  intro page hpage
  rcases vm_supply_iff.mp hpage with ⟨p, hp, hclear, rfl⟩
  change p < bigBitmap.pages at hp
  rw [bigBitmap_pages] at hp
  apply frame_page _ (by omega)
  intro hzero
  rw [(bigState_test p).mpr hzero] at hclear
  cases hclear

def smallKernel : Vmm.KernelImage :=
  smallSections.image 0xffffffff80000000#64 0x200000#64

theorem exists_clear (hpages : ∀ page ∈ s.vm.supply, Vmm.PTE_GET_ADDR page = page)
    (hroom : FreeRun s.bm 1 (2 ^ 22 - 1)) (hslabs : s.slabs = 0)
    : ∃ s₀ kernel_top q, KernelState smallKernel s₀.vm kernel_top [kernel_top] ∧ Clear s₀ ∧ s₀.slabs = 0
        ∧ FreeRun s₀.bm q 512 ∧ walk s₀.mem kernel_top 0xffffc00000000000#64 = 0#64 ∧ Held s s₀ := by
  have hneeded : init_vm.tablesNeeded smallKernel ≤ 4000000 := by decide
  have hlength := vm_supply_length hroom
  have hnodup : s.vm.supply.Nodup := supply_nodup _ _
  rcases Vmm.init_vm_isSome hnodup hpages (Nat.le_trans hneeded (by omega)) with
    ⟨kernel_top, vm, hinit, hrest⟩
  have hfresh := init_vm_freshPages hnodup hpages hinit
  rcases init_vm_suffix hinit with ⟨used, hused⟩
  let mem : Mem := fun t i => if t ∈ vm.supply.map P2V then 0#64 else vm.mem t i
  let s₀ : State := { s.withVm vm with mem }
  have hsub : ∀ page ∈ s₀.vm.supply, page ∈ vm.supply := fun page hpage => withVm_supply ⟨used, hused.symm⟩ hpage
  have hagree : UpperAgree [kernel_top] vm.mem mem := by
    intro path t i hreaches _
    apply if_neg
    intro hmem
    rcases List.mem_map.mp hmem with ⟨page, hpage, rfl⟩
    exact hfresh.fresh page hpage path hreaches
  refine ⟨s₀, kernel_top, ?_⟩
  rcases taken_room hroom (show s.vm.supply.length - vm.supply.length ≤ 2 ^ 22 - 1 by omega) with
    ⟨q, hroom₀⟩
  have hheld : Held s s₀ := (Held.withVm s vm).trans (Held.of_eq rfl)
  refine ⟨q, ⟨⟨vm.mem, KernelRun.init_vm hnodup hpages hinit, hagree⟩, ?_⟩, ⟨?_⟩, hslabs, ?_, ?_, hheld⟩
  . refine ⟨supply_nodup _ _, fun page hpage => hfresh.page page (hsub page hpage), ?_⟩
    intro page hpage path hreaches
    exact hfresh.fresh page (hsub page hpage) path (hagree.reaches_iff.mp hreaches)
  . intro page hpage i
    exact if_pos (List.mem_map_of_mem (hsub page hpage))
  . exact freeRun_sub hroom₀ (Nat.le_refl q) (by omega)
  . rw [hagree.walk_of_mem (List.mem_singleton_self kernel_top) (by decide), Vmm.walk_eq_entries,
      (Vmm.init_vm_represents hnodup hpages hinit).entries]
    apply (Vmm.init_vm.insertAll_mappings (by decide) _).2
    intro r
    cases r <;> decide

theorem exists_newMap
    : ∃ s₀ kernel_top top s₁ q, KernelState smallKernel s₀.vm kernel_top [kernel_top]
        ∧ newvm_map 1 kernel_top s₀ = .ok top s₁ ∧ (∀ i : BitVec 9, i.toNat < 256 → next (s₁.mem top i) = none)
        ∧ Good (single top) s₁.vm ∧ FreeRun s₁.bm q 510 ∧ walk s₁.mem kernel_top 0xffffc00000000000#64 = 0#64 := by
  rcases exists_clear bigState_page bigState_room rfl with ⟨s₀, kernel_top, q, hstate, hclear, hslabs, hroom, hwalk, _⟩
  rcases @newvm_map_first s₀ kernel_top q 510 _ 0 hstate hclear hslabs hroom with
    ⟨top, s₁, hnew, hlower, hmap, hfresh, hagree, _, q', hroom'⟩
  refine ⟨s₀, kernel_top, top, s₁, q', hstate, hnew, hlower, hmap.good hfresh, hroom', ?_⟩
  rw [hagree.walk_of_mem (List.mem_singleton_self kernel_top) (by decide), hwalk]

theorem loadelf_upperKept_sample
    : ∃ s₀ kernel_top top s₁ aux s', KernelState smallKernel s₀.vm kernel_top [kernel_top]
        ∧ newvm_map 1 kernel_top s₀ = .ok top s₁
        ∧ loadelf.file sampleLocals top (oneSegment 0#64 0x400000#64 16#64 16#64) s₁ = .ok aux s'
        ∧ UpperKept [kernel_top] s₁.mem s'.mem := by
  have hpages : (DIV_ROUNDUP 16#64 pgsize).toNat = 1 := by
    decide
  rcases exists_newMap with ⟨s₀, kernel_top, top, s₁, q, hstate, hnew, hlower, hgood, hroom, _⟩
  rcases @oneSegment_returns 0#64 0x400000#64 16#64 16#64 s₁ top q 506 sampleLocals hgood (by decide) (by decide)
    (by rw [hpages]; exact hroom) with ⟨phdr, hheader, hsegments, aux, s', hrun, _⟩
  have hcount : (pagecount phdr).toNat = 1 := by
    rw [header_pagecount hheader, hpages]
  refine ⟨s₀, kernel_top, top, s₁, aux, s', hstate, hnew, hrun, ?_⟩
  have hfit := fits_of_header hheader hsegments (by decide)
  apply ((loadelf_upperKept_iff hstate hnew).2 hlower hfit aux s' hrun).mpr
  refine ⟨hlower, hfit, ?_⟩
  intro b hb i hi hupper
  rw [hsegments, List.mem_singleton] at hb
  rw [hb, hcount] at hi
  rw [hb, hheader.vaddr, Nat.lt_one_iff.mp hi] at hupper
  exact absurd hupper (by decide)

theorem loadelf_upper_mapped
    : ∃ s₀ kernel_top top s₁ aux s', KernelState smallKernel s₀.vm kernel_top [kernel_top]
        ∧ newvm_map 1 kernel_top s₀ = .ok top s₁
        ∧ loadelf.file sampleLocals top (oneSegment 0#64 0xffffc00000000000#64 16#64 16#64) s₁ = .ok aux s'
        ∧ ¬ UpperKept [kernel_top] s₁.mem s'.mem := by
  have hpages : (DIV_ROUNDUP 16#64 pgsize).toNat = 1 := by
    decide
  rcases exists_newMap with ⟨s₀, kernel_top, top, s₁, q, hstate, hnew, hlower, hgood, hroom, hwalk⟩
  rcases @oneSegment_returns 0#64 0xffffc00000000000#64 16#64 16#64 s₁ top q 506 sampleLocals hgood (by decide)
    (by decide) (by rw [hpages]; exact hroom) with ⟨phdr, hheader, hsegments, aux, s', hrun, _⟩
  have hcount : (pagecount phdr).toNat = 1 := by
    rw [header_pagecount hheader, hpages]
  have hfit := fits_of_header hheader hsegments (by decide)
  refine ⟨s₀, kernel_top, top, s₁, aux, s', hstate, hnew, hrun, ?_⟩
  intro hkept
  rcases newMap_of_newvm_map hstate hnew hlower with ⟨hkernel, hmap, hfresh⟩
  have hmem : phdr ∈ segments sampleLocals (oneSegment 0#64 0xffffc00000000000#64 16#64 16#64) := by
    rw [hsegments]
    exact List.mem_singleton_self phdr
  have htaken := (hmap.loaded_iff hfresh hkernel hfit hrun).mp hkept phdr hmem
  have hpresent := htaken 0 (by rw [hcount]; decide)
  rw [hheader.vaddr] at hpresent
  have hpage : page 0xffffc00000000000#64 0 = 0xffffc00000000000#64 := by decide
  rw [hpage, hwalk] at hpresent
  exact hpresent (by decide) (by decide)

end Sample

end Exec
end Franklin
