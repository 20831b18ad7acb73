import Franklin.Vmm.Lemmas.InitVm

/-!
This module contains the address space that `newvm_map` makes of a page that may hold anything: the stale words of
its lower half are followed like entries.
-/

open Radix

namespace Franklin
namespace Vmm

theorem exists_vaddr (a b c d : BitVec 9) : ∃ vaddr, levels vaddr = [a, b, c] ∧ index vaddr 12 = d := by
  have ha := a.isLt
  have hb := b.isLt
  have hc := c.isLt
  have hd := d.isLt
  refine ⟨BitVec.ofNat 64 (a.toNat * 2 ^ 39 + b.toNat * 2 ^ 30 + c.toNat * 2 ^ 21 + d.toNat * 2 ^ 12), ?_, ?_⟩
  . simp only [levels, List.cons.injEq, and_true]
    refine ⟨?_, ?_, ?_⟩ <;> apply BitVec.eq_of_toNat_eq <;>
      simp only [index, BitVec.toNat_setWidth, BitVec.toNat_ushiftRight, BitVec.toNat_ofNat,
        Nat.shiftRight_eq_div_pow] <;> omega
  . apply BitVec.eq_of_toNat_eq
    simp only [index, BitVec.toNat_setWidth, BitVec.toNat_ushiftRight, BitVec.toNat_ofNat,
      Nat.shiftRight_eq_div_pow]
    omega

def LowerPath (path : List (BitVec 9)) : Prop :=
  ∀ i, path.head? = some i → i.toNat < 256

theorem LowerPath.of_concat {path : List (BitVec 9)} {i : BitVec 9} (h : LowerPath (path ++ [i]))
    : LowerPath path := by
  intro j hj
  apply h
  rw [List.head?_append, hj]
  rfl

section CopyKernel

variable {mem : Mem} {top_level kernel_top : Addr} {path : List (BitVec 9)}

theorem copyKernel_of_ne {t : Addr} (h : t ≠ top_level)
    : newvm_map.copyKernel mem top_level kernel_top t = mem t := by
  simp [newvm_map.copyKernel, h]

theorem copyKernel_lower {i : BitVec 9} (h : i.toNat < 256)
    : newvm_map.copyKernel mem top_level kernel_top top_level i = mem top_level i := by
  simp [newvm_map.copyKernel, Nat.not_le.mpr h]

theorem copyKernel_behind {t : Addr} {i : BitVec 9} (hpath : LowerPath (path ++ [i]))
    (hreturn : path ≠ [] → t ≠ top_level) (hfollow : follow next mem top_level path = some t)
    : newvm_map.copyKernel mem top_level kernel_top t i = mem t i := by
  cases path with
  | nil =>
    cases hfollow
    apply copyKernel_lower
    apply hpath i rfl
  | cons j path => rw [copyKernel_of_ne (hreturn (by simp))]

theorem follow_copyKernel
    (hreturn : ∀ path', path' ≠ [] → path'.length < path.length → LowerPath path' →
      follow next mem top_level path' ≠ some top_level) (hpath : LowerPath path)
    : follow next (newvm_map.copyKernel mem top_level kernel_top) top_level path =
        follow next mem top_level path := by
  induction path using List.reverseRecOn with
  | nil => rfl
  | append_singleton path i ih =>
    have hlength : (path ++ [i]).length = path.length + 1 := by simp
    rw [follow_concat, follow_concat, ih _ hpath.of_concat]
    . apply Option.bind_congr
      intro t ht
      rw [copyKernel_behind hpath _ ht]
      intro hne heq
      rw [heq] at ht
      exact hreturn path hne (by omega) hpath.of_concat ht
    . intro path' hne hlt
      apply hreturn path' hne (by omega)

end CopyKernel

/--
Read as a top level, the stale page maps no lower address, and it is not a table of its own lower half.
-/
structure Harmless (mem : Mem) (top_level : Addr) : Prop where
  unmapped : ∀ vaddr, (index vaddr 39).toNat < 256 → walk mem top_level vaddr &&& PTE_PRESENT = 0#64
  no_return : ∀ path, path ≠ [] → path.length ≤ 3 → LowerPath path →
    follow next mem top_level path ≠ some top_level

theorem lowerPath_levels {vaddr : BitVec 64} (h : (index vaddr 39).toNat < 256) (i : BitVec 9)
    : LowerPath (levels vaddr ++ [i]) := by
  intro j hj
  simp only [levels, List.cons_append, List.head?_cons, Option.some.injEq] at hj
  rwa [← hj]

theorem Harmless.walk_copyKernel {mem : Mem} {top_level : Addr} {vaddr : BitVec 64}
    (hreturn : ∀ path, path ≠ [] → path.length ≤ 3 → LowerPath path →
      follow next mem top_level path ≠ some top_level)
    (kernel_top : Addr) (hvaddr : (index vaddr 39).toNat < 256)
    : walk (newvm_map.copyKernel mem top_level kernel_top) top_level vaddr = walk mem top_level vaddr := by
  have hpath := lowerPath_levels hvaddr (index vaddr 12)
  have hlength : (levels vaddr).length = 3 := rfl
  unfold walk leaf
  rw [follow_copyKernel _ hpath.of_concat]
  . cases hfollow : follow next mem top_level (levels vaddr) with
    | none => rfl
    | some t =>
      apply copyKernel_behind hpath _ hfollow
      intro hne heq
      rw [heq] at hfollow
      exact hreturn (levels vaddr) hne (Nat.le_of_eq hlength) hpath.of_concat hfollow
  . intro path' hne hlt
    apply hreturn path' hne (by omega)

theorem exists_split_at {α : Type} (l : List α) {n : Nat} (h : n < l.length)
    : ∃ front x rest, l = front ++ x :: rest ∧ front.length = n := by
  refine ⟨l.take n, l.get ⟨n, h⟩, l.drop (n + 1), ?_, ?_⟩
  . simp
  . rw [List.length_take, Nat.min_eq_left (Nat.le_of_lt h)]

theorem exists_next_of_follow {mem : Mem} {t t' : Addr} {path rest : List (BitVec 9)} {i : BitVec 9}
    (h : follow next mem t (path ++ i :: rest) = some t')
    : ∃ s, follow next mem t path = some s ∧ next (mem s i) ≠ none := by
  rw [follow_append, Option.bind_eq_some_iff] at h
  obtain ⟨s, hs, hrest⟩ := h
  refine ⟨s, hs, ?_⟩
  intro hnone
  simp [follow, hnone] at hrest

def UpperAgree (maps : List Addr) (mem mem' : Mem) : Prop :=
  ∀ path t i, (upper maps).Reaches next mem path t → (path = [] → 256 ≤ i.toNat) → mem' t i = mem t i

namespace UpperAgree

variable {maps : List Addr} {mem mem' : Mem} {m kernel_top : Addr} {path : List (BitVec 9)}

theorem follow_eq (h : UpperAgree maps mem mem') (hm : m ∈ maps) (hpath : (upper maps).Path path)
    : follow next mem' m path = follow next mem m path := by
  induction path using List.reverseRecOn with
  | nil => rfl
  | append_singleton path i ih =>
    rw [follow_concat, follow_concat, ih hpath.of_concat]
    apply Option.bind_congr
    intro t ht
    rw [h path t i ⟨hpath.of_concat, m, hm, ht⟩]
    rintro rfl
    exact hpath.2 i rfl

theorem reaches_iff (h : UpperAgree maps mem mem') {t : Addr}
    : (upper maps).Reaches next mem' path t ↔ (upper maps).Reaches next mem path t := by
  unfold Shape.Reaches
  apply and_congr_right
  intro hpath
  apply exists_congr
  intro root
  apply and_congr_right
  intro hroot
  rw [h.follow_eq hroot hpath]

theorem top_eq (h : UpperAgree maps mem mem') (hm : m ∈ maps) {i : BitVec 9} (hi : 256 ≤ i.toNat)
    : mem' m i = mem m i :=
  h [] m i (Shape.Reaches.root hm) fun _ => hi

theorem walk_of_mem (h : UpperAgree maps mem mem') (hm : m ∈ maps) {vaddr : BitVec 64}
    (hvaddr : 256 ≤ (index vaddr 39).toNat) : walk mem' m vaddr = walk mem m vaddr := by
  have hpath : (upper maps).Path (levels vaddr) := path_levels _ hvaddr
  unfold walk leaf
  rw [h.follow_eq hm hpath]
  cases hfollow : follow next mem m (levels vaddr) with
  | none => rfl
  | some t => exact h (levels vaddr) t _ ⟨hpath, m, hm, hfollow⟩ (by simp [levels])

theorem shared (h : UpperAgree maps mem mem') (hshared : Shared mem kernel_top maps)
    : Shared mem' kernel_top maps where
  forest := by
    intro path path' t hpath hpath'
    exact hshared.forest path path' t (h.reaches_iff.mp hpath) (h.reaches_iff.mp hpath')
  kernel_mem := hshared.kernel_mem
  same := by
    intro m hm i hi
    rw [h.top_eq hm hi, h.top_eq hshared.kernel_mem hi]
    exact hshared.same m hm i hi
  present := by
    intro i hi
    rw [h.top_eq hshared.kernel_mem hi]
    exact hshared.present i hi

theorem copyKernel {top_level : Addr} (hnew : ∀ path, ¬(upper maps).Reaches next mem path top_level)
    : UpperAgree maps mem (newvm_map.copyKernel mem top_level kernel_top) := by
  intro path t i hreaches _
  rw [Shared.copyKernel_of_reaches hnew path t hreaches]

end UpperAgree

theorem newvm_map_eq_some {vm vm' : Vm} {kernel_top top_level : Addr}
    (h : newvm_map vm kernel_top = some (top_level, vm'))
    : ∃ page supply, vm.supply = page :: supply ∧ top_level = P2V page ∧
        vm' = ⟨newvm_map.copyKernel vm.mem (P2V page) kernel_top, supply⟩ := by
  unfold newvm_map palloc at h
  cases hsupply : vm.supply with
  | nil => simp [hsupply] at h
  | cons page supply =>
    simp only [hsupply, Option.some.injEq, Prod.mk.injEq] at h
    obtain ⟨rfl, rfl⟩ := h
    exact ⟨page, supply, rfl, rfl, rfl⟩

theorem Shared.walk_mappage2 {vm vm' : Vm} {kernel_top top_level : Addr} {maps : List Addr}
    {hhdm vaddr paddr flags : BitVec 64} {res : Int} (h : Shared vm.mem kernel_top maps)
    (hfresh : FreshPages vm maps) (hm : top_level ∈ maps) (hupper : 256 ≤ (index vaddr 39).toNat)
    (hres : mappage2 vm top_level vaddr paddr flags = some (res, vm'))
    (hhhdm : 256 ≤ (index hhdm 39).toNat) (hpresent : walk vm.mem kernel_top hhdm &&& PTE_PRESENT ≠ 0#64)
    : walk vm'.mem kernel_top hhdm = walk vm.mem kernel_top hhdm := by
  have hpath : (upper maps).Path (levels hhdm) := path_levels _ hhhdm
  cases mappage2_cases (hfresh.good h.forest) hm hupper hres with
  | inl htaken =>
    apply htaken.2.2.leaf kernel_top _ _ h.kernel_mem hpath rfl
  | inr hfree =>
    apply hfree.2.2.2.2.2 kernel_top _ _ h.kernel_mem hpath rfl
    rintro ⟨hlevels, hindex⟩
    -- The page would have been mapped in every address space.
    apply hpresent
    have hwalk := hfree.1
    unfold walk leaf at hwalk ⊢
    rw [← hlevels, ← hindex, h.follow_eq hm hpath (by simp [levels])] at hwalk
    exact hwalk

theorem KernelRun.hhdm {image : KernelImage} {mem : Mem} {kernel_top : Addr} {maps : List Addr}
    (h : KernelRun image mem kernel_top maps)
    : walk mem kernel_top (0x1000#64 + HHDM_OFFSET) &&& PTE_PRESENT ≠ 0#64 := by
  have hupper : 256 ≤ (index (0x1000#64 + HHDM_OFFSET) 39).toNat := by decide
  induction h with
  | init_vm hnodup hpage hres => exact init_vm_hhdm hnodup hpage hres
  | @newvm_map vm _ kernel_top _ maps hrun hfresh hres ih =>
    obtain ⟨page, supply, hsupply, _, rfl⟩ := newvm_map_eq_some hres
    have hagree := @UpperAgree.copyKernel maps vm.mem kernel_top (P2V page)
      (hfresh.fresh page (by simp [hsupply]))
    rw [hagree.walk_of_mem hrun.shared.kernel_mem hupper]
    exact ih
  | mappage2 hrun hfresh hm hvaddr hres ih =>
    rw [hrun.shared.walk_mappage2 hfresh hm hvaddr hres hupper ih]
    exact ih

theorem KernelRun.exists_upper {image : KernelImage} {mem : Mem} {kernel_top : Addr} {maps : List Addr}
    (h : KernelRun image mem kernel_top maps)
    : ∃ vaddr, 256 ≤ (index vaddr 39).toNat ∧ walk mem kernel_top vaddr &&& PTE_PRESENT ≠ 0#64 :=
  ⟨0x1000#64 + HHDM_OFFSET, by decide, h.hhdm⟩

/--
A state in which the upper half is as a run has left it. All other words are arbitrary, those of the pages that
`palloc` returns included.
-/
structure KernelState (image : KernelImage) (vm : Vm) (kernel_top : Addr) (maps : List Addr) : Prop where
  run : ∃ mem, KernelRun image mem kernel_top maps ∧ UpperAgree maps mem vm.mem
  fresh : FreshPages vm maps

/--
What `newvm_map` is supposed to return: nothing is mapped in the lower half, and the upper half is the one of the
kernel.
-/
structure NewSpace (mem mem' : Mem) (top_level kernel_top : Addr) : Prop where
  lower : ∀ vaddr, (index vaddr 39).toNat < 256 → walk mem' top_level vaddr &&& PTE_PRESENT = 0#64
  upper : ∀ vaddr, 256 ≤ (index vaddr 39).toNat → walk mem' top_level vaddr = walk mem' kernel_top vaddr
  kernel : ∀ vaddr, 256 ≤ (index vaddr 39).toNat → walk mem' kernel_top vaddr = walk mem kernel_top vaddr

namespace Shared

variable {mem : Mem} {kernel_top top_level : Addr} {maps : List Addr}

theorem exists_lower_of_return (h : Shared mem kernel_top maps)
    (hnew : ∀ path, ¬(upper maps).Reaches next mem path top_level) {hhdm : BitVec 64}
    (hhhdm : 256 ≤ (index hhdm 39).toNat) (hpresent : walk mem kernel_top hhdm &&& PTE_PRESENT ≠ 0#64)
    {path : List (BitVec 9)} (hne : path ≠ []) (hlength : path.length ≤ 3) (hlower : LowerPath path)
    (hfollow : follow next (newvm_map.copyKernel mem top_level kernel_top) top_level path = some top_level)
    : ∃ vaddr, (index vaddr 39).toNat < 256 ∧
        walk (newvm_map.copyKernel mem top_level kernel_top) top_level vaddr &&& PTE_PRESENT ≠ 0#64 := by
  have hpos := List.length_pos_of_ne_nil hne
  have hpath : (upper (top_level :: maps)).Path (levels hhdm) := path_levels _ hhhdm
  have hshared := copyKernel hnew h
  rw [← (@UpperAgree.copyKernel maps mem kernel_top top_level hnew).walk_of_mem h.kernel_mem hhhdm] at hpresent
  generalize newvm_map.copyKernel mem top_level kernel_top = mem' at *
  obtain ⟨t, ht⟩ : ∃ t, follow next mem' top_level (levels hhdm) = some t := by
    rw [hshared.follow_eq (List.mem_cons_self ..) hpath (by simp [levels])]
    cases hfollow : follow next mem' kernel_top (levels hhdm) with
    | none =>
      unfold walk leaf at hpresent
      rw [hfollow] at hpresent
      exact absurd BitVec.zero_and hpresent
    | some t => exact ⟨t, rfl⟩
  -- The first `3 - path.length` indices lead to the table in which the leaf entry is found.
  obtain ⟨front, i, rest, hsplit, hfront⟩ :=
    exists_split_at (levels hhdm) (show 3 - path.length < (levels hhdm).length by simp [levels]; omega)
  rw [hsplit] at ht
  obtain ⟨s, hs, hnext⟩ := exists_next_of_follow ht
  obtain ⟨a, b, c, habc⟩ := List.length_eq_three.mp (show (path ++ front).length = 3 by simp; omega)
  obtain ⟨vaddr, hlevels, hindex⟩ := exists_vaddr a b c i
  rw [← habc] at hlevels
  refine ⟨vaddr, ?_, ?_⟩
  . apply hlower
    have hhead : (levels vaddr).head? = some (index vaddr 39) := rfl
    rw [hlevels, List.head?_append_of_ne_nil path hne] at hhead
    exact hhead
  . unfold walk leaf
    rw [hlevels, hindex, follow_append, hfollow, Option.bind_some, hs]
    intro hzero
    apply hnext
    unfold next
    rw [if_neg (not_not.mpr hzero)]

end Shared

theorem Shared.newSpace_iff {mem : Mem} {kernel_top top_level : Addr} {maps : List Addr} {hhdm : BitVec 64}
    (h : Shared mem kernel_top maps) (hnew : ∀ path, ¬(upper maps).Reaches next mem path top_level)
    (hhhdm : 256 ≤ (index hhdm 39).toNat) (hpresent : walk mem kernel_top hhdm &&& PTE_PRESENT ≠ 0#64)
    : NewSpace mem (newvm_map.copyKernel mem top_level kernel_top) top_level kernel_top ↔
        Harmless mem top_level := by
  constructor
  . intro hspace
    have hreturn : ∀ n path, path.length = n → path ≠ [] → path.length ≤ 3 → LowerPath path →
        follow next mem top_level path ≠ some top_level := by
      intro n
      induction n using Nat.strongRecOn with
      | ind n ih =>
        -- The shortest path back is not affected by the new words.
        intro path hn hne hlength hlower hfollow
        rw [← @follow_copyKernel mem top_level kernel_top path _ hlower] at hfollow
        . obtain ⟨vaddr, hvaddr, hmapped⟩ :=
            h.exists_lower_of_return hnew hhhdm hpresent hne hlength hlower hfollow
          exact hmapped (hspace.lower vaddr hvaddr)
        . intro path' hne' hlt hlower'
          exact ih path'.length (by omega) path' rfl hne' (by omega) hlower'
    have hno := fun path => hreturn path.length path rfl
    refine ⟨?_, hno⟩
    intro vaddr hvaddr
    rw [← Harmless.walk_copyKernel hno kernel_top hvaddr]
    exact hspace.lower vaddr hvaddr
  . intro hharmless
    constructor
    . intro vaddr hvaddr
      rw [Harmless.walk_copyKernel hharmless.no_return kernel_top hvaddr]
      exact hharmless.unmapped vaddr hvaddr
    . intro vaddr hvaddr
      have hpath : (upper (top_level :: maps)).Path (levels vaddr) := path_levels _ hvaddr
      unfold walk leaf
      rw [(Shared.copyKernel hnew h).follow_eq (List.mem_cons_self ..) hpath (by simp [levels])]
    . intro vaddr hvaddr
      exact (UpperAgree.copyKernel hnew).walk_of_mem h.kernel_mem hvaddr

/--
`newvm_map` does what it is supposed to do exactly if the stale words of the lower half happen to be harmless.
-/
theorem newvm_map_newSpace_iff {image : KernelImage} {vm : Vm} {kernel_top : Addr} {maps : List Addr} {page : Addr}
    {supply : List Addr} (h : KernelState image vm kernel_top maps) (hsupply : vm.supply = page :: supply)
    : ∃ vm', newvm_map vm kernel_top = some (P2V page, vm') ∧
        (NewSpace vm.mem vm'.mem (P2V page) kernel_top ↔ Harmless vm.mem (P2V page)) := by
  obtain ⟨mem, hrun, hagree⟩ := h.run
  have hnew := h.fresh.fresh page (by simp [hsupply])
  obtain ⟨vaddr, hvaddr, hpresent⟩ := hrun.exists_upper
  rw [← hagree.walk_of_mem hrun.shared.kernel_mem hvaddr] at hpresent
  have hres : newvm_map vm kernel_top =
      some (P2V page, ⟨newvm_map.copyKernel vm.mem (P2V page) kernel_top, supply⟩) := by
    unfold newvm_map palloc
    rw [hsupply]
  have hiff := @Shared.newSpace_iff vm.mem kernel_top (P2V page) maps vaddr (hagree.shared hrun.shared) hnew hvaddr
    hpresent
  exact ⟨_, hres, hiff⟩

theorem Harmless.of_clear {mem : Mem} {top_level : Addr}
    (h : ∀ i : BitVec 9, i.toNat < 256 → next (mem top_level i) = none) : Harmless mem top_level := by
  have hfollow : ∀ path, path ≠ [] → LowerPath path → follow next mem top_level path = none := by
    intro path hne hlower
    cases path with
    | nil => contradiction
    | cons i path =>
      unfold follow
      rw [h i (hlower i rfl)]
  constructor
  . intro vaddr hvaddr
    unfold walk leaf
    rw [hfollow _ (by simp [levels]) (lowerPath_levels hvaddr 0#9).of_concat]
    exact BitVec.zero_and
  . intro path hne _ hlower
    rw [hfollow path hne hlower]
    simp

theorem exists_kernelState (words : Addr → BitVec 9 → BitVec 64)
    : ∃ vm kernel_top page supply, KernelState smallImage vm kernel_top [kernel_top] ∧
        vm.supply = page :: supply ∧ PTE_GET_ADDR page = page ∧ vm.mem (P2V page) = words page := by
  have hneeded : init_vm.tablesNeeded smallImage < 4000000 := by decide
  have hlength : (firstPages 4000000).length = 4000000 := by simp [firstPages]
  have hnodup := firstPages_nodup (n := 4000000) (by decide)
  have hpage := firstPages_page (n := 4000000) (by decide)
  generalize firstPages 4000000 = pages at hlength hnodup hpage
  rw [← hlength] at hneeded
  obtain ⟨kernel_top, vm, hinit, hrest⟩ :=
    @init_vm_isSome ⟨fun _ _ => 0#64, pages⟩ smallImage hnodup hpage (Nat.le_of_lt hneeded)
  have hfresh := init_vm_freshPages hnodup hpage hinit
  obtain ⟨page, supply, hsupply⟩ :=
    List.exists_cons_of_length_pos (show 0 < vm.supply.length by dsimp only at hrest; omega)
  have hmem : page ∈ vm.supply := by simp [hsupply]
  have hagree : UpperAgree [kernel_top] vm.mem (Function.update vm.mem (P2V page) (words page)) := by
    intro path t i hreaches _
    have hne : t ≠ P2V page := fun heq => hfresh.fresh page hmem path (heq ▸ hreaches)
    rw [Function.update_of_ne hne]
  refine ⟨⟨Function.update vm.mem (P2V page) (words page), vm.supply⟩, kernel_top, page, supply,
    ⟨?_, ?_⟩, hsupply, hfresh.page page hmem, ?_⟩
  . exact ⟨vm.mem, KernelRun.init_vm hnodup hpage hinit, hagree⟩
  . refine ⟨hfresh.nodup, hfresh.page, ?_⟩
    intro p hp path hreaches
    exact hfresh.fresh p hp path (hagree.reaches_iff.mp hreaches)
  . dsimp only
    rw [Function.update_self]

theorem newvm_map_newSpace_zero :
    ∃ vm kernel_top top_level vm', newvm_map vm kernel_top = some (top_level, vm') ∧
      NewSpace vm.mem vm'.mem top_level kernel_top := by
  obtain ⟨vm, kernel_top, page, supply, hstate, hsupply, _, hwords⟩ := exists_kernelState fun _ _ => 0#64
  obtain ⟨vm', hres, hiff⟩ := newvm_map_newSpace_iff hstate hsupply
  refine ⟨vm, kernel_top, P2V page, vm', hres, hiff.mpr (Harmless.of_clear ?_)⟩
  intro i _
  rw [hwords]
  exact next_zero

theorem newvm_map_keeps_stale :
    ∃ vm kernel_top page supply, KernelState smallImage vm kernel_top [kernel_top] ∧
      vm.supply = page :: supply ∧ vm.mem (P2V page) 0#9 = page ||| PTE_PRESENT ||| PTE_RW ||| PTE_USER ∧
      ∃ vm', newvm_map vm kernel_top = some (P2V page, vm') ∧
        ¬NewSpace vm.mem vm'.mem (P2V page) kernel_top := by
  obtain ⟨vm, kernel_top, page, supply, hstate, hsupply, hpage, hwords⟩ :=
    exists_kernelState fun page _ => page ||| PTE_PRESENT ||| PTE_RW ||| PTE_USER
  obtain ⟨vm', hres, hiff⟩ := newvm_map_newSpace_iff hstate hsupply
  have hword : vm.mem (P2V page) 0#9 = page ||| PTE_PRESENT ||| PTE_RW ||| PTE_USER := by
    rw [hwords]
  refine ⟨vm, kernel_top, page, supply, hstate, hsupply, hword, vm', hres, ?_⟩
  intro hspace
  apply (hiff.mp hspace).no_return [0#9] (by simp) (by simp)
  . intro i hi
    cases hi
    decide
  . simp only [follow, hword, next_table hpage]

end Vmm
end Franklin
