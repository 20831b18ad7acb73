import Franklin.Exec.Procs
import Franklin.Vmm.Lemmas.Spaces

/-!
This module contains that address spaces which are made by `exec` have the tables and the pages of their lower halves
for themselves.
-/

open Radix

namespace Franklin
namespace Exec

open Vmm (Addr Mem Vm Apart LowerPath P2V PTE_GET_ADDR PTE_PRESENT Free whole single next entries vpn levels index)
open Pmm (bitmap_test FreeRun setRun)

section Allocated

variable {s s' : State} {t page : Addr} {q : Nat}

def Allocated (s : State) (t : Addr) : Prop :=
  ∃ q, q < s.bm.pages ∧ bitmap_test s.bm q = true ∧ t = P2V (frame q)

theorem Allocated.held (h : Allocated s t) (hheld : Held s s') : Allocated s' t := by
  rcases h with ⟨q, hq, hset, ht⟩
  refine ⟨q, ?_, hheld.bits q hq hset, ht⟩
  rw [hheld.pages]
  exact hq

theorem New.allocated (h : New s s' q) (hheld : Held s s') : Allocated s' (P2V (frame q)) := by
  refine ⟨q, ?_, h.2.2, rfl⟩
  rw [hheld.pages]
  exact h.1

theorem P2V_frame_inj {p : Nat} (hp : p < s.bm.pages) (hq : q < s.bm.pages) (h : P2V (frame p) = P2V (frame q))
    : p = q := by
  have hlt := s.bm.pages_lt
  exact frame_inj (by omega) (by omega) (Vmm.P2V_inj h)

theorem Allocated.ne_new (h : Allocated s t) (hq : New s s' q) : t ≠ P2V (frame q) := by
  rcases h with ⟨p, hp, hset, rfl⟩
  intro heq
  have hclear := hq.2.1
  rw [← P2V_frame_inj hp hq.1 heq, hset] at hclear
  cases hclear

theorem Allocated.ne_supply (h : Allocated s t) (hpage : page ∈ s.vm.supply) : t ≠ P2V page := by
  rcases h with ⟨p, hp, hset, rfl⟩
  rcases vm_supply_iff.mp hpage with ⟨q, hq, hclear, rfl⟩
  intro heq
  rw [← P2V_frame_inj hp hq heq, hset] at hclear
  cases hclear

theorem Allocated.aligned (h : Allocated s t) : t.toNat % PGSIZE = 0 := by
  rcases h with ⟨q, _, _, rfl⟩
  exact P2V_frame_aligned q

theorem Held.supply (h : Held s s') (hpage : page ∈ s'.vm.supply) : page ∈ s.vm.supply := by
  rcases vm_supply_iff.mp hpage with ⟨q, hq, hclear, rfl⟩
  rw [h.pages] at hq
  refine vm_supply_iff.mpr ⟨q, hq, ?_, rfl⟩
  rw [Bool.eq_false_iff] at *
  intro hset
  exact hclear (h.bits q hq hset)

end Allocated

section Within

variable {s s' : State} {k top m t : Addr} {all : List Addr} {path : List (BitVec 9)}

theorem Within.kept (h : Within (single top) s s') (ht : Allocated s t)
    (hnot : ∀ path, ¬ (single top).Reaches next s.mem path t) : s'.mem t = s.mem t := by
  rcases ht with ⟨q, hq, hset, rfl⟩
  exact (h.set_eq hq hset hnot).1

theorem Within.reaches_before (hwithin : Within (single top) s s') (ht : Allocated s t)
    (h : (single top).Reaches next s'.mem path t) : (single top).Reaches next s.mem path t := by
  rcases hwithin.reaches path t h with hold | ⟨q, hq, heq⟩
  . exact hold
  . exact absurd heq (ht.ne_new hq)

theorem single_whole {mem : Mem} (htop : top ∈ all) (h : (single top).Reaches next mem path t)
    : (whole all).Reaches next mem path t := by
  rcases h with ⟨hpath, root, hroot, hfollow⟩
  rw [hroot] at hfollow
  exact ⟨hpath, top, htop, hfollow⟩

theorem lowerPath_nil : LowerPath [] := by
  intro i hi
  cases hi

theorem lowerPath_of_msb {vaddr : BitVec 64} (h : (vpn vaddr).msb = false) : LowerPath (levels vaddr) := by
  apply LowerPath.of_concat (i := 0#9)
  apply Vmm.lowerPath_levels
  rw [← Bool.not_eq_true, Vmm.msb_vpn_iff] at h
  omega

variable (happ : Apart s.mem k all) (htable : ∀ path t, (whole all).Reaches next s.mem path t → Allocated s t)
    (hwithin : Within (single top) s s') (htop : top ∈ all)

include happ htable hwithin htop

theorem lower_kept (hm : m ∈ all) (hne : m ≠ top) (hlength : path.length ≤ 3) (hlower : LowerPath path)
    (hfollow : follow next s.mem m path = some t) : s'.mem t = s.mem t := by
  have hreaches : (whole all).Reaches next s.mem path t := ⟨Vmm.whole_path hlength, m, hm, hfollow⟩
  apply hwithin.kept (htable path t hreaches)
  intro path' hreaches'
  have heq := happ.forest path path' t hreaches (single_whole htop hreaches')
  rw [← heq, Vmm.single_reaches_iff] at hreaches'
  exact hne (happ.own m hm top htop path t hlength hlower hfollow hreaches'.2)

theorem follow_lower (hm : m ∈ all) (hne : m ≠ top) (hlength : path.length ≤ 3) (hlower : LowerPath path)
    : follow next s'.mem m path = follow next s.mem m path := by
  induction path using List.reverseRecOn with
  | nil => rfl
  | append_singleton path i ih =>
    rw [List.length_append, List.length_singleton] at hlength
    rw [follow_concat, follow_concat, ih (by omega) hlower.of_concat]
    apply Option.bind_congr
    intro t ht
    rw [lower_kept happ htable hwithin htop hm hne (by omega) hlower.of_concat ht]

theorem entries_lower (hm : m ∈ all) (hne : m ≠ top) {n : BitVec 36} (hn : n.msb = false)
    : entries s'.mem m n = entries s.mem m n := by
  have hlower : LowerPath (levels (n.setWidth 64 <<< 12)) := by
    apply lowerPath_of_msb
    rw [Vmm.vpn_page]
    exact hn
  unfold Vmm.entries Vmm.walk leaf
  rw [follow_lower happ htable hwithin htop hm hne (by simp [Vmm.levels]) hlower]
  split
  . rfl
  . next t ht => rw [lower_kept happ htable hwithin htop hm hne (by simp [Vmm.levels]) hlower ht]

theorem upper_kept (hm : m ∈ all) {i : BitVec 9} (hi : 256 ≤ i.toNat) : s'.mem m i = s.mem m i := by
  by_cases hne : m = top
  . rw [hne]
    apply hwithin.grows [] top i (Shape.Reaches.root rfl) (by simp [Vmm.single, Vmm.tables])
    rw [happ.same top htop i hi]
    exact happ.present i hi
  . have hlength : ([] : List (BitVec 9)).length ≤ 3 := Nat.zero_le 3
    rw [lower_kept happ htable hwithin htop hm hne hlength lowerPath_nil rfl]

theorem follow_cases (hm : m ∈ all) (hlength : path.length ≤ 3) (hfollow : follow next s'.mem m path = some t)
    : (single top).Reaches next s'.mem path t ∨ (m ≠ top ∧ LowerPath path ∧ follow next s.mem m path = some t) := by
  by_cases hne : m = top
  . left
    rw [← hne, Vmm.single_reaches_iff]
    exact ⟨hlength, hfollow⟩
  . by_cases hlower : LowerPath path
    . right
      rw [follow_lower happ htable hwithin htop hm hne hlength hlower] at hfollow
      exact ⟨hne, hlower, hfollow⟩
    . left
      cases path with
      | nil => exact absurd lowerPath_nil hlower
      | cons i path =>
        have hi : 256 ≤ i.toNat := by
          by_contra hlt
          apply hlower
          intro j hj
          rw [← Option.some.inj hj]
          omega
        rw [Vmm.single_reaches_iff]
        refine ⟨hlength, ?_⟩
        rw [← hfollow]
        unfold follow
        rw [upper_kept happ htable hwithin htop htop hi, upper_kept happ htable hwithin htop hm hi,
          happ.same top htop i hi, happ.same m hm i hi]

theorem not_reached (ht : Allocated s t) (hnot : ∀ path, ¬ (whole all).Reaches next s.mem path t)
    : ¬ (whole all).Reaches next s'.mem path t := by
  intro hreaches
  rcases hreaches with ⟨hpath, m, hm, hfollow⟩
  rcases follow_cases happ htable hwithin htop hm hpath.1 hfollow with hnew | ⟨_, _, hold⟩
  . exact hnot path (single_whole htop (hwithin.reaches_before ht hnew))
  . exact hnot path ⟨hpath, m, hm, hold⟩

theorem table_within (h : (whole all).Reaches next s'.mem path t) : Allocated s' t := by
  rcases h with ⟨hpath, m, hm, hfollow⟩
  rcases follow_cases happ htable hwithin htop hm hpath.1 hfollow with hnew | ⟨_, _, hold⟩
  . rcases hwithin.reaches path t hnew with hold | ⟨q, hq, rfl⟩
    . exact (htable path t (single_whole htop hold)).held hwithin.held
    . exact hq.allocated hwithin.held
  . exact (htable path t ⟨hpath, m, hm, hold⟩).held hwithin.held

theorem apart_within : Apart s'.mem k all where
  forest := by
    intro path path' t hreaches hreaches'
    rcases hreaches with ⟨hpath, m, hm, hfollow⟩
    rcases hreaches' with ⟨hpath', m', hm', hfollow'⟩
    rcases follow_cases happ htable hwithin htop hm hpath.1 hfollow with hnew | ⟨_, _, hold⟩
    . rcases follow_cases happ htable hwithin htop hm' hpath'.1 hfollow' with hnew' | ⟨_, _, hold'⟩
      . exact hwithin.good.forest path path' t hnew hnew'
      . have hreaches' : (whole all).Reaches next s.mem path' t := ⟨hpath', m', hm', hold'⟩
        have hbefore := hwithin.reaches_before (htable path' t hreaches') hnew
        exact happ.forest path path' t (single_whole htop hbefore) hreaches'
    . have hreaches : (whole all).Reaches next s.mem path t := ⟨hpath, m, hm, hold⟩
      rcases follow_cases happ htable hwithin htop hm' hpath'.1 hfollow' with hnew' | ⟨_, _, hold'⟩
      . have hbefore := hwithin.reaches_before (htable path t hreaches) hnew'
        exact happ.forest path path' t hreaches (single_whole htop hbefore)
      . exact happ.forest path path' t hreaches ⟨hpath', m', hm', hold'⟩
  kernel_mem := happ.kernel_mem
  same := by
    intro m hm i hi
    rw [upper_kept happ htable hwithin htop hm hi, upper_kept happ htable hwithin htop happ.kernel_mem hi,
      happ.same m hm i hi]
  present := by
    intro i hi
    rw [upper_kept happ htable hwithin htop happ.kernel_mem hi]
    exact happ.present i hi
  own := by
    -- a table that a lower path of another address space leads to was there before
    have hside : ∀ m ∈ all, m ≠ top → ∀ path t, path.length ≤ 3 → LowerPath path →
        follow next s'.mem m path = some t → follow next s'.mem top path ≠ some t := by
      intro m hm hne path t hlength hlower hfollow hfollow'
      rw [follow_lower happ htable hwithin htop hm hne hlength hlower] at hfollow
      have ht := htable path t ⟨Vmm.whole_path hlength, m, hm, hfollow⟩
      have hbefore := hwithin.reaches_before ht (Vmm.single_reaches_iff.mpr ⟨hlength, hfollow'⟩)
      rw [Vmm.single_reaches_iff] at hbefore
      exact hne (happ.own m hm top htop path t hlength hlower hfollow hbefore.2)
    intro m hm m' hm' path t hlength hlower hfollow hfollow'
    by_cases hne : m = top
    . by_cases hne' : m' = top
      . rw [hne, hne']
      . rw [hne] at hfollow
        exact absurd hfollow (hside m' hm' hne' path t hlength hlower hfollow')
    . by_cases hne' : m' = top
      . rw [hne'] at hfollow'
        exact absurd hfollow' (hside m hm hne path t hlength hlower hfollow)
      . rw [follow_lower happ htable hwithin htop hm hne hlength hlower] at hfollow
        rw [follow_lower happ htable hwithin htop hm' hne' hlength hlower] at hfollow'
        exact happ.own m hm m' hm' path t hlength hlower hfollow hfollow'

end Within

structure Backs (mem : Mem) (m : Addr) (n : BitVec 36) (t : Addr) : Prop where
  lower : n.msb = false
  present : ¬ Free (entries mem m n)
  page : t = P2V (PTE_GET_ADDR (entries mem m n))

/--
`maps` are the address spaces that `exec` has made. Their tables and the pages behind their entries are allocated, no
page is a table as well, and no page is behind two entries.
-/
structure Owned (kernel_top : Addr) (maps : List Addr) (s : State) : Prop where
  apart : Apart s.mem kernel_top (maps ++ [kernel_top])
  kernel : kernel_top ∉ maps
  page : ∀ page ∈ s.vm.supply, PTE_GET_ADDR page = page
  clear : ∀ page ∈ s.vm.supply, ∀ i, s.mem (P2V page) i &&& PTE_PRESENT = 0#64
  table : ∀ path t, (whole (maps ++ [kernel_top])).Reaches next s.mem path t → Allocated s t
  backs : ∀ m ∈ maps, ∀ n t, Backs s.mem m n t →
    Allocated s t ∧ ∀ path, ¬ (whole (maps ++ [kernel_top])).Reaches next s.mem path t
  once : ∀ m ∈ maps, ∀ m' ∈ maps, ∀ n n' t, Backs s.mem m n t → Backs s.mem m' n' t → m = m' ∧ n = n'

section Backs

variable {mem mem' : Mem} {m t : Addr} {n : BitVec 36} {a : UserAddr}

theorem Backs.of_entries_eq (h : Backs mem' m n t) (heq : entries mem' m n = entries mem m n) : Backs mem m n t := by
  rcases h with ⟨hlower, hpresent, hpage⟩
  rw [heq] at hpresent hpage
  exact ⟨hlower, hpresent, hpage⟩

def userPage (a : UserAddr) : BitVec 36 :=
  vpn (a.setWidth 64)

def userOffset (a : UserAddr) : Nat :=
  (a.setWidth 64 : BitVec 64).toNat % PGSIZE

theorem userOffset_lt (a : UserAddr) : userOffset a < PGSIZE :=
  Nat.mod_lt _ (by decide)

theorem userPage_msb (a : UserAddr) : (userPage a).msb = false := by
  unfold userPage
  rw [BitVec.msb_eq_getLsbD_last, Vmm.getLsbD_vpn _ (by decide), BitVec.getLsbD_setWidth, BitVec.getLsbD_of_ge a _ (by
    decide), Bool.and_false]

theorem user_eq {a' : UserAddr} (hpage : userPage a = userPage a') (hoffset : userOffset a = userOffset a')
    : a = a' := by
  have hlt := a.isLt
  have hlt' := a'.isLt
  have hnat : ∀ b : UserAddr, (userPage b).toNat = b.toNat / PGSIZE := by
    intro b
    have hb := b.isLt
    unfold userPage Vmm.vpn PGSIZE
    simp only [BitVec.toNat_setWidth, BitVec.toNat_ushiftRight, Nat.shiftRight_eq_div_pow]
    omega
  have hdiv : a.toNat / PGSIZE = a'.toNat / PGSIZE := by
    rw [← hnat, ← hnat, hpage]
  unfold userOffset at hoffset
  rw [BitVec.toNat_setWidth, BitVec.toNat_setWidth] at hoffset
  unfold PGSIZE at *
  apply BitVec.eq_of_toNat_eq
  omega

theorem readUser_backs (h : Backs mem m (userPage a) t)
    : readUser mem m a = some (readByte mem (t + BitVec.ofNat 64 (userOffset a))) := by
  have hpresent : entries mem m (userPage a) &&& PTE_PRESENT ≠ 0#64 := h.present
  unfold readUser readVirt
  dsimp only
  rw [Vmm.walk_eq_entries, ← userPage, if_pos hpresent, h.page]
  rfl

theorem readUser_free (h : Free (entries mem m (userPage a))) : readUser mem m a = none := by
  have habsent : entries mem m (userPage a) &&& PTE_PRESENT = 0#64 := h
  unfold readUser readVirt
  dsimp only
  rw [Vmm.walk_eq_entries, ← userPage, if_neg (not_not.mpr habsent)]

theorem readUser_eq (hentry : entries mem' m (userPage a) = entries mem m (userPage a))
    (hpage : ∀ t, Backs mem m (userPage a) t → t.toNat % PGSIZE = 0 ∧ mem' t = mem t)
    : readUser mem' m a = readUser mem m a := by
  by_cases hfree : Free (entries mem m (userPage a))
  . rw [readUser_free hfree, readUser_free]
    rw [hentry]
    exact hfree
  . have hbacks : Backs mem m (userPage a) (P2V (PTE_GET_ADDR (entries mem m (userPage a)))) :=
      ⟨userPage_msb a, hfree, rfl⟩
    have hbacks' : Backs mem' m (userPage a) (P2V (PTE_GET_ADDR (entries mem m (userPage a)))) := by
      refine ⟨userPage_msb a, ?_, ?_⟩
      . rw [hentry]
        exact hfree
      . rw [hentry]
    rcases hpage _ hbacks with ⟨haligned, heq⟩
    rw [readUser_backs hbacks, readUser_backs hbacks', readByte_congr]
    rw [pageStart_add haligned (userOffset_lt a), heq]

end Backs

def Undisturbed (maps : List Addr) (s s' : State) : Prop :=
  ∀ m ∈ maps, ∀ a, readUser s'.mem m a = readUser s.mem m a

theorem Undisturbed.of_mem_eq {maps : List Addr} {s s' : State} (h : s'.mem = s.mem) : Undisturbed maps s s' := by
  intro m _ a
  rw [h]

theorem Undisturbed.trans {maps : List Addr} {s s' s'' : State} (h : Undisturbed maps s s')
    (h' : Undisturbed maps s' s'') : Undisturbed maps s s'' := by
  intro m hm a
  rw [h' m hm, h m hm]

namespace Owned

variable {s s' s₁ : State} {kernel_top top m t : Addr} {maps : List Addr} {fuel : Nat}

theorem good (h : Owned kernel_top maps s) (htop : top ∈ maps) : Vmm.Good (single top) s.vm := by
  have hmem : top ∈ maps ++ [kernel_top] := List.mem_append_left _ htop
  constructor
  case forest =>
    intro path path' t hreaches hreaches'
    exact h.apart.forest path path' t (single_whole hmem hreaches) (single_whole hmem hreaches')
  case nodup => exact supply_nodup _ _
  case page => exact h.page
  case fresh =>
    intro page hpage path hreaches
    exact (h.table path _ (single_whole hmem hreaches)).ne_supply hpage rfl

section Agree

variable (h : Owned kernel_top maps s) (hheld : Held s s')
    (hagree : Vmm.Agree (whole (maps ++ [kernel_top])) s.mem s'.mem)

include hagree

omit hheld h in
theorem follow_agree {path : List (BitVec 9)} (hm : m ∈ maps ++ [kernel_top]) (hlength : path.length ≤ 3)
    : follow next s'.mem m path = follow next s.mem m path :=
  Shape.follow_eq_of_agree hagree hm (Vmm.whole_path hlength)

omit hheld h in
theorem entries_agree (hm : m ∈ maps ++ [kernel_top]) : entries s'.mem m = entries s.mem m := by
  funext n
  have hlength : (levels (n.setWidth 64 <<< 12)).length ≤ 3 := by simp [Vmm.levels]
  unfold Vmm.entries Vmm.walk leaf
  rw [follow_agree hagree hm hlength]
  split
  . rfl
  . next t ht => rw [hagree _ t ⟨Vmm.whole_path hlength, m, hm, ht⟩]

include h hheld

theorem of_agree (hfree : ∀ page ∈ s'.vm.supply, s'.mem (P2V page) = s.mem (P2V page)) : Owned kernel_top maps s' := by
  have htop : ∀ m ∈ maps ++ [kernel_top], s'.mem m = s.mem m := by
    intro m hm
    exact hagree [] m (Vmm.whole_root hm)
  have hbacks : ∀ m ∈ maps, ∀ n t, Backs s'.mem m n t → Backs s.mem m n t := by
    intro m hm n t hback
    apply hback.of_entries_eq
    rw [entries_agree hagree (List.mem_append_left _ hm)]
  constructor
  case apart =>
    constructor
    case forest =>
      intro path path' t hreaches hreaches'
      exact h.apart.forest path path' t (hagree.reaches_iff.mp hreaches) (hagree.reaches_iff.mp hreaches')
    case kernel_mem => exact h.apart.kernel_mem
    case same =>
      intro m hm i hi
      rw [htop m hm, htop kernel_top h.apart.kernel_mem]
      exact h.apart.same m hm i hi
    case present =>
      intro i hi
      rw [htop kernel_top h.apart.kernel_mem]
      exact h.apart.present i hi
    case own =>
      intro m hm m' hm' path t hlength hlower hfollow hfollow'
      rw [follow_agree hagree hm hlength] at hfollow
      rw [follow_agree hagree hm' hlength] at hfollow'
      exact h.apart.own m hm m' hm' path t hlength hlower hfollow hfollow'
  case kernel => exact h.kernel
  case page =>
    intro page hpage
    exact h.page page (hheld.supply hpage)
  case clear =>
    intro page hpage i
    rw [hfree page hpage]
    exact h.clear page (hheld.supply hpage) i
  case table =>
    intro path t hreaches
    exact (h.table path t (hagree.reaches_iff.mp hreaches)).held hheld
  case backs =>
    intro m hm n t hback
    rcases h.backs m hm n t (hbacks m hm n t hback) with ⟨halloc, hnot⟩
    refine ⟨halloc.held hheld, ?_⟩
    intro path hreaches
    exact hnot path (hagree.reaches_iff.mp hreaches)
  case once =>
    intro m hm m' hm' n n' t hback hback'
    exact h.once m hm m' hm' n n' t (hbacks m hm n t hback) (hbacks m' hm' n' t hback')

end Agree

theorem of_mem_eq (h : Owned kernel_top maps s) (hheld : Held s s') (hmem : s'.mem = s.mem) : Owned kernel_top maps s' := by
  apply h.of_agree hheld
  . intro path t _
    rw [hmem]
  . intro page _
    rw [hmem]

theorem reaches_copyKernel {mem : Mem} {all : List Addr} {path : List (BitVec 9)} (happ : Apart mem kernel_top all)
    (hnew : ∀ path, ¬ (whole all).Reaches next mem path top)
    (hclear : ∀ i : BitVec 9, i.toNat < 256 → mem top i &&& PTE_PRESENT = 0#64)
    (h : (whole (top :: all)).Reaches next (Vmm.newvm_map.copyKernel mem top kernel_top) path t)
    : (whole all).Reaches next mem path t ∨ t = top := by
  rcases h with ⟨hpath, m, hm, hfollow⟩
  rcases List.mem_cons.mp hm with rfl | hm
  . cases path with
    | nil => exact Or.inr (Option.some.inj hfollow).symm
    | cons i path =>
      rw [Apart.follow_new happ hnew hclear (Nat.le_of_succ_le_succ hpath.1)] at hfollow
      split at hfollow
      . exact Or.inl ⟨Vmm.whole_path hpath.1, kernel_top, happ.kernel_mem, hfollow⟩
      . cases hfollow
  . rw [Apart.follow_copyKernel hnew hm hpath.1] at hfollow
    exact Or.inl ⟨Vmm.whole_path hpath.1, m, hm, hfollow⟩

theorem newvm_map_copy (h : Owned kernel_top maps s) (hcopy : newvm_map.copy kernel_top s = .ok top s')
    : Owned kernel_top (top :: maps) s' ∧ top ∉ maps ∧ Undisturbed maps s s' ∧
        entries s'.mem kernel_top = entries s.mem kernel_top := by
  rcases newvm_map.copy_ok hcopy with ⟨page, supply, hsupply, rfl, rfl⟩
  have hpage : page ∈ s.vm.supply := by
    rw [hsupply]
    exact List.mem_cons_self
  have hnodup : s.vm.supply.Nodup := supply_nodup _ _
  rw [hsupply, List.nodup_cons] at hnodup
  have hnew : ∀ path, ¬ (whole (maps ++ [kernel_top])).Reaches next s.mem path (P2V page) := by
    intro path hreaches
    exact (h.table path _ hreaches).ne_supply hpage rfl
  have hclear : ∀ i : BitVec 9, i.toNat < 256 → s.mem (P2V page) i &&& PTE_PRESENT = 0#64 := by
    intro i _
    exact h.clear page hpage i
  rcases @new_of_used s ⟨Vmm.newvm_map.copyKernel s.mem (P2V page) kernel_top, supply⟩ ⟨[page], hsupply⟩ (P2V page)
    ⟨page, hpage, hnodup.1, rfl⟩ with ⟨q, hq, hframe⟩
  have happ : Apart _ kernel_top ((P2V page :: maps) ++ [kernel_top]) := h.apart.copyKernel hnew hclear
  have hreach := fun path t => @reaches_copyKernel kernel_top (P2V page) t s.mem _ path h.apart hnew hclear
  have hentries : ∀ m ∈ maps, entries (Vmm.newvm_map.copyKernel s.mem (P2V page) kernel_top) m = entries s.mem m := by
    intro m hm
    exact Apart.entries_copyKernel hnew (List.mem_append_left _ hm)
  have hkernel : entries (Vmm.newvm_map.copyKernel s.mem (P2V page) kernel_top) kernel_top =
      entries s.mem kernel_top :=
    Apart.entries_copyKernel hnew h.apart.kernel_mem
  have hempty := h.apart.entries_new hnew hclear
  have hother : ∀ t, t ≠ P2V page → Vmm.newvm_map.copyKernel s.mem (P2V page) kernel_top t = s.mem t := by
    intro t ht
    exact Vmm.copyKernel_of_ne ht
  generalize hmem : Vmm.newvm_map.copyKernel s.mem (P2V page) kernel_top = mem at *
  have hheld : Held s (s.withVm ⟨mem, supply⟩) := Held.withVm s _
  have hrest : ∀ p ∈ (s.withVm ⟨mem, supply⟩).vm.supply, p ∈ s.vm.supply ∧ P2V p ≠ P2V page := by
    intro p hp
    refine ⟨hheld.supply hp, ?_⟩
    intro heq
    have hin : p ∈ supply := withVm_supply ⟨[page], hsupply⟩ hp
    rw [Vmm.P2V_inj heq] at hin
    exact hnodup.1 hin
  have hbacks : ∀ m ∈ P2V page :: maps, ∀ n t, Backs mem m n t → m ∈ maps ∧ Backs s.mem m n t := by
    intro m hm n t hback
    rcases List.mem_cons.mp hm with rfl | hm
    . exfalso
      apply hback.present
      rw [hempty, hback.lower]
      exact BitVec.zero_and
    . exact ⟨hm, hback.of_entries_eq (by rw [hentries m hm])⟩
  refine ⟨⟨happ, ?_, ?_, ?_, ?_, ?_, ?_⟩, ?_, ?_, hkernel⟩
  . intro hmem
    rcases List.mem_cons.mp hmem with heq | hmem
    . apply hnew []
      rw [← heq]
      exact Vmm.whole_root h.apart.kernel_mem
    . exact h.kernel hmem
  . intro p hp
    exact h.page p (hrest p hp).1
  . intro p hp i
    show mem (P2V p) i &&& _ = _
    rw [hother _ (hrest p hp).2]
    exact h.clear p (hrest p hp).1 i
  . intro path t hreaches
    rcases hreach path t hreaches with hold | rfl
    . exact (h.table path t hold).held hheld
    . rw [hframe]
      exact hq.allocated hheld
  . intro m hm n t hback
    rcases hbacks m hm n t hback with ⟨hm, hback⟩
    rcases h.backs m hm n t hback with ⟨halloc, hnot⟩
    refine ⟨halloc.held hheld, ?_⟩
    intro path hreaches
    rcases hreach path t hreaches with hold | heq
    . exact hnot path hold
    . exact halloc.ne_supply hpage heq
  . intro m hm m' hm' n n' t hback hback'
    rcases hbacks m hm n t hback with ⟨hm, hback⟩
    rcases hbacks m' hm' n' t hback' with ⟨hm', hback'⟩
    exact h.once m hm m' hm' n n' t hback hback'
  . intro htop
    exact hnew [] (Vmm.whole_root (List.mem_append_left _ htop))
  . intro m hm a
    apply readUser_eq
    . show entries mem m _ = _
      rw [hentries m hm]
    . intro t hback
      rcases h.backs m hm _ t hback with ⟨halloc, _⟩
      exact ⟨halloc.aligned, hother t (halloc.ne_supply hpage)⟩

theorem newvm_map_empty (h : Owned kernel_top maps s) (hnew : newvm_map fuel kernel_top s = .ok top s') {n : BitVec 36}
    (hn : n.msb = false) : entries s'.mem top n = 0#64 := by
  rcases newvm_map_ok hnew with ⟨ptr, s₁, hkalloc, hcopy⟩
  have hheld : Held s s₁ := (wp_of_ok hkalloc).mp (NeverFrees.kalloc s)
  have hmem : s₁.mem = s.mem := by
    rcases kalloc_ok hkalloc with ⟨p, n, heap, slabs, id, _, rfl⟩
    rfl
  have howned := h.of_mem_eq hheld hmem
  rcases newvm_map.copy_ok hcopy with ⟨page, supply, hsupply, rfl, rfl⟩
  have hpage : page ∈ s₁.vm.supply := by
    rw [hsupply]
    exact List.mem_cons_self
  have hnew : ∀ path, ¬ (whole (maps ++ [kernel_top])).Reaches next s₁.mem path (P2V page) := by
    intro path hreaches
    exact (howned.table path _ hreaches).ne_supply hpage rfl
  have hempty := howned.apart.entries_new hnew (fun i _ => howned.clear page hpage i) n
  rw [hn, if_neg (by simp)] at hempty
  exact hempty

theorem newvm_map (h : Owned kernel_top maps s) (hnew : newvm_map fuel kernel_top s = .ok top s')
    : Owned kernel_top (top :: maps) s' ∧ top ∉ maps ∧ Undisturbed maps s s' ∧
        entries s'.mem kernel_top = entries s.mem kernel_top := by
  rcases newvm_map_ok hnew with ⟨ptr, s₁, hkalloc, hcopy⟩
  have hheld : Held s s₁ := (wp_of_ok hkalloc).mp (NeverFrees.kalloc s)
  have hmem : s₁.mem = s.mem := by
    rcases kalloc_ok hkalloc with ⟨p, n, heap, slabs, id, _, rfl⟩
    rfl
  rcases (h.of_mem_eq hheld hmem).newvm_map_copy hcopy with ⟨howned, hnew, hsame, hkernel⟩
  rw [hmem] at hkernel
  exact ⟨howned, hnew, (Undisturbed.of_mem_eq hmem).trans hsame, hkernel⟩

end Owned

structure Fills (top : Addr) (l : List (BitVec 36 × BitVec 64)) (s s' : State) : Prop where
  within : Within (single top) s s'
  entries : entries s'.mem top = FirstWins.insertAll Free (entries s.mem top) l
  page : ∀ e ∈ l, ∃ q, New s s' q ∧ PTE_GET_ADDR e.2 = frame q ∧
    ∀ path, ¬ (single top).Reaches next s'.mem path (P2V (frame q))
  once : ∀ e ∈ l, ∀ e' ∈ l, PTE_GET_ADDR e.2 = PTE_GET_ADDR e'.2 → e.1 = e'.1

section Fills

variable {s s' : State} {kernel_top top m t : Addr} {maps : List Addr} {l : List (BitVec 36 × BitVec 64)}
variable {n : BitVec 36}

theorem Fills.backs (h : Fills top l s s') (hback : Backs s'.mem top n t)
    : Backs s.mem top n t ∨ ∃ e ∈ l, e.1 = n ∧ t = P2V (PTE_GET_ADDR e.2) := by
  have hentry := congrFun h.entries n
  rcases @FirstWins.insertAll_cases _ _ _ Free _ (Vmm.entries s.mem top) l n with hold | hmem
  . left
    apply hback.of_entries_eq
    rw [hentry, hold]
  . right
    refine ⟨_, hmem, rfl, ?_⟩
    rw [← hentry]
    exact hback.page

variable (h : Owned kernel_top maps s) (htop : top ∈ maps) (hfills : Fills top l s s')

include h htop hfills

theorem Owned.backs_fills (hm : m ∈ maps) (hback : Backs s'.mem m n t)
    : Backs s.mem m n t ∨ (m = top ∧ ∃ e ∈ l, e.1 = n ∧ t = P2V (PTE_GET_ADDR e.2)) := by
  by_cases hne : m = top
  . rw [hne] at hback ⊢
    rcases hfills.backs hback with hold | hnew
    . exact Or.inl hold
    . exact Or.inr ⟨rfl, hnew⟩
  . left
    apply hback.of_entries_eq
    exact entries_lower h.apart h.table hfills.within (List.mem_append_left _ htop) (List.mem_append_left _ hm) hne
      hback.lower

theorem Owned.fills : Owned kernel_top maps s' := by
  have hall : top ∈ maps ++ [kernel_top] := List.mem_append_left _ htop
  have hheld := hfills.within.held
  -- a page of the list is not one that was there before
  have hfresh : ∀ e ∈ l, ∀ m ∈ maps, ∀ n, ¬ Backs s.mem m n (P2V (PTE_GET_ADDR e.2)) := by
    intro e he m hm n hback
    rcases hfills.page e he with ⟨q, hq, haddr, _⟩
    apply (h.backs m hm n _ hback).1.ne_new hq
    rw [haddr]
  constructor
  case apart => exact apart_within h.apart h.table hfills.within hall
  case kernel => exact h.kernel
  case page =>
    intro page hpage
    exact h.page page (hheld.supply hpage)
  case clear =>
    intro page hpage i
    have hold := h.clear page (hheld.supply hpage) i
    rcases vm_supply_iff.mp hpage with ⟨q, hq, hclear, rfl⟩
    rw [hheld.pages] at hq
    rw [hfills.within.clear_eq (h.good htop) hq hclear]
    exact hold
  case table =>
    intro path t hreaches
    exact table_within h.apart h.table hfills.within hall hreaches
  case backs =>
    intro m hm n t hback
    rcases h.backs_fills htop hfills hm hback with hold | ⟨_, e, he, _, rfl⟩
    . rcases h.backs m hm n t hold with ⟨halloc, hnot⟩
      refine ⟨halloc.held hheld, ?_⟩
      intro path
      exact not_reached h.apart h.table hfills.within hall halloc hnot
    . rcases hfills.page e he with ⟨q, hq, haddr, htable⟩
      rw [haddr]
      refine ⟨hq.allocated hheld, ?_⟩
      rintro path ⟨hpath, m', hm', hfollow⟩
      rcases follow_cases h.apart h.table hfills.within hall hm' hpath.1 hfollow with hnew | ⟨_, _, hold⟩
      . exact htable path hnew
      . exact (h.table path _ ⟨hpath, m', hm', hold⟩).ne_new hq rfl
  case once =>
    intro m hm m' hm' n n' t hback hback'
    rcases h.backs_fills htop hfills hm hback with hold | ⟨hmtop, e, he, hn, ht⟩
    . rcases h.backs_fills htop hfills hm' hback' with hold' | ⟨_, e', he', _, ht'⟩
      . exact h.once m hm m' hm' n n' t hold hold'
      . rw [ht'] at hold
        exact absurd hold (hfresh e' he' m hm n)
    . rcases h.backs_fills htop hfills hm' hback' with hold' | ⟨hmtop', e', he', hn', ht'⟩
      . rw [ht] at hold'
        exact absurd hold' (hfresh e he m' hm' n')
      . rw [ht] at ht'
        refine ⟨hmtop.trans hmtop'.symm, ?_⟩
        rw [← hn, ← hn']
        exact hfills.once e he e' he' (Vmm.P2V_inj ht')

theorem Owned.fills_undisturbed (hm : m ∈ maps) (hne : m ≠ top) (a : UserAddr)
    : readUser s'.mem m a = readUser s.mem m a := by
  have hall : top ∈ maps ++ [kernel_top] := List.mem_append_left _ htop
  apply readUser_eq
  . exact entries_lower h.apart h.table hfills.within hall (List.mem_append_left _ hm) hne (userPage_msb a)
  . intro t hback
    rcases h.backs m hm _ t hback with ⟨halloc, hnot⟩
    refine ⟨halloc.aligned, hfills.within.kept halloc ?_⟩
    intro path hreaches
    exact hnot path (single_whole hall hreaches)

end Fills

end Exec
end Franklin
