import Franklin.Exec.Lemmas.Owned
import Franklin.Vmm.Lemmas.Boot

/-!
This module contains that programs have their memory for themselves: what one of them reads is what its `exec` has
put there or what it has written since.
-/

open Radix

namespace Franklin
namespace Exec

open Vmm (Addr Mem Apart P2V PTE_GET_ADDR PTE_PRESENT PTE_RW PTE_USER Free whole single next entries vpn page)
open Pmm (bitmap_test FreeRun setRun)

section Loading

variable {s s' s₁ : State} {kernel_top top paddr : Addr} {maps : List Addr} {p n : Nat} {vaddr flags : BitVec 64}
variable {vn : Fs.File} {phdr : Block} {rest : List (Block × Nat)} {locals : Locals}

theorem fills_of_run (hwithin : Within (single top) s s') (hpage : ∀ page ∈ s.vm.supply, PTE_GET_ADDR page = page)
    (hentries : entries s'.mem top = FirstWins.insertAll Free (entries s.mem top)
      ((List.range' 0 n).map (Vmm.mappages.mapping vaddr (frame p) flags)))
    (hflags : PTE_GET_ADDR flags = 0#64)
    (hrun : ∀ q, p ≤ q → q < p + n → New s s' q ∧ ∀ path, ¬ (single top).Reaches next s'.mem path (P2V (frame q)))
    : Fills top ((List.range' 0 n).map (Vmm.mappages.mapping vaddr (frame p) flags)) s s' := by
  have haddr : ∀ i, i < n → PTE_GET_ADDR (page (frame p) i ||| flags) = frame (p + i) := by
    intro i hi
    rcases (hrun (p + i) (by omega) (by omega)).1 with ⟨hlt, hclear, _⟩
    have hframe : PTE_GET_ADDR (page (frame p) i) = page (frame p) i := by
      rw [page_frame]
      exact hpage _ (vm_supply_iff.mpr ⟨p + i, hlt, hclear, rfl⟩)
    rw [((Vmm.split_or_iff _ _).mpr ⟨hframe, hflags⟩).1, page_frame]
  have hmem : ∀ e ∈ (List.range' 0 n).map (Vmm.mappages.mapping vaddr (frame p) flags), ∃ i, i < n ∧
      e.1 = vpn vaddr + BitVec.ofNat 36 i ∧ PTE_GET_ADDR e.2 = frame (p + i) := by
    intro e he
    rcases List.mem_map.mp he with ⟨i, hi, rfl⟩
    have hlt : i < n := by
      have := (List.mem_range'_1.mp hi).2
      omega
    exact ⟨i, hlt, rfl, haddr i hlt⟩
  constructor
  case within => exact hwithin
  case entries => exact hentries
  case page =>
    intro e he
    rcases hmem e he with ⟨i, hi, _, hframe⟩
    rcases hrun (p + i) (by omega) (by omega) with ⟨hnew, htable⟩
    exact ⟨p + i, hnew, hframe, htable⟩
  case once =>
    intro e he e' he' heq
    rcases hmem e he with ⟨i, hi, hfst, hframe⟩
    rcases hmem e' he' with ⟨j, hj, hfst', hframe'⟩
    rw [hframe, hframe'] at heq
    have hi' := (hrun (p + i) (by omega) (by omega)).1.1
    have hj' := (hrun (p + j) (by omega) (by omega)).1.1
    have hpages := s.bm.pages_lt
    have hindex := frame_inj (by omega) (by omega) heq
    have hsame : i = j := by omega
    rw [hfst, hfst', hsame]

theorem Loads.fills (h : Loads top vn phdr s s' p) (hpage : ∀ page ∈ s.vm.supply, PTE_GET_ADDR page = page)
    : Fills top ((List.range' 0 (pagecount phdr).toNat).map
        (Vmm.mappages.mapping (p_vaddr phdr) (frame p) (Exec.flags phdr))) s s' := by
  apply fills_of_run h.within hpage h.entries (flags_addr phdr)
  intro q hq hq'
  have hle := h.run.1
  exact ⟨⟨by omega, h.run.2 q hq hq', h.taken q hq hq'⟩, h.apart q hq hq'⟩

def UpperStays (kernel_top : Addr) (s s' : State) : Prop :=
  ∀ n : BitVec 36, n.msb = true → ¬ Free (entries s.mem kernel_top n) →
    entries s'.mem kernel_top n = entries s.mem kernel_top n

theorem UpperStays.of_eq (h : entries s'.mem kernel_top = entries s.mem kernel_top)
    : UpperStays kernel_top s s' := by
  intro n _ _
  rw [h]

theorem UpperStays.trans {s'' : State} (h : UpperStays kernel_top s s') (h' : UpperStays kernel_top s' s'')
    : UpperStays kernel_top s s'' := by
  intro n hn hfree
  have hstays := h n hn hfree
  rw [← hstays] at hfree
  rw [h' n hn hfree, hstays]

structure OnlyOne (kernel_top : Addr) (maps : List Addr) (top : Addr) (s s' : State) : Prop where
  owned : Owned kernel_top maps s'
  other : ∀ m ∈ maps, m ≠ top → ∀ a, readUser s'.mem m a = readUser s.mem m a
  upper : UpperStays kernel_top s s'

theorem OnlyOne.trans {s'' : State} (h : OnlyOne kernel_top maps top s s') (h' : OnlyOne kernel_top maps top s' s'')
    : OnlyOne kernel_top maps top s s'' := by
  refine ⟨h'.owned, ?_, h.upper.trans h'.upper⟩
  intro m hm hne a
  rw [h'.other m hm hne, h.other m hm hne]

theorem Owned.only_of_fills {l : List (BitVec 36 × BitVec 64)} (h : Owned kernel_top maps s) (htop : top ∈ maps)
    (hfills : Fills top l s s') : OnlyOne kernel_top maps top s s' := by
  have howned := h.fills htop hfills
  have hall : top ∈ maps ++ [kernel_top] := List.mem_append_left _ htop
  refine ⟨howned, ?_, ?_⟩
  . intro m hm hne a
    exact h.fills_undisturbed htop hfills hm hne a
  . -- all top levels have the same upper half, and the first entry for a page stays
    intro n hn hfree
    rw [← h.apart.entries_upper hall hn] at hfree ⊢
    rw [← howned.apart.entries_upper hall hn, hfills.entries, FirstWins.insertAll_of_not_free hfree]

theorem Owned.only_of_mem_eq (h : Owned kernel_top maps s) (hheld : Held s s') (hmem : s'.mem = s.mem)
    : OnlyOne kernel_top maps top s s' := by
  refine ⟨h.of_mem_eq hheld hmem, ?_, UpperStays.of_eq (by rw [hmem])⟩
  intro m _ _ a
  rw [hmem]

theorem Owned.loaded (h : Owned kernel_top maps s) (htop : top ∈ maps) (hloaded : Loaded top vn rest s s')
    : OnlyOne kernel_top maps top s s' := by
  induction hloaded with
  | nil _ => exact h.only_of_mem_eq (Held.refl _) rfl
  | cons hloads _ ih =>
    have hone := h.only_of_fills htop (hloads.fills h.page)
    exact hone.trans (ih hone.owned)

end Loading

section Writing

variable {s s' : State} {kernel_top top m t : Addr} {maps : List Addr} {mem mem' : Mem} {k p : Nat}

theorem Owned.agree_of_writes (h : Owned kernel_top maps s) (X : Addr → Prop)
    (hmem : ∀ t, t.toNat % PGSIZE = 0 → ¬ X t → s'.mem t = s.mem t)
    (hX : ∀ t, X t → ∀ path, ¬ (whole (maps ++ [kernel_top])).Reaches next s.mem path t)
    : Vmm.Agree (whole (maps ++ [kernel_top])) s.mem s'.mem := by
  intro path t hreaches
  apply hmem t (h.table path t hreaches).aligned
  intro ht
  exact hX t ht path hreaches

theorem Owned.only_of_writes (h : Owned kernel_top maps s) (hheld : Held s s') (X : Addr → Prop)
    (hmem : ∀ t, t.toNat % PGSIZE = 0 → ¬ X t → s'.mem t = s.mem t)
    (hX : ∀ t, X t → Allocated s t ∧ (∀ path, ¬ (whole (maps ++ [kernel_top])).Reaches next s.mem path t) ∧
      ∀ m ∈ maps, m ≠ top → ∀ n, ¬ Backs s.mem m n t)
    : OnlyOne kernel_top maps top s s' := by
  have hagree := h.agree_of_writes X hmem fun t ht => (hX t ht).2.1
  refine ⟨?_, ?_, UpperStays.of_eq (Owned.entries_agree hagree h.apart.kernel_mem)⟩
  . apply h.of_agree hheld hagree
    intro page hpage
    have hold := hheld.supply hpage
    apply hmem
    . rcases vm_supply_iff.mp hold with ⟨q, _, _, rfl⟩
      exact P2V_frame_aligned q
    . intro ht
      exact (hX _ ht).1.ne_supply hold rfl
  . intro m hm hne a
    apply readUser_eq
    . rw [Owned.entries_agree hagree (List.mem_append_left _ hm)]
    . intro t hback
      have haligned := (h.backs m hm _ t hback).1.aligned
      refine ⟨haligned, hmem t haligned ?_⟩
      intro ht
      exact (hX t ht).2.2 m hm hne _ hback

theorem writeByte_page {b : UInt8} (ht : t.toNat % PGSIZE = 0) (hm : m.toNat % PGSIZE = 0) (hk : k < PGSIZE)
    (hne : t ≠ m) : writeBytes mem (m + BitVec.ofNat 64 k) 1 (fun _ => b) t = mem t := by
  apply page_ext ht
  intro j hj
  rw [readByte_writeBytes, if_neg]
  intro hlt
  apply hne
  have hzero : t + BitVec.ofNat 64 j - (m + BitVec.ofNat 64 k) = 0#64 := by
    apply BitVec.eq_of_toNat_eq
    rw [BitVec.toNat_ofNat, Nat.zero_mod]
    omega
  rw [BitVec.sub_eq_iff_eq_add, BitVec.zero_add] at hzero
  rw [← pageStart_add ht hj, hzero, pageStart_add hm hk]

theorem readByte_writeByte {b : UInt8} {j : Nat} (hj : j < PGSIZE) (hk : k < PGSIZE)
    : readByte (writeBytes mem (m + BitVec.ofNat 64 k) 1 fun _ => b) (m + BitVec.ofNat 64 j) =
        if j = k then b else readByte mem (m + BitVec.ofNat 64 j) := by
  have hiff : (m + BitVec.ofNat 64 j - (m + BitVec.ofNat 64 k)).toNat < 1 ↔ j = k := by
    have hlt := m.isLt
    unfold PGSIZE at hj hk
    simp only [BitVec.toNat_sub, BitVec.toNat_add, BitVec.toNat_ofNat]
    omega
  rw [readByte_writeBytes]
  simp only [hiff]

theorem writable_or {frame flags : BitVec 64} (h : PTE_GET_ADDR frame = frame) (hflags : Writable flags)
    : Writable (frame ||| flags) := by
  rcases hflags with ⟨hpresent, hrw, huser⟩
  refine ⟨?_, ?_, ?_⟩
  . rwa [PTE_PRESENT, ne_eq, Vmm.or_and_bit_iff h (by decide) (by decide)]
  . rwa [PTE_RW, ne_eq, Vmm.or_and_bit_iff h (by decide) (by decide)]
  . rwa [PTE_USER, ne_eq, Vmm.or_and_bit_iff h (by decide) (by decide)]

theorem writeVirt_backs {a : UserAddr} {b : UInt8} (h : writeVirt mem top (a.setWidth 64) b = some mem')
    : ∃ t, Backs mem top (userPage a) t ∧
        mem' = writeBytes mem (t + BitVec.ofNat 64 (userOffset a)) 1 fun _ => b := by
  unfold writeVirt at h
  dsimp only at h
  rw [Vmm.walk_eq_entries, ← userPage, ← userOffset] at h
  split at h
  . next hwritable =>
    refine ⟨_, ⟨userPage_msb a, ?_, rfl⟩, (Option.some.inj h).symm⟩
    unfold Writable at hwritable
    exact hwritable.1
  . cases h

section Store

variable {a : UserAddr} {b : UInt8} (h : Owned kernel_top maps s) (htop : top ∈ maps)
    (hback : Backs s.mem top (userPage a) t)
    (hmem : mem = writeBytes s.mem (t + BitVec.ofNat 64 (userOffset a)) 1 fun _ => b)

include h htop hback hmem

theorem Owned.store_page {t' : Addr} (ht' : t'.toNat % PGSIZE = 0) (hne : t' ≠ t) : mem t' = s.mem t' := by
  rw [hmem]
  exact writeByte_page ht' (h.backs top htop _ t hback).1.aligned (userOffset_lt a) hne

theorem Owned.store_only : OnlyOne kernel_top maps top s { s with mem } := by
  have hheld : Held s { s with mem } := Held.of_eq rfl
  rcases h.backs top htop _ t hback with ⟨halloc, hnot⟩
  apply h.only_of_writes hheld (fun t' => t' = t)
  . intro t' ht' hne
    exact h.store_page htop hback hmem ht' hne
  . rintro t' rfl
    refine ⟨halloc, hnot, ?_⟩
    intro m hm hne n hback'
    exact hne (h.once m hm top htop n _ t' hback' hback).1

theorem Owned.store_read (a' : UserAddr)
    : readUser mem top a' = if a' = a then some b else readUser s.mem top a' := by
  rcases h.backs top htop _ t hback with ⟨halloc, hnot⟩
  have hagree : Vmm.Agree (whole (maps ++ [kernel_top])) s.mem mem := by
    intro path t' hreaches
    apply h.store_page htop hback hmem (h.table path t' hreaches).aligned
    rintro rfl
    exact hnot path hreaches
  have hentries : entries mem top = entries s.mem top :=
    @Owned.entries_agree s { s with mem } kernel_top top maps hagree (List.mem_append_left _ htop)
  by_cases hpage : userPage a' = userPage a
  . -- the offsets in the page decide
    have hiff : userOffset a' = userOffset a ↔ a' = a := by
      constructor
      . exact user_eq hpage
      . rintro rfl
        rfl
    rw [← hpage] at hback
    have hback' : Backs mem top (userPage a') t := by
      rcases hback with ⟨hlower, hpresent, ht⟩
      rw [← hentries] at hpresent ht
      exact ⟨hlower, hpresent, ht⟩
    rw [readUser_backs hback', readUser_backs hback, hmem, readByte_writeByte (userOffset_lt a') (userOffset_lt a),
      apply_ite some]
    simp only [hiff]
  . rw [if_neg (by rintro rfl; exact hpage rfl)]
    apply readUser_eq
    . rw [hentries]
    . intro t' hback'
      have haligned := (h.backs top htop _ t' hback').1.aligned
      refine ⟨haligned, h.store_page htop hback hmem haligned ?_⟩
      rintro rfl
      exact hpage (h.once top htop top htop _ _ t' hback' hback).2

end Store

end Writing

section Exec

variable {s s' s₁ : State} {kernel_top top stack sp : Addr} {maps : List Addr} {p fuel : Nat} {locals : Locals}
variable {name : Fs.Name} {argv : List Arg} {aux : Auxval}

theorem loadelf_ok (h : loadelf fuel locals name top s = .ok aux s')
    : ∃ vn fs, opened fuel locals name s = some vn ∧ loadelf.file locals top vn { s with fs } = .ok aux s' := by
  unfold loadelf at h
  rcases ok_of_bind h with ⟨vn, s₁, hopen, h⟩
  unfold vfs_open at hopen
  split at hopen
  . next error v fs hres =>
    cases hopen
    have hopened : opened fuel locals name s = (v.map s.file <|> locals.vn) := by
      unfold opened
      rw [hres]
    rw [← hopened] at h
    cases hvn : opened fuel locals name s with
    | none =>
      rw [hvn] at h
      cases h
    | some vn =>
      rw [hvn] at h
      exact ⟨vn, fs, rfl, h⟩
  . cases hopen

structure StackPages (kernel_top : Addr) (maps : List Addr) (top : Addr) (p : Nat) (s : State) : Prop where
  allocated : ∀ q, p ≤ q → q < p + STACKSIZE / PGSIZE → Allocated s (P2V (frame q))
  table : ∀ q, p ≤ q → q < p + STACKSIZE / PGSIZE →
    ∀ path, ¬ (whole (maps ++ [kernel_top])).Reaches next s.mem path (P2V (frame q))
  other : ∀ q, p ≤ q → q < p + STACKSIZE / PGSIZE → ∀ m ∈ maps, m ≠ top → ∀ n, ¬ Backs s.mem m n (P2V (frame q))

theorem stackSize_pages : (BitVec.ofNat 64 STACKSIZE).toNat / PGSIZE = STACKSIZE / PGSIZE := by
  decide

theorem Owned.stack_pages (h : Owned kernel_top maps s) (htop : top ∈ maps)
    (hpalloc : palloc (STACKSIZE / PGSIZE) s = .ok stack s₁)
    (hmap : mappages top exec.stackva stack (BitVec.ofNat 64 STACKSIZE) (PTE_PRESENT ||| PTE_RW ||| PTE_USER) s₁ =
      .ok () s')
    : ∃ p, stack = frame p ∧ OnlyOne kernel_top maps top s s' ∧ StackPages kernel_top maps top p s' := by
  have hgood := h.good htop
  have hall : top ∈ maps ++ [kernel_top] := List.mem_append_left _ htop
  rcases (wp_of_ok hpalloc).mp (palloc_wp s (by decide)) with ⟨p, rfl, hrun, hs₁, _⟩
  have hset : Within (single top) s s₁ := by
    rw [hs₁]
    exact Within.setRun hgood p _
  have hmaps := (wp_of_ok hmap).mp (mappages_wp hset.good)
  have hwithin := hset.trans hmaps.within
  have hkept : ∀ q, p ≤ q → q < p + STACKSIZE / PGSIZE →
      New s s' q ∧ ∀ path, ¬ (single top).Reaches next s'.mem path (P2V (frame q)) := by
    intro q hq hq'
    rcases run_kept hgood hrun hs₁ hmaps.within hq hq' with ⟨hnew, _, htable⟩
    exact ⟨hnew, htable⟩
  have hentries := hmaps.entries
  rw [stackSize_pages, hs₁] at hentries
  have hfills := fills_of_run hwithin h.page hentries (by decide) hkept
  refine ⟨p, rfl, h.only_of_fills htop hfills, ?_⟩
  constructor
  case allocated =>
    intro q hq hq'
    exact (hkept q hq hq').1.allocated hwithin.held
  case table =>
    rintro q hq hq' path ⟨hpath, m, hm, hfollow⟩
    rcases follow_cases h.apart h.table hwithin hall hm hpath.1 hfollow with hnew | ⟨_, _, hold⟩
    . exact (hkept q hq hq').2 path hnew
    . exact (h.table path _ ⟨hpath, m, hm, hold⟩).ne_new (hkept q hq hq').1 rfl
  case other =>
    intro q hq hq' m hm hne n hback
    rcases h.backs_fills htop hfills hm hback with hold | ⟨heq, _⟩
    . exact (h.backs m hm n _ hold).1.ne_new (hkept q hq hq').1 rfl
    . exact hne heq

theorem not_inStack_of_page {t : Addr} {k : Nat} (ht : t.toNat % PGSIZE = 0) (hk : k < PGSIZE)
    (hne : ∀ q, p ≤ q → q < p + STACKSIZE / PGSIZE → t ≠ P2V (frame q))
    : ¬ InStack (frame p) (t + BitVec.ofNat 64 k) := by
  intro hin
  unfold InStack at hin
  generalize hj : (t + BitVec.ofNat 64 k - P2V (frame p)).toNat = j at hin
  have hbyte : t + BitVec.ofNat 64 k = P2V (frame p) + BitVec.ofNat 64 j := by
    rw [← hj, BitVec.ofNat_toNat, BitVec.setWidth_eq, BitVec.add_comm (P2V (frame p)), BitVec.sub_add_cancel]
  have hlt : j / PGSIZE < STACKSIZE / PGSIZE := by
    have hsize : STACKSIZE = STACKSIZE / PGSIZE * PGSIZE := by decide
    rw [Nat.div_lt_iff_lt_mul (by decide), ← hsize]
    exact hin
  apply hne (p + j / PGSIZE) (Nat.le_add_right _ _) (by omega)
  rw [← pageStart_add ht hk, hbyte, pageStart_frame]

theorem putargs_page (hsmall : (frame p).toNat + STACKSIZE < 2 ^ 64) (hfit : imageSize argv ≤ STACKSIZE)
    (hargs : exec.putargs (frame p + BitVec.ofNat 64 STACKSIZE) argv aux s = .ok sp s') (t : Addr)
    (ht : t.toNat % PGSIZE = 0) (hnot : ¬ ∃ q, p ≤ q ∧ q < p + STACKSIZE / PGSIZE ∧ t = P2V (frame q))
    : s'.mem t = s.mem t := by
  have hinside := (@argsInside_iff s (frame p) argv aux hsmall).mpr hfit s.mem
  have hbytes := (wp_of_ok hargs).mp hinside
  apply page_ext ht
  intro k hk
  apply hbytes
  apply not_inStack_of_page ht hk
  intro q hq hq' heq
  exact hnot ⟨q, hq, hq', heq⟩

theorem Owned.putargs (h : Owned kernel_top maps s) (hstack : StackPages kernel_top maps top p s)
    (hsmall : (frame p).toNat + STACKSIZE < 2 ^ 64) (hfit : imageSize argv ≤ STACKSIZE)
    (hargs : exec.putargs (frame p + BitVec.ofNat 64 STACKSIZE) argv aux s = .ok sp s')
    : OnlyOne kernel_top maps top s s' := by
  have hheld : Held s s' := ((wp_of_ok hargs).mp (LeavesHeap.putargs s)).held
  apply h.only_of_writes hheld _ (putargs_page hsmall hfit hargs)
  rintro t ⟨q, hq, hq', rfl⟩
  exact ⟨hstack.allocated q hq hq', hstack.table q hq hq', hstack.other q hq hq'⟩

theorem Owned.putargs_entries (h : Owned kernel_top maps s) (htop : top ∈ maps)
    (hstack : StackPages kernel_top maps top p s) (hsmall : (frame p).toNat + STACKSIZE < 2 ^ 64)
    (hfit : imageSize argv ≤ STACKSIZE)
    (hargs : exec.putargs (frame p + BitVec.ofNat 64 STACKSIZE) argv aux s = .ok sp s')
    : entries s'.mem top = entries s.mem top := by
  have hagree := h.agree_of_writes _ (putargs_page hsmall hfit hargs) (by
    rintro t ⟨q, hq, hq', rfl⟩
    exact hstack.table q hq hq')
  exact Owned.entries_agree hagree (List.mem_append_left _ htop)

theorem Owned.loadelf (h : Owned kernel_top maps s) (htop : top ∈ maps)
    (hfits : ∀ vn, opened fuel locals name s = some vn → ∀ phdr ∈ segments locals vn, Fits vn phdr)
    (hload : loadelf fuel locals name top s = .ok aux s') : OnlyOne kernel_top maps top s s' := by
  rcases loadelf_ok hload with ⟨vn, fs, hopened, hfile⟩
  have howned : Owned kernel_top maps { s with fs } := h.of_mem_eq (Held.of_eq rfl) rfl
  rcases (wp_of_ok hfile).mp (file_wp (howned.good htop) (hfits vn hopened)) with ⟨rest, _, hloaded⟩
  have hfirst : OnlyOne kernel_top maps top s { s with fs } := h.only_of_mem_eq (Held.of_eq rfl) rfl
  exact hfirst.trans (howned.loaded htop hloaded)

theorem Owned.load (h : Owned kernel_top maps s) (hcontained : Contained fuel locals name argv s)
    (hload : exec.load fuel locals kernel_top name s = .ok (top, stack, aux) s')
    : top ∉ maps ∧ OnlyOne kernel_top (top :: maps) top s s' ∧
        ∃ p, stack = frame p ∧ StackPages kernel_top (top :: maps) top p s' := by
  unfold exec.load at hload
  rcases ok_of_bind hload with ⟨top', s₁, hnew, hload⟩
  rcases ok_of_bind hload with ⟨aux', s₂, hloadelf, hload⟩
  rcases ok_of_bind hload with ⟨paddr, s₃, hpalloc, hload⟩
  rcases ok_of_bind hload with ⟨_, s₄, hmap, hload⟩
  rcases ok_of_bind hload with ⟨_, s₅, hmodify, hload⟩
  cases hmodify
  cases hload
  rcases h.newvm_map hnew with ⟨howned, hfresh, hsame, hkernel⟩
  have htop : top ∈ top :: maps := List.mem_cons_self
  have hone₁ : OnlyOne kernel_top (top :: maps) top s s₁ := by
    refine ⟨howned, ?_, UpperStays.of_eq hkernel⟩
    intro m hm hne
    exact hsame m ((List.mem_cons.mp hm).resolve_left hne)
  have hopened : opened fuel locals name s₁ = opened fuel locals name s := by
    rcases newvm_map_files hnew with ⟨hfs, hfile⟩
    unfold opened
    rw [hfs, hfile]
  have hone₂ := howned.loadelf htop (by rw [hopened]; exact hcontained.segments) hloadelf
  rcases hone₂.owned.stack_pages htop hpalloc hmap with ⟨p, hstack, hone₃, hpages⟩
  refine ⟨hfresh, ?_, p, hstack, ?_⟩
  . apply (hone₁.trans (hone₂.trans hone₃)).trans
    exact hone₃.owned.only_of_mem_eq (Held.of_eq rfl) rfl
  . exact ⟨hpages.allocated, hpages.table, hpages.other⟩

theorem exec_rest (hload : exec.load fuel locals kernel_top name s = .ok (top, stack, aux) s₁)
    (hexec : exec fuel locals kernel_top name argv s = .ok sp s') : Held s₁ s' := by
  unfold exec at hexec
  rw [bind_of_ok hload] at hexec
  dsimp only at hexec
  rcases ok_of_bind hexec with ⟨sp', s₂, hargs, hexec⟩
  rcases ok_of_bind hexec with ⟨_, s₃, hmodify, hexec⟩
  rcases ok_of_bind hexec with ⟨ptr, s₄, hkalloc, hexec⟩
  rcases ok_of_bind hexec with ⟨page, s₅, hpalloc, hexec⟩
  rcases ok_of_bind hexec with ⟨_, s₆, hmodify', hexec⟩
  cases hexec
  cases hmodify
  cases hmodify'
  have hheld₂ : Held s₁ s₂ := ((wp_of_ok hargs).mp (LeavesHeap.putargs s₁)).held
  have hheld₄ := (wp_of_ok hkalloc).mp (NeverFrees.kalloc _)
  have hheld₅ : Held s₄ s₅ := ((wp_of_ok hpalloc).mp (LeavesHeap.palloc (by decide) s₄)).held
  have hheld : Held s₁ s₅ := hheld₂.trans (Held.trans ⟨hheld₄.pages, hheld₄.bits⟩ hheld₅)
  exact ⟨hheld.pages, hheld.bits⟩

theorem Owned.exec (h : Owned kernel_top maps s) (hcontained : Contained fuel locals name argv s)
    (hexec : exec fuel locals kernel_top name argv s = .ok sp s')
    : s'.vmap ∉ maps ∧ OnlyOne kernel_top (s'.vmap :: maps) s'.vmap s s' := by
  rcases exec_ok hexec with ⟨stack, aux, s₁, hstarts⟩
  rcases h.load hcontained hstarts.load with ⟨hfresh, hone, p, rfl, hpages⟩
  have hsmall := (exec.load_ok hstarts.load).stack_toNat
  have hone' := hone.owned.putargs hpages hsmall hcontained.args hstarts.putargs
  have hheld := exec_rest hstarts.load hexec
  have hrest : OnlyOne kernel_top (s₁.vmap :: maps) s₁.vmap { s₁ with mem := s'.mem } s' :=
    hone'.owned.only_of_mem_eq ⟨hheld.pages, hheld.bits⟩ rfl
  rw [hstarts.vmap]
  exact ⟨hfresh, hone.trans (hone'.trans hrest)⟩

end Exec

section Boot

variable {s : State} {kernel_top : Addr} {image : Vmm.KernelImage}

theorem Booted.owned (h : Booted image kernel_top s) : Owned kernel_top [] s := by
  rcases h with ⟨s₀, vm, hpage, hclear, hinit, rfl⟩
  have hnodup : s₀.vm.supply.Nodup := supply_nodup _ _
  rcases Vmm.init_vm_spec hnodup hpage hinit with ⟨hgood, hpresent⟩
  rcases Vmm.init_vm_confined hnodup hpage hinit with ⟨page, supply, hsupply, htop, hgood₀, hconf⟩
  have hsuffix : ∃ used, s₀.vm.supply = used ++ vm.supply := by
    rcases hconf.supply with ⟨used, hused⟩
    have hused : supply = used ++ vm.supply := hused
    refine ⟨page :: used, ?_⟩
    rw [hsupply, hused, List.cons_append]
  have hkept : ∀ p ∈ (s₀.withVm vm).vm.supply, p ∈ s₀.vm.supply ∧ vm.mem (P2V p) = s₀.mem (P2V p) := by
    intro p hp
    exact Vmm.init_vm_kept hnodup hpage hinit (withVm_supply hsuffix hp)
  rw [hsupply, List.nodup_cons] at hnodup
  constructor
  case apart => exact Apart.of_single hgood hpresent
  case kernel => exact List.not_mem_nil
  case page =>
    intro p hp
    exact hpage p (hkept p hp).1
  case clear =>
    intro p hp i
    have hmem : (s₀.withVm vm).mem (P2V p) = s₀.mem (P2V p) := (hkept p hp).2
    rw [hmem]
    exact hclear p (hkept p hp).1 i
  case table =>
    rintro path t ⟨hpath, root, hroot, hfollow⟩
    rw [List.mem_singleton.mp hroot] at hfollow
    -- every table is a page that has been taken, the top level is the first one
    have hused : Vmm.Used s₀.vm vm t := by
      rcases hconf.reaches path t (Vmm.single_reaches_iff.mpr ⟨hpath.1, hfollow⟩) with hold | ⟨p, hp, hnot, ht⟩
      . rw [Vmm.single_reaches_iff] at hold
        have hnil := Vmm.follow_zero (by intro idx; exact fill_self _ _ _ _) hold.2
        rw [hnil] at hold
        refine ⟨page, by rw [hsupply]; exact List.mem_cons_self, ?_, ?_⟩
        . intro hin
          exact hnodup.1 (hconf.subset hin)
        . rw [← htop]
          exact (Option.some.inj hold.2).symm
      . refine ⟨p, ?_, hnot, ht⟩
        rw [hsupply]
        exact List.mem_cons_of_mem _ hp
    rcases new_of_used hsuffix hused with ⟨q, hq, rfl⟩
    exact hq.allocated (Held.withVm s₀ vm)
  case backs =>
    intro m hm
    cases hm
  case once =>
    intro m hm
    cases hm

def bootEntries (image : Vmm.KernelImage) : BitVec 36 → BitVec 64 :=
  FirstWins.insertAll Free (fun _ => 0#64) (Vmm.init_vm.mappings image)

def KeepsKernel (image : Vmm.KernelImage) (kernel_top : Addr) (s : State) : Prop :=
  ∀ n : BitVec 36, n.msb = true → ¬ Free (bootEntries image n) → entries s.mem kernel_top n = bootEntries image n

theorem Booted.keeps_kernel (h : Booted image kernel_top s) : KeepsKernel image kernel_top s := by
  rcases h with ⟨s₀, vm, hpage, _, hinit, rfl⟩
  intro n _ _
  exact congrFun (Vmm.init_vm_represents (supply_nodup _ _) hpage hinit).entries n

theorem KeepsKernel.of_stays {s' : State} (h : KeepsKernel image kernel_top s) (hstays : UpperStays kernel_top s s')
    : KeepsKernel image kernel_top s' := by
  intro n hn hfree
  have hold := h n hn hfree
  rw [← hold] at hfree
  rw [hstays n hn hfree, hold]

end Boot

namespace Procs

variable {P : Type} [DecidableEq P] {image : Vmm.KernelImage} {kernel_top : Addr} {log : List (Access P)} {s : Procs P}

structure Private (kernel_top : Addr) (maps : List Addr) (log : List (Access P)) (s : Procs P) : Prop where
  owned : Owned kernel_top maps s.kernel
  made : ∀ p m, s.vmap p = some m → m ∈ maps
  apart : ∀ p q m, s.vmap p = some m → s.vmap q = some m → p = q
  reads : ∀ p m, s.vmap p = some m → ∀ a, readUser s.kernel.mem m a = Journal.replay Access.effect none log (p, a)

theorem Run.keeps_private (h : Run image kernel_top log s)
    : ∃ maps, Private kernel_top maps log s ∧ KeepsKernel image kernel_top s.kernel := by
  induction h with
  | boot hboot =>
    refine ⟨[], ⟨hboot.owned, ?_, ?_, ?_⟩, hboot.keeps_kernel⟩
    . intro p m hm
      cases hm
    . intro p q m hm
      cases hm
    . intro p m hm
      cases hm
  | @exec log s p fuel locals name argv sp s' _ hcontained hexec ih =>
    rcases ih with ⟨maps, ih, hkernel⟩
    rcases ih.owned.exec hcontained hexec with ⟨hfresh, howned, hother, hupper⟩
    refine ⟨s'.vmap :: maps, ⟨howned, ?_, ?_, ?_⟩, hkernel.of_stays hupper⟩
    . intro q m hm
      dsimp only at hm
      by_cases hq : q = p
      . rw [hq, Function.update_self] at hm
        rw [← Option.some.inj hm]
        exact List.mem_cons_self
      . rw [Function.update_of_ne hq] at hm
        exact List.mem_cons_of_mem _ (ih.made q m hm)
    . intro q q' m hm hm'
      dsimp only at hm hm'
      by_cases hq : q = p
      . by_cases hq' : q' = p
        . rw [hq, hq']
        . rw [hq, Function.update_self] at hm
          rw [Function.update_of_ne hq', ← Option.some.inj hm] at hm'
          exact absurd (ih.made q' _ hm') hfresh
      . by_cases hq' : q' = p
        . rw [hq', Function.update_self] at hm'
          rw [Function.update_of_ne hq, ← Option.some.inj hm'] at hm
          exact absurd (ih.made q _ hm) hfresh
        . rw [Function.update_of_ne hq] at hm
          rw [Function.update_of_ne hq'] at hm'
          exact ih.apart q q' m hm hm'
    . intro q m hm a
      dsimp only at hm ⊢
      rw [Journal.replay_concat]
      by_cases hq : q = p
      . rw [hq, Function.update_self] at hm
        rw [← Option.some.inj hm, hq]
        unfold Access.effect
        dsimp only
        rw [if_pos rfl, Option.getD_some]
      . rw [Function.update_of_ne hq] at hm
        have hin := ih.made q m hm
        rw [hother m (List.mem_cons_of_mem _ hin) (by rintro rfl; exact hfresh hin), ih.reads q m hm]
        unfold Access.effect
        dsimp only
        rw [if_neg hq, Option.getD_none]
  | @store log s p m a b mem _ hm hwrite ih =>
    rcases ih with ⟨maps, ih, hkernel⟩
    have htop := ih.made p m hm
    rcases writeVirt_backs hwrite with ⟨t, hback, hmem⟩
    rcases ih.owned.store_only htop hback hmem with ⟨howned, hother, hupper⟩
    refine ⟨maps, ⟨howned, ih.made, ih.apart, ?_⟩, hkernel.of_stays hupper⟩
    intro q m' hm' a'
    dsimp only at hm' ⊢
    rw [Journal.replay_concat]
    by_cases hq : q = p
    . rw [hq, hm] at hm'
      rw [hq, ← Option.some.inj hm', ih.owned.store_read htop hback hmem, ← ih.reads p m hm]
      unfold Access.effect
      dsimp only
      simp only [Prod.mk.injEq, true_and]
      split
      . rfl
      . rfl
    . have hne : m' ≠ m := by
        rintro rfl
        exact hq (ih.apart q p m' hm' hm)
      rw [hother m' (ih.made q m' hm') hne, ih.reads q m' hm']
      unfold Access.effect
      dsimp only
      rw [if_neg (by simp [hq]), Option.getD_none]
  | rest _ hrest ih =>
    rcases ih with ⟨maps, ih, hkernel⟩
    refine ⟨maps, ⟨ih.owned.of_mem_eq hrest.held hrest.mem, ih.made, ih.apart, ?_⟩,
      hkernel.of_stays (UpperStays.of_eq (by rw [hrest.mem]))⟩
    intro q m hm a
    dsimp only at hm ⊢
    rw [hrest.mem, ih.reads q m hm]

/--
A program reads a byte exactly if it, or the `exec` that has started it, has put it there and it has written nothing
there since.
-/
theorem Run.reads_iff (h : Run image kernel_top log s) {p : P} {m : Addr} (hm : s.vmap p = some m) {a : UserAddr}
    {b : UInt8}
    : readUser s.kernel.mem m a = some b ↔
        ∃ before e later, log = before ++ e :: later ∧ Access.effect e (p, a) = some (some b) ∧
          ∀ e' ∈ later, Access.effect e' (p, a) = none := by
  rcases h.keeps_private with ⟨maps, hprivate, _⟩
  rw [hprivate.reads p m hm, Journal.replay_eq_some_iff]

end Procs

section Sample

open Vmm (KernelRun KernelState)

theorem init_vm_clear {s₀ : State} (hpages : ∀ page ∈ s₀.vm.supply, PTE_GET_ADDR page = page) (hclear : Clear s₀)
    (hroom : FreeRun s₀.bm 1 (2 ^ 22 - 1))
    : ∃ kernel_top vm q, Booted smallKernel kernel_top (s₀.withVm vm) ∧
        KernelState smallKernel (s₀.withVm vm).vm kernel_top [kernel_top] ∧ Clear (s₀.withVm vm) ∧
        FreeRun (s₀.withVm vm).bm q 512 := by
  have hneeded : Vmm.init_vm.tablesNeeded smallKernel ≤ 4000000 := by decide
  have hlength := vm_supply_length hroom
  have hnodup : s₀.vm.supply.Nodup := supply_nodup _ _
  rcases Vmm.init_vm_isSome hnodup hpages (Nat.le_trans hneeded (by omega)) with ⟨kernel_top, vm, hinit, hrest⟩
  have hfresh := Vmm.init_vm_freshPages hnodup hpages hinit
  rcases Vmm.init_vm_suffix hinit with ⟨used, hused⟩
  have hsub : ∀ page ∈ (s₀.withVm vm).vm.supply, page ∈ vm.supply := by
    intro page hpage
    exact withVm_supply ⟨used, hused.symm⟩ hpage
  rcases taken_room hroom (show s₀.vm.supply.length - vm.supply.length ≤ 2 ^ 22 - 1 by omega) with ⟨q, hroom₀⟩
  refine ⟨kernel_top, vm, q, ⟨s₀, vm, hpages, ?_, hinit, rfl⟩, ⟨⟨vm.mem, KernelRun.init_vm hnodup hpages hinit, ?_⟩,
    supply_nodup _ _, ?_, ?_⟩, ⟨?_⟩, ?_⟩
  . intro page hpage i
    rw [hclear.words page hpage]
    decide
  . intro path t i _ _
    rfl
  . intro page hpage
    exact hfresh.page page (hsub page hpage)
  . intro page hpage path
    exact hfresh.fresh page (hsub page hpage) path
  . intro page hpage i
    rcases Vmm.init_vm_kept hnodup hpages hinit (hsub page hpage) with ⟨hold, hmem⟩
    have hmem : (s₀.withVm vm).mem (P2V page) = s₀.mem (P2V page) := hmem
    rw [hmem]
    exact hclear.words page hold i
  . exact freeRun_sub hroom₀ (Nat.le_refl q) (by omega)

def bootState (vn : Fs.File) : State :=
  { bigState with fs := Fs.targetFile, file := fun _ => vn }

theorem exists_booted (vn : Fs.File) : ∃ s kernel_top top s₁ s₂, Booted smallKernel kernel_top s ∧
    Opened vn s kernel_top top s₁ s₂ := by
  have hclear : Clear (bootState vn) := by
    constructor
    intro page _ i
    rfl
  have hcount : (bootState vn).bm.pages = 2 ^ 22 := bigBitmap_pages
  have htest : bitmap_test (bootState vn).bm 0 = true := (bigState_test 0).mpr rfl
  rcases @init_vm_clear (bootState vn) bigState_page hclear bigState_room with
    ⟨kernel_top, vm, q, hbooted, hstate, hclear₀, hroom⟩
  have hheld : Held (bootState vn) ((bootState vn).withVm vm) := Held.withVm (bootState vn) vm
  have hfs₀ : ((bootState vn).withVm vm).fs = Fs.targetFile := rfl
  have hfile₀ : ((bootState vn).withVm vm).file 1 = vn := rfl
  have hslabs : ((bootState vn).withVm vm).slabs = 0 := rfl
  have hrsp : ((bootState vn).withVm vm).regs.rsp = 0#64 := rfl
  -- nothing below needs to know what the state is
  generalize (bootState vn).withVm vm = s at hbooted hstate hclear₀ hroom hheld hfs₀ hfile₀ hslabs hrsp
  have hzero : bitmap_test s.bm 0 = true := by
    apply hheld.bits 0 _ htest
    rw [hcount]
    decide
  rcases @newvm_map_first s kernel_top q 510 _ 1 hstate hclear₀ hslabs hroom with
    ⟨top, s₁, hnew, _, hmap, hfresh, _, hlink, q', hroom₁⟩
  rcases newvm_map_files hnew with ⟨hfs, hfile⟩
  have hopens : vfs_open samplePath 2 s₁ = .ok (some vn)
      { s₁ with fs := Fs.after (Fs.vfs_open samplePath .VNON false 2) Fs.targetFile } := by
    unfold vfs_open
    rw [hfs, hfs₀, samplePath_opens]
    dsimp only
    rw [Option.map_some, hfile, hfile₀]
  rw [← hfs₀] at hopens
  refine ⟨s, kernel_top, top, s₁, _, hbooted, hnew, ⟨Fs.after (Fs.vfs_open samplePath .VNON false 2) s.fs, ?_, hfile₀⟩,
    hopens, hmap.good hfresh, hlink, ⟨q', hroom₁⟩, hzero, hheld.pages.trans hcount, hrsp⟩
  rw [hfs₀]
  exact samplePath_opens

theorem Opened.load_stack {s s₁ s₂ s₃ : State} {kernel_top top vmap stack : Addr} {aux : Auxval}
    (h : Opened emptyFile s kernel_top top s₁ s₂) (howned : Owned kernel_top [] s)
    (hload : exec.load 2 sampleLocals kernel_top samplePath s = .ok (vmap, stack, aux) s₃)
    : entries s₃.mem vmap (vpn exec.stackva) = stack ||| (PTE_PRESENT ||| PTE_RW ||| PTE_USER) := by
  have hfile : ∃ aux, loadelf.file sampleLocals top emptyFile s₂ = .ok aux s₂ := ⟨_, rfl⟩
  rcases hfile with ⟨aux', hfile⟩
  have hmem : s₂.mem = s₁.mem := by
    have hopens := h.opens
    unfold vfs_open at hopens
    split at hopens
    . rw [EStateM.Result.ok.injEq] at hopens
      rw [← hopens.2]
    . cases hopens
  unfold exec.load at hload
  rw [bind_of_ok h.newvm, bind_of_ok (h.loadelf hfile)] at hload
  rcases ok_of_bind hload with ⟨paddr, s₄, hpalloc, hload⟩
  rcases ok_of_bind hload with ⟨_, s₅, hmap, hload⟩
  rcases ok_of_bind hload with ⟨_, s₆, hmodify, hload⟩
  cases hmodify
  cases hload
  rcases (wp_of_ok hpalloc).mp (palloc_wp s₂ (by decide)) with ⟨p, rfl, hrun, rfl, _⟩
  have hset : Within (single top) s₂ { s₂ with bm := setRun s₂.bm p (STACKSIZE / PGSIZE) } := Within.setRun h.good p _
  have hentries := ((wp_of_ok hmap).mp (mappages_wp hset.good)).entries
  have hempty := howned.newvm_map_empty h.newvm (show (vpn exec.stackva).msb = false by decide)
  rw [stackSize_pages] at hentries
  dsimp only at hentries ⊢
  rw [hentries, hmem]
  have hfirst : ∀ i < STACKSIZE / PGSIZE,
      (Vmm.mappages.mapping exec.stackva (frame p) (PTE_PRESENT ||| PTE_RW ||| PTE_USER) i).1 = vpn exec.stackva →
        i = 0 := by
    intro i hi heq
    have hsize : STACKSIZE / PGSIZE = 64 := by decide
    have hnat := congrArg BitVec.toNat heq
    have hlt := (vpn exec.stackva).isLt
    unfold Vmm.mappages.mapping at hnat
    dsimp only at hnat
    rw [BitVec.toNat_add, BitVec.toNat_ofNat] at hnat
    omega
  apply FirstWins.insertAll_of_mem
  . rw [hempty]
    decide
  . refine List.mem_map.mpr ⟨0, by decide, ?_⟩
    unfold Vmm.mappages.mapping
    rw [page_frame, Nat.add_zero, BitVec.add_zero]
  . intro v hv
    rcases List.mem_map.mp hv with ⟨i, hi, heq⟩
    have hlt := (List.mem_range'_1.mp hi).2
    rw [Nat.zero_add] at hlt
    have hzero := hfirst i hlt (congrArg Prod.fst heq)
    have hentry : (Vmm.mappages.mapping exec.stackva (frame p) (PTE_PRESENT ||| PTE_RW ||| PTE_USER) i).2 = v :=
      congrArg Prod.snd heq
    rw [← hentry, hzero]
    unfold Vmm.mappages.mapping
    rw [page_frame, Nat.add_zero]

theorem exists_started : ∃ (kernel_top m : Addr) (image : UserAddr → Option UInt8) (s : Procs Unit),
    Procs.Run smallKernel kernel_top [.exec () image] s ∧ s.vmap () = some m ∧
      Writable (entries s.kernel.mem m (vpn exec.stackva)) := by
  rcases exists_booted emptyFile with ⟨s, kernel_top, top, s₁, s₂, hbooted, hopened⟩
  rcases hopened.load_empty with ⟨stack, aux, s₃, q, hload, hroom⟩
  have hfit : imageSize [] ≤ STACKSIZE + PGSIZE := by
    decide
  rcases hopened.exec_returns hload hroom hfit with ⟨sp, s', hexec⟩
  have hcontained : Contained 2 sampleLocals samplePath [] s := by
    constructor
    . intro vn hvn
      rcases hopened.file with ⟨fs, hopen, hfile⟩
      unfold opened at hvn
      rw [hopen] at hvn
      dsimp only at hvn
      rw [Option.map_some, hfile] at hvn
      cases hvn
      intro phdr hphdr
      cases hphdr
    . decide
  have hrun := @Procs.Run.exec Unit _ smallKernel kernel_top _ _ () _ _ _ _ _ _ (.boot hbooted) hcontained hexec
  refine ⟨kernel_top, s'.vmap, _, _, hrun, by simp, ?_⟩
  rcases exec_ok hexec with ⟨stack', aux', s₄, hstarts⟩
  rcases hbooted.owned.load hcontained hstarts.load with ⟨_, hone, p, rfl, hpages⟩
  have hsmall := (exec.load_ok hstarts.load).stack_toNat
  have hentries := hone.owned.putargs_entries List.mem_cons_self hpages hsmall (by decide) hstarts.putargs
  have hframe : PTE_GET_ADDR (frame p) = frame p := by
    rcases (exec.load_ok hstarts.load).stack with ⟨p', heq, hfree⟩
    have hle := hfree.1
    have hpos : 0 < STACKSIZE / PGSIZE := by decide
    rw [heq]
    exact hbooted.owned.page _ (vm_supply_iff.mpr
      ⟨p', by omega, hfree.2 p' (Nat.le_refl p') (Nat.lt_add_of_pos_right hpos), rfl⟩)
  dsimp only at hentries ⊢
  rw [hstarts.vmap, hentries, hopened.load_stack hbooted.owned hstarts.load]
  exact writable_or hframe (by decide)

theorem exists_stored : ∃ (kernel_top m : Addr) (image : UserAddr → Option UInt8) (s : Procs Unit),
    Procs.Run smallKernel kernel_top [.exec () image, .store () (exec.stackva.setWidth 47) 7] s ∧
      s.vmap () = some m := by
  rcases exists_started with ⟨kernel_top, m, image, s, hrun, hm, hwritable⟩
  have haddr : (exec.stackva.setWidth 47).setWidth 64 = exec.stackva := by decide
  have hwrite : ∃ mem, writeVirt s.kernel.mem m ((exec.stackva.setWidth 47).setWidth 64) 7 = some mem := by
    unfold writeVirt
    dsimp only
    rw [haddr, Vmm.walk_eq_entries, if_pos hwritable]
    exact ⟨_, rfl⟩
  rcases hwrite with ⟨mem, hwrite⟩
  exact ⟨kernel_top, m, image, _, hrun.store hm hwrite, hm⟩

theorem Procs.Run.reads_iff_started
    : ∃ (kernel_top m : Addr) (image : UserAddr → Option UInt8) (s : Procs Unit),
        Procs.Run smallKernel kernel_top [.exec () image, .store () (exec.stackva.setWidth 47) 7] s ∧
          s.vmap () = some m ∧ readUser s.kernel.mem m (exec.stackva.setWidth 47) = some 7 ∧
          ∀ a b, a ≠ exec.stackva.setWidth 47 → image a = some b → readUser s.kernel.mem m a = some b := by
  rcases exists_stored with ⟨kernel_top, m, image, s, hrun, hm⟩
  refine ⟨kernel_top, m, image, s, hrun, hm, ?_, ?_⟩
  . apply (Procs.Run.reads_iff hrun hm).mpr
    exact ⟨[.exec () image], _, [], rfl, by simp [Access.effect], by simp⟩
  . intro a b hne himage
    apply (Procs.Run.reads_iff hrun hm).mpr
    refine ⟨[], _, _, rfl, by simp [Access.effect, himage], ?_⟩
    intro e he
    rw [List.mem_singleton.mp he]
    simp [Access.effect, hne]

end Sample

end Exec
end Franklin
