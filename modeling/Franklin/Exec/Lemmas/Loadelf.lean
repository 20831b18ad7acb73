import Franklin.Exec.Lemmas.Segment
import Franklin.Vmm.Lemmas.KernelHalf

/-!
This module contains what `loadelf` does for all program headers of a file.
-/

open Radix

namespace Franklin
namespace Exec

open Vmm (Addr Mem Good P2V single next entries Free)
open Pmm (bitmap_test FreeRun)

def readInto (vn : Fs.File) (buf : Block) (offset count : BitVec 64) : Option Block :=
  match Fs.vfs_read buf offset count vn with
  | .ok (_, buf) _ => some buf
  | .error _ _ => none

def elfHeader (locals : Locals) (vn : Fs.File) : Option Block :=
  readInto vn { size := sizeofEhdr, byte := locals.elf } 0#64 (BitVec.ofNat 64 sizeofEhdr)

def headers (vn : Fs.File) (elf phdr : Block) (i : Nat) : Nat → List Block
  | 0 => []
  | n + 1 =>
    match readInto vn phdr (e_phoff elf + BitVec.ofNat 64 (i * sizeofPhdr)) (BitVec.ofNat 64 sizeofPhdr) with
    | none => []
    | some phdr => phdr :: headers vn elf phdr (i + 1) n

def loads (headers : List Block) : List Block :=
  headers.filter fun phdr => p_type phdr = PT_LOAD

/--
The segments that `loadelf` loads as long as nothing stops it.
-/
def segments (locals : Locals) (vn : Fs.File) : List Block :=
  match elfHeader locals vn with
  | none => []
  | some elf => loads (headers vn elf { size := sizeofPhdr, byte := locals.phdr } 0 (e_phnum elf).toNat)

/--
The bytes of a segment are not more than the bytes of its pages.
-/
def Fits (vn : Fs.File) (phdr : Block) : Prop :=
  Copies vn (p_offset phdr) (p_filesz phdr) → (p_filesz phdr).toNat ≤ (pagecount phdr).toNat * PGSIZE

inductive Loaded (vmap : Addr) (vn : Fs.File) : List (Block × Nat) → State → State → Prop where
  | nil {s : State} (h : Good (single vmap) s.vm) : Loaded vmap vn [] s s
  | cons {phdr : Block} {p : Nat} {rest : List (Block × Nat)} {s s₁ s' : State}
      (h : Loads vmap vn phdr s s₁ p) (hrest : Loaded vmap vn rest s₁ s') : Loaded vmap vn ((phdr, p) :: rest) s s'

section Loop

variable {vmap : Addr} {vn : Fs.File} {elf phdr : Block} {aux : Auxval} {i n : Nat} {s s' t : State}
variable {rest : List (Block × Nat)} {locals : Locals}

theorem readLocal_wp {buf : Block} {offset count : BitVec 64}
    : wp (readLocal vn buf offset count) (fun b s' => readInto vn buf offset count = some b ∧ s' = s)
        (fun _ s' => readInto vn buf offset count = none ∧ s' = s) s := by
  unfold wp readLocal readInto
  cases Fs.vfs_read buf offset count vn with
  | ok res vn' => exact ⟨rfl, rfl⟩
  | error e vn' => exact ⟨rfl, rfl⟩

theorem readLocal_eq {buf b : Block} {offset count : BitVec 64} (h : readInto vn buf offset count = some b)
    : readLocal vn buf offset count s = .ok b s := by
  unfold readInto at h
  unfold readLocal
  cases hread : Fs.vfs_read buf offset count vn with
  | ok res vn' =>
    rw [hread] at h
    rw [← Option.some.inj h]
  | error e vn' =>
    rw [hread] at h
    cases h

theorem Loaded.within (h : Loaded vmap vn rest s s') : Within (single vmap) s s' := by
  induction h with
  | nil h => exact Within.refl h
  | cons h _ ih => exact h.within.trans ih

theorem Loaded.only (h : Loaded vmap vn rest s s') : OnlyWrites vmap s s' := by
  induction h with
  | nil => exact OnlyWrites.refl vmap _
  | cons h hrest ih => exact h.only.trans ih hrest.within.grows

theorem headers_cons {b : Block}
    (h : readInto vn phdr (e_phoff elf + BitVec.ofNat 64 (i * sizeofPhdr)) (BitVec.ofNat 64 sizeofPhdr) = some b)
    : headers vn elf phdr i (n + 1) = b :: headers vn elf b (i + 1) n := by
  conv => lhs; unfold headers
  rw [h]

theorem loads_cons_load (h : p_type phdr = PT_LOAD) (bs : List Block) : loads (phdr :: bs) = phdr :: loads bs := by
  unfold loads
  rw [List.filter_cons_of_pos]
  exact decide_eq_true h

theorem loads_cons_other (h : p_type phdr ≠ PT_LOAD) (bs : List Block) : loads (phdr :: bs) = loads bs := by
  unfold loads
  rw [List.filter_cons_of_neg]
  exact fun htype => h (of_decide_eq_true htype)

theorem loop_wp (hgood : Good (single vmap) s.vm) (hfit : ∀ b ∈ loads (headers vn elf phdr i n), Fits vn b)
    : wp (loadelf.loop vmap vn elf phdr aux i n)
        (fun _ s' => ∃ rest, rest.map Prod.fst = loads (headers vn elf phdr i n) ∧ Loaded vmap vn rest s s')
        (fun _ s' => OnlyWrites vmap s s' ∧ (single vmap).Extends next s.mem s'.mem) s := by
  induction n generalizing phdr aux i s with
  | zero => exact ⟨[], rfl, Loaded.nil hgood⟩
  | succ n ih =>
    unfold loadelf.loop
    apply wp_bind_mono readLocal_wp
    . rintro e s' ⟨_, rfl⟩
      exact ⟨OnlyWrites.refl vmap s', Shape.Extends.refl _⟩
    . rintro b s' ⟨hread, rfl⟩
      rw [headers_cons hread] at hfit ⊢
      split
      . next hload =>
        rw [loads_cons_load hload] at hfit ⊢
        apply wp_bind_mono (segment_wp hgood (hfit b (List.mem_cons_self ..)))
        . intro e s₁ honly
          exact honly
        . rintro u s₁ ⟨p, hloads⟩
          have hrest := fun c hc => hfit c (List.mem_cons_of_mem _ hc)
          apply wp_mono (@ih b aux (i + 1) s₁ hloads.within.good hrest)
          . rintro aux' s₂ ⟨rest, hmap, hloaded⟩
            refine ⟨(b, p) :: rest, ?_, Loaded.cons hloads hloaded⟩
            rw [List.map_cons, hmap]
          . rintro e s₂ ⟨honly, hgrows⟩
            exact ⟨hloads.only.trans honly hgrows, hloads.within.grows.trans hgrows⟩
      . next hother =>
        rw [loads_cons_other hother] at hfit ⊢
        split
        . exact ih hgood hfit
        . exact ih hgood hfit

theorem segments_of_elf {b : Block} (h : elfHeader locals vn = some b)
    : segments locals vn =
        loads (headers vn b { size := sizeofPhdr, byte := locals.phdr } 0 (e_phnum b).toNat) := by
  unfold segments
  rw [h]

theorem file_wp (hgood : Good (single vmap) s.vm) (hfit : ∀ b ∈ segments locals vn, Fits vn b)
    : wp (loadelf.file locals vmap vn)
        (fun _ s' => ∃ rest, rest.map Prod.fst = segments locals vn ∧ Loaded vmap vn rest s s')
        (fun _ s' => OnlyWrites vmap s s') s := by
  unfold loadelf.file
  apply wp_bind_mono readLocal_wp
  . rintro e s' ⟨_, rfl⟩
    exact OnlyWrites.refl vmap s'
  . rintro b s' ⟨hread, rfl⟩
    rw [segments_of_elf hread] at hfit ⊢
    apply wp_bind_mono (loop_wp hgood hfit)
    . intro e s₁ honly
      exact honly.1
    . intro aux s₁ hloaded
      exact hloaded

def mappings (rest : List (Block × Nat)) : List (BitVec 36 × BitVec 64) :=
  rest.flatMap fun load =>
    (List.range' 0 (pagecount load.1).toNat).map
      (Vmm.mappages.mapping (p_vaddr load.1) (frame load.2) (flags load.1))

theorem Loaded.entries (h : Loaded vmap vn rest s s')
    : entries s'.mem vmap = FirstWins.insertAll Free (entries s.mem vmap) (mappings rest) := by
  induction h with
  | nil => rfl
  | cons h _ ih =>
    unfold mappings
    rw [List.flatMap_cons, FirstWins.insertAll_append, ← h.entries]
    exact ih

theorem Loaded.content (h : Loaded vmap vn rest s s') (hgood : Good (single vmap) s.vm) {p : Nat}
    (hmem : (phdr, p) ∈ rest)
    : FreeRun s.bm p (pagecount phdr).toNat ∧ ∀ k, k < (pagecount phdr).toNat * PGSIZE →
        readByte s'.mem (P2V (frame p) + BitVec.ofNat 64 k) =
          if Copies vn (p_offset phdr) (p_filesz phdr) ∧ k < (p_filesz phdr).toNat then
            Exec.content vn (p_offset phdr) k
          else
            readByte s.mem (P2V (frame p) + BitVec.ofNat 64 k) := by
  induction h with
  | nil => cases hmem
  | @cons b q rest s s₁ s' h hrest ih =>
    rcases List.mem_cons.mp hmem with heq | hmem
    . rcases Prod.mk.inj heq with ⟨rfl, rfl⟩
      refine ⟨h.run, ?_⟩
      intro k hk
      have hpage : k / PGSIZE < (pagecount phdr).toNat := by
        rw [Nat.div_lt_iff_lt_mul (by decide)]
        exact hk
      have hlt : p + k / PGSIZE < s₁.bm.pages := by
        have hle := h.run.1
        rw [h.within.pages]
        omega
      have hkept := hrest.within.set_eq hlt (h.taken _ (Nat.le_add_right _ _) (by omega))
        (h.apart _ (Nat.le_add_right _ _) (by omega))
      rw [readByte_frame hkept.1]
      exact h.content k hk
    . rcases ih h.within.good hmem with ⟨hrun, hcontent⟩
      have hclear : ∀ i, p ≤ i → i < p + (pagecount phdr).toNat → i < s.bm.pages ∧ bitmap_test s.bm i = false := by
        intro i hi hi'
        have hle := hrun.1
        rw [h.within.pages] at hle
        refine ⟨by omega, ?_⟩
        rw [Bool.eq_false_iff]
        intro hset
        have hclear₁ := hrun.2 i hi hi'
        rw [h.within.bits i (by omega) hset] at hclear₁
        cases hclear₁
      refine ⟨⟨?_, fun i hi hi' => (hclear i hi hi').2⟩, ?_⟩
      . have hle := hrun.1
        rw [h.within.pages] at hle
        exact hle
      . intro k hk
        have hpage : k / PGSIZE < (pagecount phdr).toNat := by
          rw [Nat.div_lt_iff_lt_mul (by decide)]
          exact hk
        rw [hcontent k hk, readByte_frame (h.within.clear_eq hgood (hclear _ (Nat.le_add_right _ _) (by omega)).1
          (hrun.2 _ (Nat.le_add_right _ _) (by omega)))]

theorem Loaded.used (h : Loaded vmap vn rest s s') {q : Nat} (hq : New s s' q)
    : (∃ load ∈ rest, load.2 ≤ q ∧ q < load.2 + (pagecount load.1).toNat)
        ∨ ∃ path, (single vmap).Reaches next s'.mem path (P2V (frame q)) := by
  induction h with
  | nil =>
    have hclear := hq.2.1
    rw [hq.2.2] at hclear
    cases hclear
  | @cons b p rest s s₁ s' h hrest ih =>
    cases hset : bitmap_test s₁.bm q with
    | true =>
      rcases h.used q ⟨hq.1, hq.2.1, hset⟩ with hin | ⟨path, hreaches⟩
      . exact Or.inl ⟨(b, p), List.mem_cons_self .., hin⟩
      . exact Or.inr ⟨path, hrest.within.grows.reaches hreaches⟩
    | false =>
      have hlt := hq.1
      rw [← h.within.pages] at hlt
      rcases ih ⟨hlt, hset, hq.2.2⟩ with ⟨load, hload, hin⟩ | htable
      . exact Or.inl ⟨load, List.mem_cons_of_mem _ hload, hin⟩
      . exact Or.inr htable

theorem Loaded.pages (h : Loaded vmap vn rest s s') {p q : Nat} (hmem : (phdr, p) ∈ rest) (hq : p ≤ q)
    (hq' : q < p + (pagecount phdr).toNat)
    : New s s' q ∧ ∀ path, ¬ (single vmap).Reaches next s'.mem path (P2V (frame q)) := by
  induction h with
  | nil => cases hmem
  | @cons b r rest s s₁ s' h hrest ih =>
    rcases List.mem_cons.mp hmem with heq | hmem
    . rcases Prod.mk.inj heq with ⟨rfl, rfl⟩
      have hle := h.run.1
      have hset := h.taken q hq hq'
      have hlt : q < s₁.bm.pages := by
        rw [h.within.pages]
        omega
      refine ⟨⟨by omega, h.run.2 q hq hq', hrest.within.bits q hlt hset⟩, ?_⟩
      exact (hrest.within.set_eq hlt hset (h.apart q hq hq')).2
    . rcases ih hmem with ⟨hnew, htable⟩
      exact ⟨h.within.new_right hnew, htable⟩

theorem loop_twin (hgood : Good (single vmap) s.vm) (hfit : ∀ b ∈ loads (headers vn elf phdr i n), Fits vn b)
    {aux' : Auxval} (h : loadelf.loop vmap vn elf phdr aux i n s = .ok aux' s')
    : ∃ rest, rest.map Prod.fst = loads (headers vn elf phdr i n) ∧ Loaded vmap vn rest s s' ∧
        ∀ t, Twins vmap s t →
          ∃ t', loadelf.loop vmap vn elf phdr aux i n t = .ok aux' t' ∧ Loaded vmap vn rest t t' := by
  induction n generalizing phdr aux i s with
  | zero =>
    cases h
    exact ⟨[], rfl, Loaded.nil hgood, fun t htwin => ⟨t, rfl, Loaded.nil (htwin.good hgood)⟩⟩
  | succ n ih =>
    unfold loadelf.loop at h ⊢
    cases hlocal : readLocal vn phdr (e_phoff elf + BitVec.ofNat 64 (i * sizeofPhdr))
      (BitVec.ofNat 64 sizeofPhdr) s with
    | error e s₁ =>
      rw [bind_of_error hlocal] at h
      cases h
    | ok b s₁ =>
      rw [bind_of_ok hlocal] at h
      rcases (wp_of_ok hlocal).mp readLocal_wp with ⟨hread, rfl⟩
      rw [headers_cons hread] at hfit ⊢
      by_cases hload : p_type b = PT_LOAD
      . rw [if_pos hload] at h
        rw [loads_cons_load hload] at hfit ⊢
        cases hsegment : loadelf.segment vmap vn b s₁ with
        | error e s₂ =>
          rw [bind_of_error hsegment] at h
          cases h
        | ok u s₂ =>
          rw [bind_of_ok hsegment] at h
          rcases segment_twin hgood (hfit b (List.mem_cons_self ..)) hsegment with ⟨p, hloads, htwins⟩
          rcases ih hloads.within.good (fun c hc => hfit c (List.mem_cons_of_mem _ hc)) h with
            ⟨rest, hmap, hloaded, hrest⟩
          refine ⟨(b, p) :: rest, ?_, Loaded.cons hloads hloaded, ?_⟩
          . rw [List.map_cons, hmap]
          . intro t htwin
            rcases htwins t htwin with ⟨t₂, hsegment', hloads', htwin₂⟩
            rcases hrest t₂ htwin₂ with ⟨t', hrun, hloaded'⟩
            refine ⟨t', ?_, Loaded.cons hloads' hloaded'⟩
            rw [bind_of_ok (readLocal_eq hread), if_pos hload, bind_of_ok hsegment']
            exact hrun
      . rw [if_neg hload] at h
        rw [loads_cons_other hload] at hfit ⊢
        by_cases hphdr : p_type b = PT_PHDR
        . rw [if_pos hphdr] at h
          rcases ih hgood hfit h with ⟨rest, hmap, hloaded, hrest⟩
          refine ⟨rest, hmap, hloaded, ?_⟩
          intro t htwin
          rw [bind_of_ok (readLocal_eq hread), if_neg hload, if_pos hphdr]
          exact hrest t htwin
        . rw [if_neg hphdr] at h
          rcases ih hgood hfit h with ⟨rest, hmap, hloaded, hrest⟩
          refine ⟨rest, hmap, hloaded, ?_⟩
          intro t htwin
          rw [bind_of_ok (readLocal_eq hread), if_neg hload, if_neg hphdr]
          exact hrest t htwin

theorem file_twin (hgood : Good (single vmap) s.vm) (hfit : ∀ b ∈ segments locals vn, Fits vn b)
    {aux' : Auxval} (h : loadelf.file locals vmap vn s = .ok aux' s')
    : ∃ rest, rest.map Prod.fst = segments locals vn ∧ Loaded vmap vn rest s s' ∧
        ∀ t, Twins vmap s t → ∃ t', loadelf.file locals vmap vn t = .ok aux' t' ∧ Loaded vmap vn rest t t' := by
  unfold loadelf.file at h ⊢
  cases hlocal : readLocal vn { size := sizeofEhdr, byte := locals.elf } 0#64 (BitVec.ofNat 64 sizeofEhdr) s with
  | error e s₁ =>
    rw [bind_of_error hlocal] at h
    cases h
  | ok b s₁ =>
    rw [bind_of_ok hlocal] at h
    rcases (wp_of_ok hlocal).mp readLocal_wp with ⟨hread, rfl⟩
    rw [segments_of_elf hread] at hfit ⊢
    cases hloop : loadelf.loop vmap vn b { size := sizeofPhdr, byte := locals.phdr } locals.aux 0
      (e_phnum b).toNat s₁ with
    | error e s₂ =>
      rw [bind_of_error hloop] at h
      cases h
    | ok aux s₂ =>
      rw [bind_of_ok hloop] at h
      cases h
      rcases loop_twin hgood hfit hloop with ⟨rest, hmap, hloaded, hrest⟩
      refine ⟨rest, hmap, hloaded, ?_⟩
      intro t htwin
      rcases hrest t htwin with ⟨t', hrun, hloaded'⟩
      rw [bind_of_ok (readLocal_eq hread), bind_of_ok hrun]
      exact ⟨t', rfl, hloaded'⟩

end Loop

section Returns

variable {vmap : Addr} {vn : Fs.File} {elf phdr : Block} {s : State} {locals : Locals} {q m n : Nat}

theorem vm_supply_length (h : FreeRun s.bm q n) : n ≤ s.vm.supply.length := by
  have hle := h.1
  have hlength := supply_length h (Nat.le_refl n)
  rw [supply_take (show n ≤ s.bm.pages by omega), List.length_take] at hlength
  unfold State.vm
  dsimp only
  omega

theorem readPages_returns {offset count : BitVec 64}
    (h : ∀ buf : Block, buf.size = count.toNat → readInto vn buf offset count ≠ none) (s : State) (paddr : Addr)
    (pages : Nat)
    : ∃ s', readPages vn paddr pages offset count s = .ok () s' ∧ s'.bm = s.bm := by
  have hread := h (window s.mem (P2V paddr) count.toNat) rfl
  unfold readInto at hread
  unfold readPages
  dsimp only
  cases hres : Fs.vfs_read (window s.mem (P2V paddr) count.toNat) offset count vn with
  | error e vn' =>
    rw [hres] at hread
    exact absurd rfl hread
  | ok res vn' => exact ⟨_, rfl, rfl⟩

theorem map_returns {size : BitVec 64} (hgood : Good (single vmap) s.vm) (hsize : size.toNat / PGSIZE = n)
    (hroom : FreeRun s.bm q (4 * n + m)) (vaddr flags : BitVec 64)
    : ∃ p s₁ s₂ q', palloc n s = .ok (frame p) s₁ ∧ mappages vmap vaddr (frame p) size flags s₁ = .ok () s₂
        ∧ FreeRun s₂.bm q' m := by
  rcases palloc_room hroom (show n ≤ 4 * n + m by omega) with ⟨p, q₁, hpalloc, hrun, hrest⟩
  rw [show 4 * n + m - n = 3 * n + m by omega] at hrest
  have hgood₁ := (Within.setRun hgood p n).good
  have hpages := palloc_eq hpalloc
  generalize hs₁ : ({ s with bm := Pmm.setRun s.bm p n } : State) = s₁ at hgood₁ hpages
  have hbm : s₁.bm = Pmm.setRun s.bm p n := by
    rw [← hs₁]
  rw [← hbm] at hrest
  rcases @Vmm.mappages.go_length s₁.vm vmap 0#64 n hgood₁ vaddr (frame p) flags
    (Nat.le_trans (by omega) (vm_supply_length hrest)) with ⟨vm, hgo, hlength⟩
  rw [← hsize] at hgo
  rcases taken_room hrest (show s₁.vm.supply.length - vm.supply.length ≤ 3 * n + m by omega) with ⟨q₂, hq₂⟩
  refine ⟨p, s₁, s₁.withVm vm, q₂, hpages, mappages_eq hgo, ?_⟩
  exact freeRun_sub hq₂ (Nat.le_refl q₂) (by omega)

theorem segment_returns (hgood : Good (single vmap) s.vm)
    (hread : ∀ buf : Block, buf.size = (p_filesz phdr).toNat →
      readInto vn buf (p_offset phdr) (p_filesz phdr) ≠ none)
    (hroom : FreeRun s.bm q (4 * (pagecount phdr).toNat + m))
    : ∃ s', loadelf.segment vmap vn phdr s = .ok () s' ∧ ∃ q', FreeRun s'.bm q' m := by
  rcases map_returns hgood (pagecount_size phdr) hroom (p_vaddr phdr) (flags phdr) with
    ⟨p, s₁, s₂, q', hpalloc, hmap, hrest⟩
  rcases readPages_returns hread s₂ (frame p) (pagecount phdr).toNat with ⟨s', hs', hbm⟩
  unfold loadelf.segment
  rw [bind_of_ok hpalloc, bind_of_ok hmap]
  refine ⟨s', hs', q', ?_⟩
  rw [hbm]
  exact hrest

theorem file_returns {b : Block} (hgood : Good (single vmap) s.vm) (helf : elfHeader locals vn = some b)
    (hnum : (e_phnum b).toNat = 1)
    (hphdr : readInto vn { size := sizeofPhdr, byte := locals.phdr } (e_phoff b + BitVec.ofNat 64 (0 * sizeofPhdr))
      (BitVec.ofNat 64 sizeofPhdr) = some phdr)
    (hload : p_type phdr = PT_LOAD)
    (hread : ∀ buf : Block, buf.size = (p_filesz phdr).toNat →
      readInto vn buf (p_offset phdr) (p_filesz phdr) ≠ none)
    (hroom : FreeRun s.bm q (4 * (pagecount phdr).toNat + m))
    : segments locals vn = [phdr]
        ∧ ∃ aux s', loadelf.file locals vmap vn s = .ok aux s' ∧ ∃ q', FreeRun s'.bm q' m := by
  constructor
  . rw [segments_of_elf helf, hnum, headers_cons hphdr, loads_cons_load hload]
    rfl
  . rcases segment_returns hgood hread hroom with ⟨s', hs', q', hq'⟩
    have hloop : loadelf.loop vmap vn b { size := sizeofPhdr, byte := locals.phdr } locals.aux 0 1 s =
        .ok locals.aux s' := by
      unfold loadelf.loop
      rw [bind_of_ok (readLocal_eq hphdr), if_pos hload, bind_of_ok hs']
      rfl
    unfold loadelf.file
    rw [bind_of_ok (readLocal_eq helf), hnum, bind_of_ok hloop]
    exact ⟨_, s', rfl, q', hq'⟩

end Returns

section Image

variable {ws : List (BitVec 64)} {buf phdr : Block} {i a n w : Nat} {offset vaddr filesz memsz count : BitVec 64}

def image (ws : List (BitVec 64)) : Block where
  size := 8 * ws.length
  byte k := Endian.byte (ws.getD (k / 8) 0#64) (k % 8)

theorem field_image (hw : w ≤ 8) (hn : 8 * i + w ≤ n)
    : field (buf.overlay 0 (image ws) ((8 * a : Nat) : Int) n) (8 * i) w =
        BitVec.ofNat 64 ((ws.getD (a + i) 0#64).toNat % 256 ^ w) := by
  unfold field
  rw [← Endian.value_byte]
  congr 1
  apply Endian.value_congr
  intro k hk
  rw [Block.overlay_inside (by omega)]
  unfold image
  dsimp only
  rw [show (((8 * a : Nat) : Int) + (((8 * i + k : Nat) : Int) - 0)).toNat = 8 * (a + i) + k by omega,
    show (8 * (a + i) + k) / 8 = a + i by omega, show (8 * (a + i) + k) % 8 = k by omega]

theorem readInto_of_copies {vn : Fs.File} (h : Copies vn offset count) (hbuf : buf.size = count.toNat)
    (hin : vn.data.mem.Inside offset.toInt count.toNat)
    : readInto vn buf offset count = some (buf.overlay 0 vn.data.mem offset.toInt count.toNat) := by
  have hinside : buf.Inside 0 count.toNat := by
    unfold Block.Inside
    rw [hbuf]
    omega
  unfold readInto
  rw [vfs_read_of_copies h, if_pos ⟨hinside, hin⟩]

def oneSegment (offset vaddr filesz memsz : BitVec 64) : Fs.File where
  type := .VREG
  lock := false
  ramlock := false
  data := .block (image [0#64, 0#64, 0#64, 0#64, 64#64, 0#64, 0#64, 1#64,
    PT_LOAD, offset, vaddr, 0#64, filesz, memsz, 0#64])
  size := 120#64

structure IsHeader (phdr : Block) (offset vaddr filesz memsz : BitVec 64) : Prop where
  type : p_type phdr = PT_LOAD
  offset : p_offset phdr = offset
  vaddr : p_vaddr phdr = vaddr
  filesz : p_filesz phdr = filesz
  memsz : p_memsz phdr = memsz

theorem oneSegment_copies {i : BitVec 64} (h : ¬ 120#64 < i + count)
    : Copies (oneSegment offset vaddr filesz memsz) i count := by
  refine ⟨rfl, ?_, rfl, h, Bool.false_ne_true⟩
  intro htype
  cases htype

theorem oneSegment_inside {j : Int} (h : 0 ≤ j ∧ j + n ≤ 120)
    : (oneSegment offset vaddr filesz memsz).data.mem.Inside j n :=
  Or.inr h

theorem word_toNat (v : BitVec 64) : BitVec.ofNat 64 (v.toNat % 256 ^ 8) = v := by
  rw [show 256 ^ 8 = 2 ^ 64 by decide, Nat.mod_eq_of_lt v.isLt, BitVec.ofNat_toNat, BitVec.setWidth_eq]

theorem oneSegment_header (locals : Locals) (offset vaddr filesz memsz : BitVec 64)
    : ∃ elf phdr, elfHeader locals (oneSegment offset vaddr filesz memsz) = some elf ∧ e_phnum elf = 1#64
        ∧ readInto (oneSegment offset vaddr filesz memsz) { size := sizeofPhdr, byte := locals.phdr }
          (e_phoff elf + BitVec.ofNat 64 (0 * sizeofPhdr)) (BitVec.ofNat 64 sizeofPhdr) = some phdr
        ∧ IsHeader phdr offset vaddr filesz memsz := by
  have helf := @readInto_of_copies { size := sizeofEhdr, byte := locals.elf } 0#64 (BitVec.ofNat 64 sizeofEhdr)
    (oneSegment offset vaddr filesz memsz) (oneSegment_copies (by decide)) rfl (oneSegment_inside (by decide))
  have hphdr := @readInto_of_copies { size := sizeofPhdr, byte := locals.phdr } 64#64 (BitVec.ofNat 64 sizeofPhdr)
    (oneSegment offset vaddr filesz memsz) (oneSegment_copies (by decide)) rfl (oneSegment_inside (by decide))
  have hphoff : ∀ dest : Block, e_phoff (dest.overlay 0 (oneSegment offset vaddr filesz memsz).data.mem
      (0#64 : BitVec 64).toInt (BitVec.ofNat 64 sizeofEhdr).toNat) = 64#64 :=
    fun dest => @field_image _ dest 4 0 64 8 (by omega) (by omega)
  refine ⟨_, Block.overlay ⟨sizeofPhdr, locals.phdr⟩ 0 (oneSegment offset vaddr filesz memsz).data.mem
    (64#64 : BitVec 64).toInt (BitVec.ofNat 64 sizeofPhdr).toNat, helf, ?_, ?_, ?_⟩
  . exact @field_image _ _ 7 0 64 2 (by omega) (by omega)
  . rw [hphoff]
    exact hphdr
  . constructor
    case type => exact @field_image _ _ 0 8 56 4 (by omega) (by omega)
    case offset =>
      apply (@field_image _ _ 1 8 56 8 (by omega) (by omega)).trans
      exact word_toNat offset
    case vaddr =>
      apply (@field_image _ _ 2 8 56 8 (by omega) (by omega)).trans
      exact word_toNat vaddr
    case filesz =>
      apply (@field_image _ _ 4 8 56 8 (by omega) (by omega)).trans
      exact word_toNat filesz
    case memsz =>
      apply (@field_image _ _ 5 8 56 8 (by omega) (by omega)).trans
      exact word_toNat memsz

theorem header_pagecount (h : IsHeader phdr offset vaddr filesz memsz)
    : pagecount phdr = DIV_ROUNDUP memsz pgsize := by
  unfold pagecount
  rw [h.memsz]

theorem fits_of_header {vn : Fs.File} {locals : Locals} (h : IsHeader phdr offset vaddr filesz memsz)
    (hsegments : segments locals vn = [phdr])
    (hle : filesz.toNat ≤ (DIV_ROUNDUP memsz pgsize).toNat * PGSIZE) : ∀ b ∈ segments locals vn, Fits vn b := by
  intro b hb _
  rw [hsegments, List.mem_singleton] at hb
  rw [hb, header_pagecount h, h.filesz]
  exact hle

theorem oneSegment_returns {s : State} {vmap : Addr} {q m : Nat} (locals : Locals) (hgood : Good (single vmap) s.vm)
    (hcopies : ¬ 120#64 < offset + filesz) (hin : 0 ≤ offset.toInt ∧ offset.toInt + filesz.toNat ≤ 120)
    (hroom : FreeRun s.bm q (4 * (DIV_ROUNDUP memsz pgsize).toNat + m))
    : ∃ phdr, IsHeader phdr offset vaddr filesz memsz
        ∧ segments locals (oneSegment offset vaddr filesz memsz) = [phdr]
        ∧ ∃ aux s', loadelf.file locals vmap (oneSegment offset vaddr filesz memsz) s = .ok aux s'
          ∧ ∃ q', FreeRun s'.bm q' m := by
  rcases oneSegment_header locals offset vaddr filesz memsz with ⟨elf, phdr, helf, hnum, hphdr, hheader⟩
  rw [← header_pagecount hheader] at hroom
  have hread : ∀ buf : Block, buf.size = (p_filesz phdr).toNat →
      readInto (oneSegment offset vaddr filesz memsz) buf (p_offset phdr) (p_filesz phdr) ≠ none := by
    intro buf hbuf
    rw [hheader.filesz, hheader.offset] at *
    rw [readInto_of_copies (oneSegment_copies hcopies) hbuf (oneSegment_inside hin)]
    exact Option.some_ne_none _
  have hone : (e_phnum elf).toNat = 1 := by
    rw [hnum]
    rfl
  exact ⟨phdr, hheader, file_returns hgood helf hone hphdr hheader.type hread hroom⟩

end Image

section Sample

theorem frame_page {p : Nat} (hp : p ≠ 0) (hlt : p < 2 ^ 40) : Vmm.PTE_GET_ADDR (frame p) = frame p := by
  apply Vmm.firstPages_page hlt
  unfold Vmm.firstPages
  rw [List.mem_map]
  refine ⟨p - 1, List.mem_range.mpr (by omega), ?_⟩
  rw [Nat.sub_add_cancel (by omega)]
  rfl

theorem sixtyFour_lt : 64 < 2 ^ 49 := by
  decide

theorem setRun_test_of_zero {bm : Pmm.Bitmap} (h : ∀ k, bm.byte k = 0#8) (p : Nat)
    : bitmap_test (Pmm.setRun bm 0 1) p = true ↔ p = 0 := by
  rw [setRun_test]
  have hclear : bitmap_test bm p = false := by
    unfold Pmm.bitmap_test
    rw [h, BitVec.zero_and]
    rfl
  rw [hclear]
  simp only [Bool.false_eq_true, false_or]
  omega

theorem freeRun_of_test {bm : Pmm.Bitmap} {n : Nat} (h : ∀ p, bitmap_test bm p = true ↔ p = 0) (hn : 1 + n ≤ bm.pages)
    : FreeRun bm 1 n := by
  refine ⟨hn, ?_⟩
  intro i hi _
  rw [Bool.eq_false_iff]
  intro hset
  rw [(h i).mp hset] at hi
  omega

def sampleBitmap : Pmm.Bitmap :=
  Pmm.setRun { addr := 0, size := 64, byte := fun _ => 0#8, size_lt := sixtyFour_lt } 0 1

theorem sampleBitmap_pages : sampleBitmap.pages = 512 := by
  unfold sampleBitmap
  rw [setRun_pages]
  rfl

theorem sampleBitmap_test (p : Nat) : bitmap_test sampleBitmap p = true ↔ p = 0 :=
  setRun_test_of_zero (fun _ => rfl) p

def sampleState : State where
  fs := Fs.St.empty Fs.zeroed
  file _ := oneSegment 0#64 0#64 0#64 0#64
  mem _ _ := 0#64
  bm := sampleBitmap
  heap _ := 0
  slabs := 0
  id := 0
  regs := { rsp := 0#64, rip := 0#64, cs := 0#64, ss := 0#64, eflags := 0#64 }
  vmap := P2V (frame 0)
  rsp0 := 0#64
  copies := []

def sampleLocals : Locals where
  vn := none
  elf _ := 0
  phdr _ := 0
  aux := { at_entry := 0#64, at_phdr := 0#64, at_phent := 0#64, at_phnum := 0#64 }

theorem sampleState_room : FreeRun sampleState.bm 1 511 :=
  freeRun_of_test sampleBitmap_test (Nat.le_of_eq sampleBitmap_pages.symm)

theorem sampleState_good : Good (single (P2V (frame 0))) sampleState.vm := by
  have hzero : ∀ idx, sampleState.vm.mem (P2V (frame 0)) idx = 0#64 := fun _ => rfl
  have hsupply : ∀ page ∈ sampleState.vm.supply, ∃ p, p ≠ 0 ∧ p < 512 ∧ page = frame p := by
    intro page hpage
    rcases vm_supply_iff.mp hpage with ⟨p, hp, hclear, heq⟩
    change p < sampleBitmap.pages at hp
    rw [sampleBitmap_pages] at hp
    refine ⟨p, ?_, hp, heq⟩
    rintro rfl
    rw [show bitmap_test sampleState.bm 0 = true from (sampleBitmap_test 0).mpr rfl] at hclear
    cases hclear
  apply Vmm.FreshSupply.good _ (Vmm.Mapped.zero hzero).forest
  constructor
  . exact supply_nodup _ _
  . intro page hpage
    rcases hsupply page hpage with ⟨p, hne, hlt, rfl⟩
    exact frame_page (by omega) (by omega)
  . rintro page hpage ⟨path, _, hfollow⟩
    rcases hsupply page hpage with ⟨p, hne, hlt, rfl⟩
    rw [Vmm.follow_zero hzero hfollow] at hfollow
    exact hne (frame_inj (by omega) (by omega) (Vmm.P2V_inj (Option.some.inj hfollow)).symm)

theorem sampleState_returns {offset vaddr filesz memsz : BitVec 64} (hcopies : ¬ 120#64 < offset + filesz)
    (hin : 0 ≤ offset.toInt ∧ offset.toInt + filesz.toNat ≤ 120)
    (hpages : 4 * (DIV_ROUNDUP memsz pgsize).toNat ≤ 511)
    : ∃ phdr, IsHeader phdr offset vaddr filesz memsz
        ∧ segments sampleLocals (oneSegment offset vaddr filesz memsz) = [phdr]
        ∧ ∃ aux s', loadelf.file sampleLocals (P2V (frame 0)) (oneSegment offset vaddr filesz memsz) sampleState =
          .ok aux s' := by
  have hroom : FreeRun sampleState.bm 1 (4 * (DIV_ROUNDUP memsz pgsize).toNat + 0) :=
    freeRun_sub sampleState_room (Nat.le_refl 1) (by omega)
  rcases oneSegment_returns sampleLocals sampleState_good hcopies hin hroom with
    ⟨phdr, hheader, hsegments, aux, s', hrun, _⟩
  exact ⟨phdr, hheader, hsegments, aux, s', hrun⟩

end Sample

end Exec
end Franklin
