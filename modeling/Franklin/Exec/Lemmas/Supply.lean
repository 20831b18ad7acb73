import Franklin.Exec.Basic
import Franklin.Pmm.Lemmas.Scan
import Franklin.Vmm.Lemmas.Confined

/-!
This module contains the pages that `palloc` hands out: they are the clear bits of the bitmap, and they are set
afterwards.
-/

namespace Franklin
namespace Exec

open Vmm (Addr Mem Vm Good P2V)
open Pmm (Bitmap bitmap_test FreeRun setRun)

def frame (p : Nat) : Addr :=
  BitVec.ofNat 64 (p * PGSIZE)

section Palloc

variable {bm bm' : Bitmap} {addr n p q : Nat}

theorem frame_toNat (hp : p < 2 ^ 52) : (frame p).toNat = p * PGSIZE := by
  unfold frame PGSIZE
  rw [BitVec.toNat_ofNat]
  omega

theorem frame_inj (hp : p < 2 ^ 52) (hq : q < 2 ^ 52) (h : frame p = frame q) : p = q := by
  have hnat := congrArg BitVec.toNat h
  rw [frame_toNat hp, frame_toNat hq] at hnat
  unfold PGSIZE at hnat
  omega

theorem setRun_test (bm : Bitmap) (p n i : Nat)
    : bitmap_test (setRun bm p n) i = true ↔ bitmap_test bm i = true ∨ (p ≤ i ∧ i < p + n) := by
  have htaken := congrArg (fun s => i ∈ s) (Pmm.setRun_taken bm p n)
  simp only [Pmm.Bitmap.mem_taken, Set.mem_union, Set.mem_Ico] at htaken
  rw [htaken]

theorem setRun_pages (bm : Bitmap) (p n : Nat) : (setRun bm p n).pages = bm.pages := by
  unfold Pmm.Bitmap.pages
  rw [Pmm.setRun_size]

theorem palloc_run (hn : n ≤ 2 ^ 52) (h : Pmm.palloc bm n = some (addr, bm'))
    : ∃ p, addr = p * PGSIZE ∧ bm' = setRun bm p n ∧ FreeRun bm p n := by
  have hlt := bm.pages_lt
  unfold Pmm.palloc at h
  split at h
  . cases h
  . next p hscan =>
    rcases Pmm.palloc.At.of_scanbitmap_eq_some Pmm.palloc.At.start (Nat.zero_le _) hscan with ⟨_, hp, hclear⟩
    have hmod : (p + n) % 2 ^ 64 = p + n := Nat.mod_eq_of_lt (by omega)
    rw [hmod, Nat.add_sub_cancel_left] at hclear
    rw [hmod, Nat.add_sub_cancel_left] at h
    rcases Prod.mk.inj (Option.some.inj h) with ⟨haddr, hbm⟩
    refine ⟨p, ?_, hbm.symm, ?_, ?_⟩
    . rw [← haddr]
      unfold PGSIZE
      omega
    . cases n with
      | zero => exact hp
      | succ n =>
        have hlast := (hclear (p + n) (by omega) (by omega)).1
        omega
    . intro i hi hi'
      exact (hclear i hi hi').2

theorem palloc_one_none (h : Pmm.palloc bm 1 = none) (hp : p < bm.pages) : bitmap_test bm p = true := by
  by_contra hclear
  have hrun : FreeRun bm p 1 := by
    refine ⟨by omega, ?_⟩
    intro i hi hi'
    rw [show i = p by omega]
    exact Bool.eq_false_iff.mpr hclear
  rcases Pmm.palloc_eq_some hrun with ⟨q, hq, _⟩
  rw [h] at hq
  cases hq

theorem palloc_one_first (h : Pmm.palloc bm 1 = some (addr, bm'))
    : ∃ p, addr = p * PGSIZE ∧ bm' = setRun bm p 1 ∧ p < bm.pages ∧ bitmap_test bm p = false
        ∧ ∀ q, q < p → bitmap_test bm q = true := by
  rcases palloc_run (by omega) h with ⟨p, haddr, hbm, hrun⟩
  rcases Pmm.palloc_eq_some hrun with ⟨r, hr, _, hfirst⟩
  rw [h] at hr
  have hrp : r = p := by
    have heq := (Prod.mk.inj (Option.some.inj hr)).1
    rw [haddr] at heq
    unfold PGSIZE at heq
    omega
  refine ⟨p, haddr, hbm, ?_, hrun.2 p (Nat.le_refl p) (by omega), ?_⟩
  . have hle := hrun.1
    omega
  . intro q hq
    by_contra hclear
    apply hfirst q (by omega)
    refine ⟨?_, ?_⟩
    . have hle := hrun.1
      omega
    . intro i hi hi'
      rw [show i = q by omega]
      exact Bool.eq_false_iff.mpr hclear

end Palloc

section Supply

variable {bm : Bitmap} {n m p : Nat} {page : Addr}

theorem supply_succ_none (h : Pmm.palloc bm 1 = none) : supply bm (n + 1) = [] := by
  unfold supply
  rw [h]

theorem supply_succ_some {addr : Nat} {bm' : Bitmap} (h : Pmm.palloc bm 1 = some (addr, bm'))
    : supply bm (n + 1) = BitVec.ofNat 64 addr :: supply bm' n := by
  conv => lhs; unfold supply
  rw [h]

theorem exists_of_mem_supply (h : page ∈ supply bm n)
    : ∃ p, p < bm.pages ∧ bitmap_test bm p = false ∧ page = frame p := by
  induction n generalizing bm with
  | zero => cases h
  | succ n ih =>
    cases hpalloc : Pmm.palloc bm 1 with
    | none =>
      rw [supply_succ_none hpalloc] at h
      cases h
    | some res =>
      rcases res with ⟨addr, bm'⟩
      rcases palloc_one_first hpalloc with ⟨q, rfl, rfl, hq, hclear, _⟩
      rw [supply_succ_some hpalloc, List.mem_cons] at h
      rcases h with rfl | h
      . exact ⟨q, hq, hclear, rfl⟩
      . rcases ih h with ⟨p, hp, hclearp, heq⟩
        rw [setRun_pages] at hp
        refine ⟨p, hp, ?_, heq⟩
        rw [Bool.eq_false_iff] at *
        intro hset
        exact hclearp ((setRun_test _ _ _ _).mpr (Or.inl hset))

theorem mem_supply_of_clear (hp : p < bm.pages) (hclear : bitmap_test bm p = false)
    (hbelow : ∀ q, q < m → bitmap_test bm q = true) (hpm : p < m + n) : frame p ∈ supply bm n := by
  induction n generalizing bm m with
  | zero =>
    rw [hbelow p (by omega)] at hclear
    cases hclear
  | succ n ih =>
    cases hpalloc : Pmm.palloc bm 1 with
    | none =>
      rw [palloc_one_none hpalloc hp] at hclear
      cases hclear
    | some res =>
      rcases res with ⟨addr, bm'⟩
      rcases palloc_one_first hpalloc with ⟨q, rfl, rfl, hq, hqclear, hfirst⟩
      rw [supply_succ_some hpalloc, List.mem_cons]
      by_cases hpq : p = q
      . rw [hpq]
        exact Or.inl rfl
      . have hqp : q < p := by
          by_contra hle
          rw [hfirst p (by omega)] at hclear
          cases hclear
        have hmq : m ≤ q := by
          by_contra hlt
          rw [hbelow q (by omega)] at hqclear
          cases hqclear
        right
        apply @ih _ (q + 1)
        . rw [setRun_pages]
          exact hp
        . rw [Bool.eq_false_iff] at *
          intro hset
          rcases (setRun_test _ _ _ _).mp hset with hset | hset
          . exact hclear hset
          . omega
        . intro r hr
          rw [setRun_test]
          by_cases hrq : r < q
          . exact Or.inl (hfirst r hrq)
          . exact Or.inr (by omega)
        . omega

theorem mem_supply_iff
    : page ∈ supply bm bm.pages ↔ ∃ p, p < bm.pages ∧ bitmap_test bm p = false ∧ page = frame p := by
  constructor
  . exact exists_of_mem_supply
  . rintro ⟨p, hp, hclear, rfl⟩
    exact mem_supply_of_clear hp hclear (fun q hq => absurd hq (Nat.not_lt_zero q)) (by omega)

theorem supply_nodup (bm : Bitmap) (n : Nat) : (supply bm n).Nodup := by
  induction n generalizing bm with
  | zero => exact List.nodup_nil
  | succ n ih =>
    cases hpalloc : Pmm.palloc bm 1 with
    | none =>
      rw [supply_succ_none hpalloc]
      exact List.nodup_nil
    | some res =>
      rcases res with ⟨addr, bm'⟩
      rcases palloc_one_first hpalloc with ⟨q, rfl, rfl, hq, _, _⟩
      rw [supply_succ_some hpalloc, List.nodup_cons]
      refine ⟨?_, ih _⟩
      intro hmem
      rcases exists_of_mem_supply hmem with ⟨p, hp, hclear, heq⟩
      have hlt := bm.pages_lt
      rw [setRun_pages] at hp
      have hpq := frame_inj (by omega) (by omega) heq
      rw [Bool.eq_false_iff] at hclear
      exact hclear ((setRun_test _ _ _ _).mpr (Or.inr (by omega)))

theorem taken_pages (bm : Bitmap) (n : Nat) : (taken bm n).pages = bm.pages := by
  induction n generalizing bm with
  | zero => rfl
  | succ n ih =>
    unfold taken
    split
    . rfl
    . next page bm' hpalloc =>
      rcases palloc_one_first hpalloc with ⟨p, _, rfl, _⟩
      rw [ih, setRun_pages]

theorem taken_test (hp : p < bm.pages)
    : bitmap_test (taken bm m) p = true ↔ bitmap_test bm p = true ∨ frame p ∈ supply bm m := by
  induction m generalizing bm with
  | zero => simp [taken, supply]
  | succ m ih =>
    cases hpalloc : Pmm.palloc bm 1 with
    | none =>
      rw [supply_succ_none hpalloc]
      unfold taken
      rw [hpalloc]
      simp
    | some res =>
      rcases res with ⟨addr, bm'⟩
      rcases palloc_one_first hpalloc with ⟨q, rfl, rfl, hq, _, _⟩
      have hlt := bm.pages_lt
      unfold taken
      rw [hpalloc, supply_succ_some hpalloc]
      dsimp only
      rw [ih (by rw [setRun_pages]; exact hp), setRun_test, List.mem_cons, or_assoc]
      apply or_congr_right
      apply or_congr_left
      constructor
      . intro hle
        rw [show q = p by omega]
        rfl
      . intro heq
        have hpq := frame_inj (by omega) (by omega) heq
        omega

theorem supply_take (h : m ≤ n) : supply bm m = (supply bm n).take m := by
  induction m generalizing bm n with
  | zero => rw [List.take_zero]; rfl
  | succ m ih =>
    cases n with
    | zero => omega
    | succ n =>
      cases hpalloc : Pmm.palloc bm 1 with
      | none =>
        rw [supply_succ_none hpalloc, supply_succ_none hpalloc, List.take_nil]
      | some res =>
        rcases res with ⟨addr, bm'⟩
        rw [supply_succ_some hpalloc, supply_succ_some hpalloc, List.take_succ_cons,
          @ih bm' n (by omega)]

theorem supply_length_le (bm : Bitmap) (n : Nat) : (supply bm n).length ≤ n := by
  have htake : (supply bm n).take n = supply bm n := (supply_take (Nat.le_refl n)).symm
  exact List.take_eq_self_iff _ |>.mp htake

end Supply

section WithVm

open Radix

variable {shape : Shape Addr (BitVec 9)} {s : State} {vm : Vm} {p : Nat}

theorem vm_supply_iff {page : Addr}
    : page ∈ s.vm.supply ↔ ∃ p, p < s.bm.pages ∧ bitmap_test s.bm p = false ∧ page = frame p :=
  mem_supply_iff

theorem withVm_pages (s : State) (vm : Vm) : (s.withVm vm).bm.pages = s.bm.pages :=
  taken_pages _ _

theorem withVm_test (hsupply : ∃ used, s.vm.supply = used ++ vm.supply) (hp : p < s.bm.pages)
    : bitmap_test (s.withVm vm).bm p = true ↔ bitmap_test s.bm p = true ∨ Vmm.Used s.vm vm (P2V (frame p)) := by
  rcases hsupply with ⟨used, hused⟩
  have hlength : s.vm.supply.length - vm.supply.length = used.length := by
    rw [hused, List.length_append]
    omega
  have hle : used.length ≤ s.bm.pages := by
    have hall : s.vm.supply.length ≤ s.bm.pages := supply_length_le _ _
    rw [hused, List.length_append] at hall
    omega
  have htake : supply s.bm used.length = used := by
    rw [supply_take hle]
    change s.vm.supply.take used.length = used
    rw [hused, List.take_left]
  have hnodup : s.vm.supply.Nodup := supply_nodup _ _
  rw [hused] at hnodup
  have hiff : Vmm.Used s.vm vm (P2V (frame p)) ↔ frame p ∈ used := by
    constructor
    . rintro ⟨page, hmem, hnot, heq⟩
      rw [Vmm.P2V_inj heq]
      rw [hused, List.mem_append] at hmem
      exact hmem.resolve_right hnot
    . intro hmem
      refine ⟨frame p, ?_, ?_, rfl⟩
      . rw [hused]
        exact List.mem_append_left _ hmem
      . exact (List.disjoint_of_nodup_append hnodup) hmem
  rw [hiff]
  unfold State.withVm
  dsimp only
  rw [hlength, taken_test hp, htake]

theorem withVm_supply (hsupply : ∃ used, s.vm.supply = used ++ vm.supply) {page : Addr}
    (hpage : page ∈ (s.withVm vm).vm.supply) : page ∈ vm.supply := by
  rcases vm_supply_iff.mp hpage with ⟨p, hp, hclear, rfl⟩
  rw [withVm_pages] at hp
  rw [Bool.eq_false_iff] at hclear
  have hnot : ¬ (bitmap_test s.bm p = true ∨ Vmm.Used s.vm vm (P2V (frame p))) := by
    rw [← withVm_test hsupply hp]
    exact hclear
  by_contra hused
  apply hnot
  right
  refine ⟨frame p, ?_, hused, rfl⟩
  exact vm_supply_iff.mpr ⟨p, hp, Bool.eq_false_iff.mpr (fun hset => hnot (Or.inl hset)), rfl⟩

theorem withVm_good (hsupply : ∃ used, s.vm.supply = used ++ vm.supply) (h : Good shape vm)
    : Good shape (s.withVm vm).vm :=
  h.mono rfl (supply_nodup _ _) (fun _ hpage => withVm_supply hsupply hpage)

end WithVm

section Room

variable {bm : Bitmap} {n m q : Nat}

theorem freeRun_sub {p k : Nat} (h : FreeRun bm q n) (hp : q ≤ p) (hk : p + k ≤ q + n) : FreeRun bm p k := by
  refine ⟨?_, ?_⟩
  . have hle := h.1
    omega
  . intro i hi hi'
    exact h.2 i (by omega) (by omega)

theorem freeRun_setRun {p k : Nat} (h : FreeRun bm q n) (hk : p + k ≤ q ∨ q + n ≤ p)
    : FreeRun (setRun bm p k) q n := by
  refine ⟨?_, ?_⟩
  . rw [setRun_pages]
    exact h.1
  . intro i hi hi'
    have hclear := h.2 i hi hi'
    rw [Bool.eq_false_iff] at *
    intro hset
    rcases (setRun_test _ _ _ _).mp hset with hset | hset
    . exact hclear hset
    . omega

theorem palloc_room (h : FreeRun bm q n) (hm : m ≤ n)
    : ∃ p q', Pmm.palloc bm m = some (p * PGSIZE, setRun bm p m) ∧ FreeRun bm p m
        ∧ FreeRun (setRun bm p m) q' (n - m) := by
  have hsub : FreeRun bm q m := freeRun_sub h (Nat.le_refl q) (by omega)
  rcases Pmm.palloc_eq_some hsub with ⟨p, hp, hrun, hfirst⟩
  have hpq : p ≤ q := by
    by_contra hlt
    exact hfirst q (by omega) hsub
  by_cases hover : q < p + m
  . have hrest : FreeRun bm (p + m) (n - m) := freeRun_sub h (by omega) (by omega)
    exact ⟨p, p + m, hp, hrun, freeRun_setRun hrest (Or.inl (by omega))⟩
  . have hrest : FreeRun bm q (n - m) := freeRun_sub h (Nat.le_refl q) (by omega)
    exact ⟨p, q, hp, hrun, freeRun_setRun hrest (Or.inl (by omega))⟩

theorem taken_room (h : FreeRun bm q n) (hm : m ≤ n) : ∃ q', FreeRun (taken bm m) q' (n - m) := by
  induction m generalizing bm q n with
  | zero => exact ⟨q, h⟩
  | succ m ih =>
    rcases palloc_room h (show 1 ≤ n by omega) with ⟨p, q', hpalloc, _, hrest⟩
    rcases ih hrest (by omega) with ⟨q'', hq''⟩
    refine ⟨q'', ?_⟩
    unfold taken
    rw [hpalloc]
    rw [show n - (m + 1) = n - 1 - m by omega]
    exact hq''

theorem supply_length (h : FreeRun bm q n) (hm : m ≤ n) : (supply bm m).length = m := by
  induction m generalizing bm q n with
  | zero => rfl
  | succ m ih =>
    rcases palloc_room h (show 1 ≤ n by omega) with ⟨p, q', hpalloc, _, hrest⟩
    rw [supply_succ_some hpalloc, List.length_cons, ih hrest (by omega)]

end Room

end Exec
end Franklin
