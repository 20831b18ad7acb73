import Mathlib.Data.List.Basic
import Franklin.Pmm.Lemmas.Bitmap

namespace Franklin
namespace Pmm

namespace MemmapEntry

def Usable (entry : MemmapEntry) : Prop :=
  entry.type = 0

instance (entry : MemmapEntry) : Decidable entry.Usable :=
  inferInstanceAs (Decidable (entry.type = 0))

def range (entry : MemmapEntry) : Set Nat :=
  Set.Ico entry.base (entry.base + entry.length)

/--
The pages that iteration 3 of `initbmap` frees for an entry.
-/
def freed (entry : MemmapEntry) : Set Nat :=
  Set.Ico (entry.base / PGSIZE) (entry.base / PGSIZE + (entry.length + (PGSIZE - 1)) / PGSIZE)

end MemmapEntry

def pageRange (p : Nat) : Set Nat :=
  Set.Ico (p * PGSIZE) ((p + 1) * PGSIZE)

namespace initbmap

def entryBits (base j : Nat) : Nat → List Nat
  | 0 => []
  | n + 1 => (base + j) / PGSIZE :: entryBits base (j + PGSIZE) n

/--
The bits that iteration 3 of `initbmap` clears, in their order.
-/
def clearedBits : List MemmapEntry → List Nat
  | [] => []
  | entry :: entries =>
    if entry.type ≠ 0 then
      clearedBits entries
    else
      entryBits entry.base 0 ((entry.length + (PGSIZE - 1)) / PGSIZE) ++ clearedBits entries

theorem freeEntry_eq_foldl (bm : Bitmap) (base j n : Nat)
    : freeEntry bm base j n = (entryBits base j n).foldl bitmap_reset bm := by
  induction n generalizing bm j with
  | zero => rfl
  | succ n ih =>
    unfold freeEntry entryBits
    rw [List.foldl_cons, ih]

theorem freeUsable_eq_foldl (bm : Bitmap) (entries : List MemmapEntry)
    : freeUsable bm entries = (clearedBits entries).foldl bitmap_reset bm := by
  induction entries generalizing bm with
  | nil => rfl
  | cons entry entries ih =>
    unfold freeUsable clearedBits
    split
    . apply ih
    . rw [List.foldl_append, ih, freeEntry_eq_foldl]

theorem mem_entryBits {base j n p : Nat}
    : p ∈ entryBits base j n ↔ (base + j) / PGSIZE ≤ p ∧ p < (base + j) / PGSIZE + n := by
  induction n generalizing j with
  | zero =>
    simp only [entryBits, List.not_mem_nil, false_iff]
    omega
  | succ n ih =>
    have hnext : (base + (j + PGSIZE)) / PGSIZE = (base + j) / PGSIZE + 1 := by
      unfold PGSIZE
      omega
    rw [entryBits, List.mem_cons, ih, hnext]
    omega

theorem mem_clearedBits {entries : List MemmapEntry} {p : Nat}
    : p ∈ clearedBits entries ↔ ∃ entry ∈ entries, entry.Usable ∧ p ∈ entry.freed := by
  induction entries with
  | nil => simp [clearedBits]
  | cons entry entries ih =>
    unfold clearedBits
    split
    . next htype =>
      rw [ih]
      simp [MemmapEntry.Usable, htype]
    . next htype =>
      simp only [ne_eq, Decidable.not_not] at htype
      rw [List.mem_append, mem_entryBits, ih]
      simp [MemmapEntry.Usable, MemmapEntry.freed, htype]

theorem foldl_reset_taken (bm : Bitmap) (bits : List Nat) (p : Nat)
    : p ∈ (bits.foldl bitmap_reset bm).taken ↔ p ∈ bm.taken ∧ p ∉ bits := by
  induction bits generalizing bm with
  | nil => simp
  | cons bit bits ih =>
    rw [List.foldl_cons, ih, List.mem_cons, not_or, ← and_assoc]
    apply and_congr_left
    intro _
    rw [Bitmap.mem_taken, Bitmap.mem_taken, bitmap_test_reset, Bool.and_eq_true, decide_eq_true_eq]

theorem foldl_reset_addr (bm : Bitmap) (bits : List Nat) : (bits.foldl bitmap_reset bm).addr = bm.addr := by
  induction bits generalizing bm with
  | nil => rfl
  | cons bit bits ih =>
    rw [List.foldl_cons, ih]
    rfl

theorem foldl_reset_size (bm : Bitmap) (bits : List Nat) : (bits.foldl bitmap_reset bm).size = bm.size := by
  induction bits generalizing bm with
  | nil => rfl
  | cons bit bits ih =>
    rw [List.foldl_cons, ih]
    rfl

theorem freeUsable_taken (bm : Bitmap) (entries : List MemmapEntry) (p : Nat)
    : p ∈ (freeUsable bm entries).taken ↔
        p ∈ bm.taken ∧ ∀ entry ∈ entries, entry.Usable → p ∉ entry.freed := by
  rw [freeUsable_eq_foldl, foldl_reset_taken, mem_clearedBits]
  apply and_congr_right
  intro _
  rw [not_exists]
  simp only [not_and]

@[simp]
theorem freeUsable_addr (bm : Bitmap) (entries : List MemmapEntry)
    : (freeUsable bm entries).addr = bm.addr := by
  rw [freeUsable_eq_foldl, foldl_reset_addr]

@[simp]
theorem freeUsable_size (bm : Bitmap) (entries : List MemmapEntry)
    : (freeUsable bm entries).size = bm.size := by
  rw [freeUsable_eq_foldl, foldl_reset_size]

theorem placeBitmap_eq_some {bitmap_size : Nat} {entries : List MemmapEntry}
    (h : ∃ entry ∈ entries, entry.Usable ∧ bitmap_size ≤ entry.length)
    : ∃ before entry after, ∃ hle : bitmap_size ≤ entry.length,
        entries = before ++ entry :: after ∧ entry.Usable ∧
        (∀ e ∈ before, ¬(e.Usable ∧ bitmap_size ≤ e.length)) ∧
        placeBitmap bitmap_size entries =
          some (entry.base, before ++ entry.shrink bitmap_size hle :: after) := by
  induction entries with
  | nil => simp at h
  | cons entry entries ih =>
    by_cases hfit : entry.Usable ∧ bitmap_size ≤ entry.length
    . refine ⟨[], entry, entries, hfit.2, rfl, hfit.1, by simp, ?_⟩
      unfold placeBitmap
      rw [dif_pos (show entry.type = 0 ∧ bitmap_size ≤ entry.length from hfit)]
      rfl
    . have htail : ∃ e ∈ entries, e.Usable ∧ bitmap_size ≤ e.length := by
        obtain ⟨e, hmem, he⟩ := h
        cases List.mem_cons.mp hmem with
        | inl heq => exact absurd (heq ▸ he) hfit
        | inr hmem => exact ⟨e, hmem, he⟩
      obtain ⟨before, e, after, hle, hsplit, husable, hbefore, hplace⟩ := ih htail
      refine ⟨entry :: before, e, after, hle, by simp [hsplit], husable, ?_, ?_⟩
      . intro e' he'
        cases List.mem_cons.mp he' with
        | inl heq => exact heq ▸ hfit
        | inr hmem => exact hbefore e' hmem
      . unfold placeBitmap
        rw [dif_neg (show ¬(entry.type = 0 ∧ bitmap_size ≤ entry.length) from hfit), hplace]
        rfl

theorem find_area {size : Nat} {entries before after : List MemmapEntry} {area : MemmapEntry}
    (hsplit : entries = before ++ area :: after) (husable : area.Usable) (hle : size ≤ area.length)
    (hbefore : ∀ e ∈ before, ¬(e.Usable ∧ size ≤ e.length))
    : entries.find? (fun e => decide (e.Usable ∧ size ≤ e.length)) = some area := by
  rw [List.find?_eq_some_iff_append]
  refine ⟨decide_eq_true ⟨husable, hle⟩, before, after, hsplit, ?_⟩
  intro e he
  rw [Bool.not_eq_true', decide_eq_false_iff_not]
  exact hbefore e he

end initbmap

/--
What the bootloader promises about its memory map, and that the bitmap fits into one of the areas.
-/
structure BootMap (entries : List MemmapEntry) : Prop where
  base_aligned : ∀ entry ∈ entries, entry.Usable → PGSIZE ∣ entry.base
  length_aligned : ∀ entry ∈ entries, entry.Usable → PGSIZE ∣ entry.length
  disjoint : entries.Pairwise fun a b => a.Usable → b.Usable → Disjoint a.range b.range
  fits : ∃ entry ∈ entries, entry.Usable ∧ initbmap.bitmapSize entries ≤ entry.length

def usableEnd : List MemmapEntry → Nat
  | [] => 0
  | entry :: entries =>
    if entry.Usable then
      max (entry.base + entry.length) (usableEnd entries)
    else
      usableEnd entries

theorem initbmap.highestAddr_eq_max (highest_addr : Nat) (entries : List MemmapEntry)
    : highestAddr highest_addr entries = max highest_addr (usableEnd entries) := by
  induction entries generalizing highest_addr with
  | nil => simp [highestAddr, usableEnd]
  | cons entry entries ih =>
    unfold highestAddr usableEnd
    by_cases htype : entry.type = 0
    . simp only [MemmapEntry.Usable, htype, ne_eq, not_true_eq_false, ↓reduceIte, ih]
      split <;> omega
    . simp [MemmapEntry.Usable, htype, ih]

/--
A page is free only if it lies inside a usable area and holds no byte of the bitmap.
-/
def FreePagesUsable (bm : Bitmap) (entries : List MemmapEntry) : Prop :=
  ∀ p < bm.pages, bitmap_test bm p = false →
    (∃ entry ∈ entries, entry.Usable ∧ pageRange p ⊆ entry.range) ∧
    Disjoint (pageRange p) (Set.Ico bm.addr (bm.addr + bm.size))

/--
With `size` the byte count of the bitmap and `entry` the first usable area of that length, the bitmap
ends at a page boundary or the page it ends in has no bit.
-/
def BitmapEndsClean (entries : List MemmapEntry) : Prop :=
  let size := usableEnd entries / PGSIZE / 8
  ∀ entry, entries.find? (fun e => decide (e.Usable ∧ size ≤ e.length)) = some entry →
    PGSIZE ∣ size ∨ 8 * size ≤ (entry.base + size) / PGSIZE

theorem initbmap.bitmapSize_eq (entries : List MemmapEntry)
    : bitmapSize entries = usableEnd entries / PGSIZE / 8 := by
  unfold bitmapSize
  rw [highestAddr_eq_max, Nat.zero_max]

namespace initbmap

theorem pageRange_subset_of_mem_freed {entry : MemmapEntry} {p : Nat} (hbase : PGSIZE ∣ entry.base)
    (hlength : PGSIZE ∣ entry.length) (hp : p ∈ entry.freed) : pageRange p ⊆ entry.range := by
  intro a ha
  simp only [pageRange, MemmapEntry.range, MemmapEntry.freed, PGSIZE, Set.mem_Ico] at *
  omega

theorem pageRange_subset_of_mem_freed_shrink {entry : MemmapEntry} {p size : Nat}
    (hle : size ≤ entry.length) (hbase : PGSIZE ∣ entry.base) (hlength : PGSIZE ∣ entry.length)
    (hp : p ∈ (entry.shrink size hle).freed) : pageRange p ⊆ entry.range := by
  intro a ha
  simp only [pageRange, MemmapEntry.range, MemmapEntry.freed, MemmapEntry.shrink, PGSIZE,
    Set.mem_Ico] at *
  omega

theorem disjoint_bitmap_of_mem_freed_shrink {entry : MemmapEntry} {p size : Nat}
    (hle : size ≤ entry.length) (hbase : PGSIZE ∣ entry.base) (hsize : PGSIZE ∣ size)
    (hp : p ∈ (entry.shrink size hle).freed)
    : Disjoint (pageRange p) (Set.Ico entry.base (entry.base + size)) := by
  rw [Set.disjoint_left]
  intro a ha
  simp only [pageRange, MemmapEntry.freed, MemmapEntry.shrink, PGSIZE, Set.mem_Ico] at *
  omega

theorem bitmapEnd_mem_freed {entry : MemmapEntry} {size : Nat} (hle : size ≤ entry.length)
    (hlength : PGSIZE ∣ entry.length) (hsize : ¬PGSIZE ∣ size)
    : (entry.base + size) / PGSIZE ∈ (entry.shrink size hle).freed := by
  simp only [MemmapEntry.freed, MemmapEntry.shrink, PGSIZE, Set.mem_Ico] at *
  omega

theorem not_disjoint_bitmapEnd {entry : MemmapEntry} {size : Nat} (hbase : PGSIZE ∣ entry.base)
    (hsize : ¬PGSIZE ∣ size)
    : ¬Disjoint (pageRange ((entry.base + size) / PGSIZE))
        (Set.Ico entry.base (entry.base + size)) := by
  rw [Set.not_disjoint_iff]
  refine ⟨(entry.base + size) / PGSIZE * PGSIZE, ?_, ?_⟩ <;>
    simp only [pageRange, PGSIZE, Set.mem_Ico] at * <;> omega

end initbmap

theorem initbmap.mem_fullBitmap_taken {mem : Nat → BitVec 8} {entries : List MemmapEntry}
    {base p : Nat} (hp : p < 8 * bitmapSize entries) : p ∈ (fullBitmap mem entries base).taken := by
  have hbyte : p / 8 < bitmapSize entries := by omega
  have hbit : p % 8 < 8 := Nat.mod_lt p (by omega)
  rw [Bitmap.mem_taken, bitmap_test_eq_getLsbD]
  simp only [fullBitmap, hbyte, ↓reduceIte]
  rw [show 0xff#8 = BitVec.allOnes 8 by rfl, BitVec.getLsbD_allOnes]
  simpa using hbit

theorem initbmap.test_freeUsable_fullBitmap {mem : Nat → BitVec 8} {entries entries' : List MemmapEntry}
    {base p : Nat} (hp : p < 8 * bitmapSize entries)
    : bitmap_test (freeUsable (fullBitmap mem entries base) entries') p = false ↔
        ∃ entry ∈ entries', entry.Usable ∧ p ∈ entry.freed := by
  have htaken := freeUsable_taken (fullBitmap mem entries base) entries' p
  rw [Bitmap.mem_taken] at htaken
  rw [← Bool.not_eq_true, htaken]
  simp [mem_fullBitmap_taken hp]

theorem BootMap.range_disjoint {before after : List MemmapEntry} {entry e : MemmapEntry}
    (h : BootMap (before ++ entry :: after)) (hentry : entry.Usable) (he : e.Usable)
    (hmem : e ∈ before ++ after) : Disjoint e.range entry.range := by
  have hpair := h.disjoint
  rw [List.pairwise_append, List.pairwise_cons] at hpair
  cases List.mem_append.mp hmem with
  | inl hbefore => exact hpair.2.2 e hbefore entry List.mem_cons_self he hentry
  | inr hafter => exact (hpair.2.1.1 e hafter hentry he).symm

/--
The free pages are as promised exactly if the bitmap does not end inside a page it has a bit for.
-/
theorem initbmap_freePagesUsable_iff (mem : Nat → BitVec 8) (entries : List MemmapEntry)
    (h : BootMap entries)
    : (∃ bm, initbmap mem entries = some bm ∧ FreePagesUsable bm entries) ↔
        BitmapEndsClean entries := by
  obtain ⟨before, entry, after, hle, hsplit, husable, hbefore, hplace⟩ :=
    initbmap.placeBitmap_eq_some h.fits
  have hmem : entry ∈ entries := by simp [hsplit]
  have hbase := h.base_aligned entry hmem husable
  have hlength := h.length_aligned entry hmem husable
  have hsize := initbmap.bitmapSize_eq entries
  have hfind := initbmap.find_area hsplit husable hle hbefore
  rw [hsize] at hfind
  have hinit : initbmap mem entries = some (initbmap.freeUsable
      (initbmap.fullBitmap mem entries entry.base)
      (before ++ entry.shrink (initbmap.bitmapSize entries) hle :: after)) := by
    unfold initbmap
    rw [hplace]
  constructor
  . rintro ⟨bm, hbm, hfree⟩ entry' hentry'
    rw [hfind, Option.some.injEq] at hentry'
    subst hentry'
    rw [← hsize]
    by_contra hends
    simp only [not_or, Nat.not_le] at hends
    rw [hinit, Option.some.injEq] at hbm
    subst hbm
    have hclear := hfree ((entry.base + initbmap.bitmapSize entries) / PGSIZE) ?_ ?_
    . have hdisj := hclear.2
      simp only [initbmap.freeUsable_addr, initbmap.freeUsable_size] at hdisj
      exact initbmap.not_disjoint_bitmapEnd hbase hends.1 hdisj
    . simpa [Bitmap.pages, initbmap.fullBitmap] using hends.2
    . rw [initbmap.test_freeUsable_fullBitmap hends.2]
      refine ⟨_, List.mem_append_right before List.mem_cons_self, husable, ?_⟩
      exact initbmap.bitmapEnd_mem_freed hle hlength hends.1
  . intro hends
    have hends := hends entry hfind
    rw [← hsize] at hends
    refine ⟨_, hinit, ?_⟩
    intro p hp hclear
    simp only [Bitmap.pages, initbmap.freeUsable_size, initbmap.freeUsable_addr] at hp ⊢
    rw [initbmap.test_freeUsable_fullBitmap hp] at hclear
    obtain ⟨e, he, heusable, hefreed⟩ := hclear
    have hcases : e = entry.shrink (initbmap.bitmapSize entries) hle ∨ e ∈ before ++ after := by
      simp only [List.mem_append, List.mem_cons] at he ⊢
      tauto
    cases hcases with
    | inl heq =>
      subst heq
      refine ⟨⟨entry, hmem, husable, ?_⟩, ?_⟩
      . exact initbmap.pageRange_subset_of_mem_freed_shrink hle hbase hlength hefreed
      . cases hends with
        | inl hdvd => exact initbmap.disjoint_bitmap_of_mem_freed_shrink hle hbase hdvd hefreed
        | inr houtside =>
          -- The pages that are freed for the rest of the area start at the one the bitmap ends in.
          have := hefreed.1
          simp only [MemmapEntry.shrink] at this
          simp only [initbmap.fullBitmap] at hp
          omega
    | inr hother =>
      have hemem : e ∈ entries := by
        rw [hsplit]
        simp only [List.mem_append, List.mem_cons] at hother ⊢
        tauto
      have hsubset := initbmap.pageRange_subset_of_mem_freed (h.base_aligned e hemem heusable)
        (h.length_aligned e hemem heusable) hefreed
      refine ⟨⟨e, hemem, heusable, hsubset⟩, ?_⟩
      have hdisj : Disjoint e.range entry.range := (hsplit ▸ h).range_disjoint husable heusable hother
      apply Set.disjoint_of_subset hsubset ?_ hdisj
      exact Set.Ico_subset_Ico_right (Nat.add_le_add_left hle entry.base)

theorem initbmap_freePagesUsable_128MiB :
    ∃ bm, initbmap (fun _ => 0#8) [⟨0x100000, 0x7f00000, 0, by decide⟩] = some bm ∧
      FreePagesUsable bm [⟨0x100000, 0x7f00000, 0, by decide⟩] := by
  rw [initbmap_freePagesUsable_iff]
  . intro entry _
    left
    decide
  . constructor <;> simp [MemmapEntry.Usable, PGSIZE, initbmap.bitmapSize, initbmap.highestAddr]

theorem initbmap_frees_bitmap_page :
    BootMap [⟨0x100000, 0x8000, 0, by decide⟩] ∧
    ¬∃ bm, initbmap (fun _ => 0#8) [⟨0x100000, 0x8000, 0, by decide⟩] = some bm ∧
      FreePagesUsable bm [⟨0x100000, 0x8000, 0, by decide⟩] := by
  constructor
  . constructor <;> simp [MemmapEntry.Usable, PGSIZE, initbmap.bitmapSize, initbmap.highestAddr]
  . rintro ⟨bm, hbm, hfree⟩
    have hbm := Option.some.inj hbm
    subst hbm
    have hdisj := (hfree 256 (by decide) (by decide)).2
    rw [Set.disjoint_left] at hdisj
    apply @hdisj 0x100000
    . simp [pageRange, PGSIZE]
    . simp [initbmap.fullBitmap, initbmap.bitmapSize, initbmap.highestAddr, PGSIZE]

end Pmm
end Franklin
