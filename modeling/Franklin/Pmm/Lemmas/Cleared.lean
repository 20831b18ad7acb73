import Franklin.Pmm.Lemmas.Initbmap

/-!
This module contains the bits that iteration 3 of `initbmap` clears, against the bytes that iteration 2 reserves.
-/

namespace Franklin
namespace Pmm

namespace initbmap

/--
The entries that iteration 3 goes through. Without an area for the bitmap it goes through the map as it was, with
whatever `bitmap` points to.
-/
def placed (entries : List MemmapEntry) : List MemmapEntry :=
  match placeBitmap (bitmapSize entries) entries with
  | none => entries
  | some (_, entries') => entries'

end initbmap

/--
Every bit that is cleared belongs to a byte that was reserved for the bitmap.
-/
def ClearsReserved (entries : List MemmapEntry) : Prop :=
  ∀ bit ∈ initbmap.clearedBits (initbmap.placed entries),
    (initbmap.placeBitmap (initbmap.bitmapSize entries) entries).isSome ∧
      bit < 8 * initbmap.bitmapSize entries

structure PageMap (entries : List MemmapEntry) : Prop where
  base_aligned : ∀ entry ∈ entries, entry.Usable → PGSIZE ∣ entry.base
  length_aligned : ∀ entry ∈ entries, entry.Usable → PGSIZE ∣ entry.length
  disjoint : entries.Pairwise fun a b => a.Usable → b.Usable → Disjoint a.range b.range

def MemmapEntry.EndsBefore (entry : MemmapEntry) (entries : List MemmapEntry) : Prop :=
  entry.base + entry.length + usableEnd entries / PGSIZE % 8 * PGSIZE ≤ usableEnd entries

/--
If there is usable memory at all, one of the areas has a byte for each eight pages below the highest usable
address, and all areas but one that the bitmap fills end before the pages that are left over.
-/
def WholeBytes (entries : List MemmapEntry) : Prop :=
  let size := usableEnd entries / PGSIZE / 8
  ∀ entry ∈ entries, entry.Usable → 0 < entry.length →
    ∃ area, entries.find? (fun e => decide (e.Usable ∧ size ≤ e.length)) = some area ∧
      (entry = area ∧ area.length = size ∨ entry.EndsBefore entries)

theorem le_usableEnd {entries : List MemmapEntry} {entry : MemmapEntry} (hmem : entry ∈ entries)
    (husable : entry.Usable) : entry.base + entry.length ≤ usableEnd entries := by
  induction entries with
  | nil => simp at hmem
  | cons e entries ih =>
    unfold usableEnd
    cases List.mem_cons.mp hmem with
    | inl heq =>
      subst heq
      rw [if_pos husable]
      omega
    | inr hmem =>
      have := ih hmem
      split <;> omega

theorem PageMap.tail {e : MemmapEntry} {entries : List MemmapEntry} (h : PageMap (e :: entries))
    : PageMap entries where
  base_aligned := fun entry hmem => h.base_aligned entry (List.mem_cons_of_mem e hmem)
  length_aligned := fun entry hmem => h.length_aligned entry (List.mem_cons_of_mem e hmem)
  disjoint := (List.pairwise_cons.mp h.disjoint).2

theorem PageMap.usableEnd_aligned {entries : List MemmapEntry} (h : PageMap entries)
    : PGSIZE ∣ usableEnd entries := by
  induction entries with
  | nil => apply Nat.dvd_zero
  | cons e entries ih =>
    have htail := ih h.tail
    unfold usableEnd
    split
    . next husable =>
      have hend := Nat.dvd_add (h.base_aligned e List.mem_cons_self husable)
        (h.length_aligned e List.mem_cons_self husable)
      cases Nat.le_total (e.base + e.length) (usableEnd entries) with
      | inl hle => rwa [Nat.max_eq_right hle]
      | inr hge => rwa [Nat.max_eq_left hge]
    . apply htail

theorem forall_mem_run_lt {a m n : Nat} : (∀ p ∈ Set.Ico a (a + m), p < n) ↔ m = 0 ∨ a + m ≤ n := by
  constructor
  . intro h
    by_cases hm : m = 0
    . exact Or.inl hm
    . have := h (a + m - 1) ⟨by omega, by omega⟩
      omega
  . intro h p hp
    rw [Set.mem_Ico] at hp
    omega

section Freed

variable {entry : MemmapEntry} {n : Nat}

theorem MemmapEntry.forall_freed_lt (hbase : PGSIZE ∣ entry.base) (hlength : PGSIZE ∣ entry.length)
    : (∀ p ∈ entry.freed, p < n) ↔ entry.length = 0 ∨ (entry.base + entry.length) / PGSIZE ≤ n := by
  unfold MemmapEntry.freed
  rw [forall_mem_run_lt]
  unfold PGSIZE at *
  omega

theorem MemmapEntry.forall_freed_shrink_lt {size : Nat} (hle : size ≤ entry.length)
    (hbase : PGSIZE ∣ entry.base) (hlength : PGSIZE ∣ entry.length)
    : (∀ p ∈ (entry.shrink size hle).freed, p < n) ↔
        entry.length = size ∨ (entry.base + entry.length) / PGSIZE ≤ n := by
  unfold MemmapEntry.freed
  rw [forall_mem_run_lt]
  unfold MemmapEntry.shrink PGSIZE at *
  dsimp only
  omega

theorem PageMap.end_le_iff {entries : List MemmapEntry} (h : PageMap entries) (hmem : entry ∈ entries)
    (husable : entry.Usable)
    : (entry.base + entry.length) / PGSIZE ≤ 8 * initbmap.bitmapSize entries ↔
        entry.EndsBefore entries := by
  have hle := le_usableEnd hmem husable
  have hstop := h.usableEnd_aligned
  have hend := Nat.dvd_add (h.base_aligned entry hmem husable) (h.length_aligned entry hmem husable)
  unfold MemmapEntry.EndsBefore
  rw [initbmap.bitmapSize_eq]
  generalize usableEnd entries = stop at *
  generalize entry.base + entry.length = last at *
  unfold PGSIZE at *
  omega

end Freed

theorem initbmap.placeBitmap_eq_none {bitmap_size : Nat} {entries : List MemmapEntry}
    (h : ¬∃ entry ∈ entries, entry.Usable ∧ bitmap_size ≤ entry.length)
    : placeBitmap bitmap_size entries = none := by
  induction entries with
  | nil => rfl
  | cons entry entries ih =>
    unfold placeBitmap
    rw [dif_neg, ih]
    . rfl
    . rintro ⟨e, hmem, he⟩
      exact h ⟨e, List.mem_cons_of_mem entry hmem, he⟩
    . intro hfit
      exact h ⟨entry, List.mem_cons_self, hfit⟩

theorem PageMap.fits {entries : List MemmapEntry} (h : PageMap entries)
    (hfit : ∃ entry ∈ entries, entry.Usable ∧ initbmap.bitmapSize entries ≤ entry.length) : BootMap entries where
  base_aligned := h.base_aligned
  length_aligned := h.length_aligned
  disjoint := h.disjoint
  fits := hfit

section Placed

variable {entries before after : List MemmapEntry} {area : MemmapEntry}

theorem PageMap.cleared_iff (h : PageMap entries) (hsplit : entries = before ++ area :: after)
    (husable : area.Usable) (hle : initbmap.bitmapSize entries ≤ area.length)
    : (∀ entry ∈ before ++ area.shrink (initbmap.bitmapSize entries) hle :: after, entry.Usable →
          ∀ p ∈ entry.freed, p < 8 * initbmap.bitmapSize entries) ↔
        (area.length = initbmap.bitmapSize entries ∨ area.EndsBefore entries) ∧
          ∀ entry ∈ before ++ after, entry.Usable → entry.length = 0 ∨ entry.EndsBefore entries := by
  have hmem : area ∈ entries := by simp [hsplit]
  have harea := MemmapEntry.forall_freed_shrink_lt (n := 8 * initbmap.bitmapSize entries) hle
    (h.base_aligned area hmem husable) (h.length_aligned area hmem husable)
  have hother : ∀ entry ∈ before ++ after, entry.Usable →
      ((∀ p ∈ entry.freed, p < 8 * initbmap.bitmapSize entries) ↔
        entry.length = 0 ∨ entry.EndsBefore entries) := by
    intro entry hentry hentryUsable
    have hmem : entry ∈ entries := by
      rw [hsplit]
      simp only [List.mem_append, List.mem_cons] at hentry ⊢
      tauto
    rw [← h.end_le_iff hmem hentryUsable]
    apply MemmapEntry.forall_freed_lt
    . exact h.base_aligned entry hmem hentryUsable
    . exact h.length_aligned entry hmem hentryUsable
  rw [h.end_le_iff hmem husable] at harea
  constructor
  . intro hall
    constructor
    . apply harea.mp
      apply hall (area.shrink _ hle) (by simp) husable
    . intro entry hentry hentryUsable
      apply (hother entry hentry hentryUsable).mp
      apply hall entry ?_ hentryUsable
      simp only [List.mem_append, List.mem_cons] at hentry ⊢
      tauto
  . rintro ⟨hends, hall⟩ entry hentry hentryUsable
    have hcases : entry = area.shrink (initbmap.bitmapSize entries) hle ∨ entry ∈ before ++ after := by
      simp only [List.mem_append, List.mem_cons] at hentry ⊢
      tauto
    cases hcases with
    | inl heq =>
      rw [heq]
      apply harea.mpr hends
    | inr hentry => exact (hother entry hentry hentryUsable).mpr (hall entry hentry hentryUsable)

theorem PageMap.wholeBytes_iff (h : PageMap entries) (hsplit : entries = before ++ area :: after)
    (husable : area.Usable) (hle : initbmap.bitmapSize entries ≤ area.length)
    : (∀ entry ∈ entries, entry.Usable → 0 < entry.length →
          entry = area ∧ area.length = initbmap.bitmapSize entries ∨ entry.EndsBefore entries) ↔
        (area.length = initbmap.bitmapSize entries ∨ area.EndsBefore entries) ∧
          ∀ entry ∈ before ++ after, entry.Usable → entry.length = 0 ∨ entry.EndsBefore entries := by
  have hmem : area ∈ entries := by simp [hsplit]
  constructor
  . intro hall
    constructor
    . by_cases hpos : 0 < area.length
      . have := hall area hmem husable hpos
        tauto
      . apply Or.inl
        omega
    . intro entry hentry hentryUsable
      have hboot := h.fits ⟨area, hmem, husable, hle⟩
      have hdisj : Disjoint entry.range area.range := (hsplit ▸ hboot).range_disjoint husable hentryUsable hentry
      have hentry : entry ∈ entries := by
        rw [hsplit]
        simp only [List.mem_append, List.mem_cons] at hentry ⊢
        tauto
      by_cases hpos : 0 < entry.length
      . cases hall entry hentry hentryUsable hpos with
        | inl heq =>
          -- Two entries of the list with the same bytes would overlap.
          rw [heq.1, Set.disjoint_left] at hdisj
          have hbase : area.base ∈ area.range := by
            rw [← heq.1]
            unfold MemmapEntry.range
            rw [Set.mem_Ico]
            omega
          exact absurd hbase (hdisj hbase)
        | inr hends => exact Or.inr hends
      . apply Or.inl
        omega
  . rintro ⟨hends, hall⟩ entry hentry hentryUsable hpos
    have hcases : entry = area ∨ entry ∈ before ++ after := by
      rw [hsplit] at hentry
      simp only [List.mem_append, List.mem_cons] at hentry ⊢
      tauto
    cases hcases with
    | inl heq =>
      subst heq
      tauto
    | inr hentry =>
      have := hall entry hentry hentryUsable
      have hne : entry.length ≠ 0 := by omega
      tauto

end Placed

/--
`initbmap` clears no bit behind the bitmap exactly if the pages that the truncating division by 8 forgets are not
usable.
-/
theorem initbmap_clearsReserved_iff {entries : List MemmapEntry} (h : PageMap entries)
    : ClearsReserved entries ↔ WholeBytes entries := by
  have hclears : ClearsReserved entries ↔ ∀ entry ∈ initbmap.placed entries, entry.Usable → ∀ p ∈ entry.freed,
      (initbmap.placeBitmap (initbmap.bitmapSize entries) entries).isSome ∧
        p < 8 * initbmap.bitmapSize entries := by
    unfold ClearsReserved
    constructor
    . intro hall entry hmem husable p hp
      exact hall p (initbmap.mem_clearedBits.mpr ⟨entry, hmem, husable, hp⟩)
    . intro hall p hp
      rcases initbmap.mem_clearedBits.mp hp with ⟨entry, hmem, husable, hp⟩
      exact hall entry hmem husable p hp
  rw [hclears]
  unfold WholeBytes initbmap.placed
  dsimp only
  rw [← initbmap.bitmapSize_eq]
  by_cases hfit : ∃ entry ∈ entries, entry.Usable ∧ initbmap.bitmapSize entries ≤ entry.length
  . rcases initbmap.placeBitmap_eq_some hfit with ⟨before, area, after, hle, hsplit, husable, hbefore, hplace⟩
    have hfind := initbmap.find_area hsplit husable hle hbefore
    have hwhole := h.wholeBytes_iff hsplit husable hle
    rw [← h.cleared_iff hsplit husable hle] at hwhole
    rw [hplace, hfind]
    simpa using hwhole.symm
  . have hnone : entries.find? (fun e => decide (e.Usable ∧ initbmap.bitmapSize entries ≤ e.length)) = none := by
      rw [List.find?_eq_none]
      intro e he
      simp only [decide_eq_true_eq]
      intro hfits
      exact hfit ⟨e, he, hfits⟩
    rw [initbmap.placeBitmap_eq_none hfit, hnone]
    -- There are no bytes for the bitmap, and there must not be a bit to clear.
    have hempty : ∀ entry ∈ entries, entry.Usable → (entry.length = 0 ↔ ∀ p ∈ entry.freed, p < 0) := by
      intro entry hmem husable
      have hlength := h.length_aligned entry hmem husable
      rw [MemmapEntry.forall_freed_lt (h.base_aligned entry hmem husable) hlength]
      unfold PGSIZE at *
      omega
    constructor
    . intro hall entry hmem husable hpos
      have hzero := (hempty entry hmem husable).mpr fun p hp => by
        simpa using (hall entry hmem husable p hp).1
      omega
    . intro hall entry hmem husable p hp
      by_cases hzero : entry.length = 0
      . have := (hempty entry hmem husable).mp hzero p hp
        omega
      . rcases hall entry hmem husable (Nat.pos_of_ne_zero hzero) with ⟨area, harea, _⟩
        contradiction

theorem initbmap_clearsReserved_128MiB : ClearsReserved [⟨0x100000, 0x7f00000, 0, by decide⟩] := by
  rw [initbmap_clearsReserved_iff]
  . intro entry hmem _ _
    obtain rfl := List.mem_singleton.mp hmem
    refine ⟨_, rfl, Or.inr ?_⟩
    simp [MemmapEntry.EndsBefore, usableEnd, MemmapEntry.Usable, PGSIZE]
  . constructor <;> simp [MemmapEntry.Usable, PGSIZE]

theorem initbmap_clears_behind_bitmap :
    PageMap [⟨0x100000, 0x1000, 0, by decide⟩] ∧
    256 ∈ initbmap.clearedBits (initbmap.placed [⟨0x100000, 0x1000, 0, by decide⟩]) ∧
    ¬ClearsReserved [⟨0x100000, 0x1000, 0, by decide⟩] := by
  have hmem : 256 ∈ initbmap.clearedBits (initbmap.placed [⟨0x100000, 0x1000, 0, by decide⟩]) := by decide
  refine ⟨?_, hmem, ?_⟩
  . constructor <;> simp [MemmapEntry.Usable, PGSIZE]
  . intro h
    exact absurd (h 256 hmem).2 (by decide)

end Pmm
end Franklin
