import Franklin.Acpi.Basic

/-!
This module contains the search for a table in the RSDT, which has no end of its own.
-/

namespace Franklin
namespace Acpi

open Vmm (Addr P2V V2P)

namespace get_acpi_sdt

variable {rsdt : RSDT} {signature : BitVec 64} {i j k n : Nat}

structure First (rsdt : RSDT) (signature : BitVec 64) (p : Addr) : Prop where
  first : ∀ k, k < rsdt.entries → found rsdt signature k → (∀ j, j < k → ¬ found rsdt signature j) → p = hdr rsdt k
  none : (∀ k, k < rsdt.entries → ¬ found rsdt signature k) → p = 0#64

/--
What is expected of the search: it returns the first table, or `NULL`, and reads only entries that the RSDT has.
-/
structure Correct (rsdt : RSDT) (signature : BitVec 64) : Prop where
  returns : ∃ fuel p, get_acpi_sdt fuel rsdt signature = some p ∧ First rsdt signature p
  reads : ∀ i, Visited (step rsdt signature) 0 i → i < rsdt.entries

theorem step_of_found (h : found rsdt signature i) : step rsdt signature i = none := by
  unfold step
  rw [if_pos h]

theorem step_of_not_found (h : ¬ found rsdt signature i) : step rsdt signature i = some (i + 1) := by
  unfold step
  rw [if_neg h]

theorem loop_eq (hbefore : ∀ j, i ≤ j → j < i + n → ¬ found rsdt signature j) (h : found rsdt signature (i + n))
    : loop rsdt signature (n + 1) i = some (hdr rsdt (i + n)) := by
  induction n generalizing i with
  | zero =>
    unfold loop
    rw [Nat.add_zero] at h
    rw [if_pos h, Nat.add_zero]
  | succ n ih =>
    unfold loop
    rw [if_neg (hbefore i (Nat.le_refl i) (by omega))]
    have hindex : i + (n + 1) = i + 1 + n := by omega
    rw [hindex] at h ⊢
    exact ih (fun j hj hlt => hbefore j (by omega) (by omega)) h

theorem visited_of_not_found (h : ∀ j, j < n → ¬ found rsdt signature j) : Visited (step rsdt signature) 0 n := by
  induction n with
  | zero => exact .self
  | succ n ih =>
    have hn := ih fun j hj => h j (Nat.lt_succ_of_lt hj)
    exact hn.step (step_of_not_found (h n (Nat.lt_succ_self n)))

theorem visited_le (hk : found rsdt signature k) (h : Visited (step rsdt signature) 0 i) : i ≤ k := by
  apply h.induct (P := fun i => i ≤ k) (Nat.zero_le k)
  intro b c _ hb hstep
  by_cases hfound : found rsdt signature b
  . rw [step_of_found hfound] at hstep
    cases hstep
  . rw [step_of_not_found hfound] at hstep
    obtain rfl := Option.some.inj hstep
    have hne : b ≠ k := by
      rintro rfl
      exact hfound hk
    omega

theorem first_of_least (hk : k < rsdt.entries) (hfound : found rsdt signature k)
    (hleast : ∀ j, j < k → ¬ found rsdt signature j) : First rsdt signature (hdr rsdt k) where
  first k' _ hfound' hleast' := by
    rcases Nat.lt_trichotomy k k' with hlt | rfl | hlt
    . exact absurd hfound (hleast' k hlt)
    . rfl
    . exact absurd hfound' (hleast k' hlt)
  none h := absurd hfound (h k hk)

theorem Correct.exists_found (h : Correct rsdt signature) : ∃ k, k < rsdt.entries ∧ found rsdt signature k := by
  by_contra hnone
  have hvisited : Visited (step rsdt signature) 0 rsdt.entries := by
    apply visited_of_not_found
    intro j hj hfound
    exact hnone ⟨j, hj, hfound⟩
  exact absurd (h.reads _ hvisited) (Nat.lt_irrefl _)

theorem correct_of_found (hk : k < rsdt.entries) (hfound : found rsdt signature k) : Correct rsdt signature := by
  have hex : ∃ m, found rsdt signature m := ⟨k, hfound⟩
  obtain ⟨m, hm, hleast, hmk⟩ : ∃ m, found rsdt signature m ∧ (∀ j, j < m → ¬ found rsdt signature j) ∧ m ≤ k :=
    ⟨Nat.find hex, Nat.find_spec hex, fun j hj => Nat.find_min hex hj, Nat.find_min' hex hfound⟩
  refine ⟨⟨m + 1, hdr rsdt m, ?_, first_of_least (by omega) hm hleast⟩, ?_⟩
  . have hloop := loop_eq (i := 0) (n := m) (fun j _ hj => hleast j (by omega)) (by rwa [Nat.zero_add])
    rw [Nat.zero_add] at hloop
    exact hloop
  . intro i hi
    have hle := visited_le hm hi
    omega

end get_acpi_sdt

theorem get_acpi_sdt_correct_iff (rsdt : RSDT) (signature : BitVec 64)
    : get_acpi_sdt.Correct rsdt signature
        ↔
      ∃ k, k < rsdt.entries ∧ get_acpi_sdt.found rsdt signature k := by
  constructor
  . intro h
    exact h.exists_found
  . rintro ⟨k, hk, hfound⟩
    exact get_acpi_sdt.correct_of_found hk hfound

def madtOnly (a : Addr) : UInt8 :=
  let bytes : List (BitVec 64 × UInt8) :=
    [(0x2004#64, 40), (0x2025#64, 0x10), (0x1000#64, 0x41), (0x1001#64, 0x50), (0x1002#64, 0x49), (0x1003#64, 0x43)]
  (bytes.lookup (V2P a)).getD 0

theorem madtOnly_le_length : 36 ≤ (defaultheader.length madtOnly (P2V 0x2000#64)).toNat := by
  decide

-- There is no HPET.
theorem get_acpi_sdt_hpet
    : ¬ get_acpi_sdt.Correct ⟨madtOnly, P2V 0x2000#64, madtOnly_le_length⟩ 0x54455048#64 := by
  intro h
  exact absurd h.exists_found (by decide)

end Acpi
end Franklin
