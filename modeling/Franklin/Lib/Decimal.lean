import Mathlib.Data.Nat.Digits.Lemmas

/-!
This module contains the decimal numerals that are strings in a memory.
-/

namespace Franklin
namespace Decimal

variable {s s' : Nat → UInt8} {i x d : Nat} {cs cs' : List UInt8} {ds es : List Nat}

def chars (ds : List Nat) : List UInt8 :=
  ds.map (fun d => UInt8.ofNat (48 + d))

def value (ds : List Nat) : Nat :=
  Nat.ofDigits 10 ds.reverse

inductive Numeral : List UInt8 → Int → Prop
  | nonneg (ds : List Nat) (hne : ds ≠ []) (hlt : ∀ d ∈ ds, d < 10) : Numeral (chars ds) (value ds)
  -- 45 = '-'
  | neg (ds : List Nat) (hne : ds ≠ []) (hlt : ∀ d ∈ ds, d < 10) : Numeral (45 :: chars ds) (-(value ds : Int))

/--
The string with the characters `cs` and the terminator are in the memory from the index `i` on.
-/
def Holds (s : Nat → UInt8) (i : Nat) : List UInt8 → Prop
  | [] => s i = 0
  | c :: cs => s i = c ∧ c ≠ 0 ∧ Holds s (i + 1) cs

/--
The characters `cs` and no terminator are in the memory from the index `i` on.
-/
def Starts (s : Nat → UInt8) (i : Nat) : List UInt8 → Prop
  | [] => True
  | c :: cs => s i = c ∧ c ≠ 0 ∧ Starts s (i + 1) cs

/--
The string at the start of the memory is a numeral for a number.
-/
def Denotes (s : Nat → UInt8) (x : Int) : Prop :=
  ∃ cs, Holds s 0 cs ∧ Numeral cs x

section Value

theorem value_nil : value [] = 0 :=
  rfl

theorem value_cons (d : Nat) (ds : List Nat) : value (d :: ds) = d * 10 ^ ds.length + value ds := by
  unfold value
  rw [Nat.ofDigits_reverse_cons, Nat.add_comm, Nat.mul_comm]

theorem value_singleton (d : Nat) : value [d] = d := by
  rw [value_cons, value_nil, List.length_nil, Nat.pow_zero, Nat.mul_one, Nat.add_zero]

theorem value_append (ds es : List Nat) : value (ds ++ es) = value ds * 10 ^ es.length + value es := by
  unfold value
  rw [List.reverse_append, Nat.ofDigits_append, List.length_reverse, Nat.add_comm, Nat.mul_comm]

theorem value_lt (hlt : ∀ d ∈ ds, d < 10) : value ds < 10 ^ ds.length := by
  have hrev := Nat.ofDigits_lt_base_pow_length (b := 10) (l := ds.reverse) (by omega)
    (fun d hd => hlt d (List.mem_reverse.mp hd))
  rw [List.length_reverse] at hrev
  exact hrev

theorem value_eq_zero_iff : value ds = 0 ↔ ∀ d ∈ ds, d = 0 := by
  induction ds with
  | nil => simp [value_nil]
  | cons d ds ih =>
    rw [value_cons, Nat.add_eq_zero_iff, Nat.mul_eq_zero, ih, List.forall_mem_cons]
    have hpow : 10 ^ ds.length ≠ 0 := Nat.pos_iff_ne_zero.mp (Nat.pow_pos (by omega))
    rw [or_iff_left hpow]

theorem value_cons_eq_iff (hlt : ∀ d ∈ ds, d < 10)
    : value (d :: ds) = x * 10 ^ ds.length ↔ d = x ∧ value ds = 0 := by
  have hval := value_lt hlt
  rw [value_cons]
  constructor
  . intro h
    have hd : d = x := by
      have hdiv := congrArg (· / 10 ^ ds.length) h
      simp only [Nat.mul_comm _ (10 ^ ds.length)] at hdiv
      rw [Nat.mul_add_div (by omega), Nat.div_eq_of_lt hval, Nat.mul_div_cancel_left _ (by omega)] at hdiv
      exact hdiv
    rw [hd] at h
    exact ⟨hd, by omega⟩
  . rintro ⟨rfl, hzero⟩
    rw [hzero, Nat.add_zero]

end Value

section Chars

theorem char_inj (hd : d < 10) (hx : x < 10) (h : UInt8.ofNat (48 + d) = UInt8.ofNat (48 + x)) : d = x := by
  have hall : ∀ d < 10, ∀ x < 10, UInt8.ofNat (48 + d) = UInt8.ofNat (48 + x) → d = x := by decide
  exact hall d hd x hx h

theorem chars_inj (hds : ∀ d ∈ ds, d < 10) (hes : ∀ d ∈ es, d < 10) (h : chars ds = chars es) : ds = es := by
  induction ds generalizing es with
  | nil => exact (List.map_eq_nil_iff.mp h.symm).symm
  | cons d ds ih =>
    cases es with
    | nil => cases h
    | cons e es =>
      rw [List.forall_mem_cons] at hds hes
      have hcons := List.cons.inj h
      rw [char_inj hds.1 hes.1 hcons.1, ih hds.2 hes.2 hcons.2]

theorem chars_eq_append (hes : ∀ d ∈ es, d < 10) (h : chars es = cs ++ cs')
    : ∃ ds ds', es = ds ++ ds' ∧ chars ds = cs ∧ chars ds' = cs' ∧ (∀ d ∈ ds, d < 10) ∧ ∀ d ∈ ds', d < 10 := by
  rcases List.map_eq_append_iff.mp h with ⟨ds, ds', rfl, hds, hds'⟩
  rw [List.forall_mem_append] at hes
  exact ⟨ds, ds', rfl, hds, hds', hes⟩

end Chars

section Holds

theorem Starts.holds_iff (h : Starts s i cs)
    : Holds s i cs' ↔ ∃ rest, cs' = cs ++ rest ∧ Holds s (i + cs.length) rest := by
  induction cs generalizing i cs' with
  | nil => simp
  | cons c cs ih =>
    rcases h with ⟨hc, hne, hstarts⟩
    cases cs' with
    | nil =>
      simp only [Holds, List.cons_append, List.nil_eq, reduceCtorEq, false_and, exists_false, iff_false]
      rw [hc]
      exact hne
    | cons c' cs' =>
      simp only [Holds, List.cons_append, List.cons.injEq, ih hstarts, List.length_cons, hc]
      rw [Nat.add_assoc, Nat.add_comm 1]
      constructor
      . rintro ⟨rfl, -, rest, rfl, hrest⟩
        exact ⟨rest, ⟨rfl, rfl⟩, hrest⟩
      . rintro ⟨rest, ⟨rfl, rfl⟩, hrest⟩
        exact ⟨rfl, hne, rest, rfl, hrest⟩

theorem Holds.congr (h : ∀ k, i ≤ k → s' k = s k) : Holds s' i cs ↔ Holds s i cs := by
  induction cs generalizing i with
  | nil => simp only [Holds, h i (Nat.le_refl i)]
  | cons c cs ih =>
    have hrest : Holds s' (i + 1) cs ↔ Holds s (i + 1) cs := ih (fun k hk => h k (by omega))
    simp only [Holds, h i (Nat.le_refl i), hrest]

end Holds

end Decimal
end Franklin
