import Franklin.Cstring.Basic
import Franklin.Lib.Decimal
import Mathlib.Data.Nat.Log

/-!
This module contains when `itoa` leaves a decimal numeral for its argument.
-/

namespace Franklin
namespace Cstring

open Decimal

variable {x : Int32} {s : Nat → UInt8} {neg : Bool} {arr : List Int32} {cs : List UInt8} {ds : List Nat}
  {d k n r : Nat}

namespace itoa

def signed (neg : Bool) (n : Nat) : Int :=
  if neg then -n else n

def digits (neg : Bool) (ds : List Nat) : List Int32 :=
  ds.map (fun d => Int32.ofInt (signed neg d))

def char (neg : Bool) (d : Nat) : UInt8 :=
  if neg then UInt8.ofNat (48 - d) else UInt8.ofNat (48 + d)

theorem signed_natAbs (x : Int) : ∃ neg, x = signed neg x.natAbs ∧ (neg = true ↔ x < 0) := by
  by_cases hneg : x < 0
  . exact ⟨true, by unfold signed; rw [if_pos rfl]; omega, by simp [hneg]⟩
  . exact ⟨false, by unfold signed; rw [if_neg (by decide)]; omega, by simp [hneg]⟩

section Split

theorem mod_toInt (h : x.toInt = signed neg n) : (x % 10).toInt = signed neg (n % 10) := by
  rw [Int32.toInt_mod, h]
  cases neg with
  | false => rfl
  | true =>
    have hneg : (-(n : Int)).tmod 10 = -((n : Int).tmod 10) := Int.neg_tmod _ _
    exact hneg

theorem div_toInt (h : x.toInt = signed neg n) : (x / 10).toInt = signed neg (n / 10) := by
  rw [Int32.toInt_div_of_ne_right x 10 (by decide), h]
  cases neg with
  | false => rfl
  | true =>
    have hneg : (-(n : Int)).tdiv 10 = -((n : Int).tdiv 10) := Int.neg_tdiv _ _
    exact hneg

theorem mod_eq (h : x.toInt = signed neg n) : x % 10 = Int32.ofInt (signed neg (n % 10)) := by
  rw [← mod_toInt h, Int32.ofInt_toInt]

theorem div_eq_zero_iff (h : x.toInt = signed neg n) : x / 10 = 0 ↔ n < 10 := by
  rw [← Int32.toInt_inj, div_toInt h, Int32.toInt_zero]
  unfold signed
  split
  . omega
  . omega

theorem split_spec {space : Nat} (arr : List Int32) (h : x.toInt = signed neg n) (hspace : 0 < space)
    (hlt : n < 10 ^ space)
    : ∃ ds, split x arr space = some (digits neg ds ++ arr) ∧ (∀ d ∈ ds, d < 10) ∧ value ds = n
        ∧ ds.length = Nat.log 10 n + 1 := by
  induction space generalizing x n arr with
  | zero => omega
  | succ space ih =>
    have hmod := mod_eq h
    have hzero := div_eq_zero_iff h
    unfold split
    by_cases hdigit : n < 10
    . refine ⟨[n], ?_, ?_, ?_, ?_⟩
      . dsimp only
        rw [if_neg (not_not_intro (hzero.mpr hdigit)), hmod, Nat.mod_eq_of_lt hdigit]
        rfl
      . intro d hd
        rw [List.mem_singleton.mp hd]
        exact hdigit
      . exact value_singleton n
      . rw [Nat.log_of_lt hdigit]
        rfl
    . have hpow : n / 10 < 10 ^ space := by
        apply Nat.div_lt_of_lt_mul
        rw [Nat.mul_comm, ← Nat.pow_succ]
        exact hlt
      have hspace' : 0 < space := by
        cases space with
        | zero => exact absurd hpow (by omega)
        | succ space => exact Nat.succ_pos space
      rcases ih (x % 10 :: arr) (div_toInt h) hspace' hpow with ⟨ds, hsplit, hds, hval, hlen⟩
      refine ⟨ds ++ [n % 10], ?_, ?_, ?_, ?_⟩
      . dsimp only
        rw [if_pos (mt hzero.mp hdigit), hsplit, hmod]
        simp [digits]
      . intro d hd
        rcases List.mem_append.mp hd with hd | hd
        . exact hds d hd
        . rw [List.mem_singleton.mp hd]
          omega
      . rw [value_append, hval]
        rw [value_singleton, List.length_singleton]
        omega
      . rw [List.length_append, hlen, Nat.log_of_one_lt_of_le (by decide) (Nat.not_lt.mp hdigit)]
        rfl

end Split

section Write

theorem write_of_lt (hk : k < r) : write s r arr k = s k := by
  induction arr generalizing s r with
  | nil => rfl
  | cons d arr ih =>
    unfold write
    rw [ih (by omega), Function.update_of_ne (by omega)]

theorem write_of_le (hk : r + arr.length ≤ k) : write s r arr k = s k := by
  induction arr generalizing s r with
  | nil => rfl
  | cons d arr ih =>
    rw [List.length_cons] at hk
    unfold write
    rw [ih (by omega), Function.update_of_ne (by omega)]

theorem char_eq (hd : d < 10) : (Int32.ofInt (signed neg d) + 48).toInt8.toUInt8 = char neg d := by
  have hall : ∀ neg, ∀ d < 10, (Int32.ofInt (signed neg d) + 48).toInt8.toUInt8 = char neg d := by decide
  exact hall neg d hd

theorem char_ne_zero (hd : d < 10) : char neg d ≠ 0 := by
  have hall : ∀ neg, ∀ d < 10, char neg d ≠ 0 := by decide
  exact hall neg d hd

theorem write_starts (hlt : ∀ d ∈ ds, d < 10) : Starts (write s r (digits neg ds)) r (ds.map (char neg)) := by
  induction ds generalizing s r with
  | nil => trivial
  | cons d ds ih =>
    rw [List.forall_mem_cons] at hlt
    refine ⟨?_, char_ne_zero hlt.1, ih hlt.2⟩
    show write _ (r + 1) (digits neg ds) r = char neg d
    rw [write_of_lt (Nat.lt_succ_self r), Function.update_self, char_eq hlt.1]

theorem write_holds_iff (hlt : ∀ d ∈ ds, d < 10)
    : Holds (write s 0 (digits neg ds)) 0 cs
        ↔ ∃ rest, cs = ds.map (char neg) ++ rest ∧ Holds s ds.length rest := by
  have hrest : ∀ rest, Holds (write s 0 (digits neg ds)) (0 + (ds.map (char neg)).length) rest
      ↔ Holds s ds.length rest := by
    intro rest
    rw [List.length_map, Nat.zero_add]
    apply Holds.congr
    intro k hk
    apply write_of_le
    unfold digits
    rw [List.length_map]
    omega
  rw [(write_starts hlt).holds_iff]
  simp only [hrest]

end Write

end itoa

open itoa

/--
What follows the digits of `x` in the memory is such that the string is a numeral for `x` all the same.
-/
def Itoable (x : Int) (s : Nat → UInt8) : Prop :=
  ∃ es, (∀ d ∈ es, d < 10) ∧ Holds s (Nat.log 10 x.natAbs + 1) (chars es)
    ∧ (0 ≤ x ∧ es = [] ∨ x = 0 ∧ value es = 0 ∨ ∃ k, x = -(3 * 10 ^ k) ∧ value es = 3 * 10 ^ k)

section Denotes

theorem numeral_of_digits {y : Int} (hne : ds ≠ []) (hlt : ∀ d ∈ ds, d < 10)
    : Numeral (chars ds ++ cs) y
        ↔ ∃ es, (∀ d ∈ es, d < 10) ∧ cs = chars es ∧ y = (value ds * 10 ^ es.length + value es : Nat) := by
  constructor
  . intro h
    generalize hcs : chars ds ++ cs = cs' at h
    cases h with
    | nonneg ds' _ hds' =>
      rcases chars_eq_append hds' hcs.symm with ⟨ds₁, es, rfl, hds₁, hes, hlt₁, hltes⟩
      rw [chars_inj hlt₁ hlt hds₁, value_append]
      exact ⟨es, hltes, hes.symm, rfl⟩
    | neg ds' _ hds' =>
      cases ds with
      | nil => exact absurd rfl hne
      | cons d ds =>
        have hall : ∀ d < 10, UInt8.ofNat (48 + d) ≠ 45 := by decide
        exact absurd (List.cons.inj hcs).1 (hall d (hlt d (List.mem_cons_self ..)))
  . rintro ⟨es, hes, rfl, rfl⟩
    have happend : chars ds ++ chars es = chars (ds ++ es) := List.map_append.symm
    rw [happend, ← value_append]
    apply Numeral.nonneg
    . exact List.append_ne_nil_of_left_ne_nil hne es
    . rw [List.forall_mem_append]
      exact ⟨hlt, hes⟩

theorem char_digit (hd : d < 10) (hn : n < 10) (h : char true d = UInt8.ofNat (48 + n)) : d = 0 ∧ n = 0 := by
  have hall : ∀ d < 10, ∀ n < 10, char true d = UInt8.ofNat (48 + n) → d = 0 ∧ n = 0 := by decide
  exact hall d hd n hn h

theorem map_char_digits {es : List Nat} (hlt : ∀ d ∈ ds, d < 10) (hes : ∀ d ∈ es, d < 10)
    (h : ds.map (char true) = chars es) : value ds = 0 ∧ value es = 0 := by
  induction ds generalizing es with
  | nil =>
    rw [List.map_eq_nil_iff.mp h.symm]
    exact ⟨rfl, rfl⟩
  | cons d ds ih =>
    cases es with
    | nil => cases h
    | cons e es =>
      rw [List.forall_mem_cons] at hlt hes
      have hcons := List.cons.inj h
      rcases char_digit hlt.1 hes.1 hcons.1 with ⟨rfl, rfl⟩
      rcases ih hlt.2 hes.2 hcons.2 with ⟨hds, hes⟩
      rw [value_cons, value_cons, hds, hes, Nat.zero_mul, Nat.zero_mul]
      exact ⟨rfl, rfl⟩

theorem map_char_zeros (h : value ds = 0) : ds.map (char true) = chars ds := by
  apply List.map_congr_left
  intro d hd
  rw [value_eq_zero_iff.mp h d hd]
  rfl

theorem numeral_of_negative {y : Int} (hy : y < 0) (hlt : ∀ e ∈ d :: ds, e < 10)
    : Numeral ((d :: ds).map (char true) ++ cs) y
        ↔ ∃ es, (∀ d ∈ es, d < 10) ∧ cs = chars es ∧ d = 3 ∧ value ds = 0 ∧ y = -(value es : Int) := by
  rw [List.forall_mem_cons] at hlt
  constructor
  . intro h
    generalize hcs : (d :: ds).map (char true) ++ cs = cs' at h
    cases h with
    | nonneg ds' _ hds' => omega
    | neg ds' _ hds' =>
      have hcons := List.cons.inj hcs
      have hthree : d = 3 := by
        have hall : ∀ d < 10, char true d = 45 → d = 3 := by decide
        exact hall d hlt.1 hcons.1
      rcases chars_eq_append hds' hcons.2.symm with ⟨ds₁, es, rfl, hds₁, hes, hlt₁, hltes⟩
      rcases map_char_digits hlt.2 hlt₁ hds₁.symm with ⟨hzero, hzero₁⟩
      refine ⟨es, hltes, hes.symm, hthree, hzero, ?_⟩
      rw [value_append, hzero₁, Nat.zero_mul, Nat.zero_add]
  . rintro ⟨es, hes, rfl, rfl, hzero, rfl⟩
    have happend : ds.map (char true) ++ chars es = chars (ds ++ es) := by
      rw [map_char_zeros hzero]
      exact List.map_append.symm
    have hval : value (ds ++ es) = value es := by
      rw [value_append, hzero, Nat.zero_mul, Nat.zero_add]
    rw [List.map_cons, List.cons_append, happend, ← hval]
    apply Numeral.neg
    . intro hnil
      rw [hnil, value_nil] at hval
      omega
    . rw [List.forall_mem_append]
      exact ⟨hlt.2, hes⟩

theorem denotes_nonneg (hne : ds ≠ []) (hlt : ∀ d ∈ ds, d < 10)
    : Denotes (write s 0 (digits false ds)) (value ds)
        ↔ ∃ es, (∀ d ∈ es, d < 10) ∧ Holds s ds.length (chars es) ∧ (es = [] ∨ value ds = 0 ∧ value es = 0) := by
  unfold Denotes
  constructor
  . rintro ⟨cs, hcs, hnum⟩
    rcases (write_holds_iff hlt).mp hcs with ⟨rest, rfl, hrest⟩
    rcases (numeral_of_digits hne hlt).mp hnum with ⟨es, hes, rfl, hval⟩
    refine ⟨es, hes, hrest, ?_⟩
    rw [Nat.cast_inj] at hval
    cases es with
    | nil => exact Or.inl rfl
    | cons e es =>
      right
      have hpow : 10 ≤ 10 ^ (e :: es).length := by
        rw [List.length_cons, Nat.pow_succ]
        exact Nat.le_mul_of_pos_left 10 (Nat.pow_pos (by omega))
      have hmul := Nat.mul_le_mul_left (value ds) hpow
      omega
  . rintro ⟨es, hes, hrest, hor⟩
    refine ⟨chars ds ++ chars es, (write_holds_iff hlt).mpr ⟨chars es, rfl, hrest⟩, ?_⟩
    rw [numeral_of_digits hne hlt]
    refine ⟨es, hes, rfl, ?_⟩
    rcases hor with rfl | ⟨hzero, hzero'⟩
    . rw [List.length_nil, Nat.pow_zero, Nat.mul_one, value_nil, Nat.add_zero]
    . rw [hzero, hzero', Nat.zero_mul]

theorem denotes_neg (hpos : 0 < value ds) (hlt : ∀ d ∈ ds, d < 10)
    : Denotes (write s 0 (digits true ds)) (-(value ds : Int))
        ↔ ∃ es, (∀ d ∈ es, d < 10) ∧ Holds s ds.length (chars es)
            ∧ value ds = 3 * 10 ^ (ds.length - 1) ∧ value es = value ds := by
  cases ds with
  | nil => exact absurd hpos (Nat.lt_irrefl 0)
  | cons d ds =>
    have hneg : -(value (d :: ds) : Int) < 0 := by omega
    have hhead := value_cons_eq_iff (d := d) (x := 3) (List.forall_mem_cons.mp hlt).2
    rw [List.length_cons, Nat.add_sub_cancel, hhead]
    unfold Denotes
    constructor
    . rintro ⟨cs, hcs, hnum⟩
      rcases (write_holds_iff hlt).mp hcs with ⟨rest, rfl, hrest⟩
      rcases (numeral_of_negative hneg hlt).mp hnum with ⟨es, hes, rfl, hthree, hzero, hval⟩
      exact ⟨es, hes, hrest, ⟨hthree, hzero⟩, by omega⟩
    . rintro ⟨es, hes, hrest, ⟨hthree, hzero⟩, hval⟩
      refine ⟨(d :: ds).map (char true) ++ chars es, (write_holds_iff hlt).mpr ⟨chars es, rfl, hrest⟩, ?_⟩
      rw [numeral_of_negative hneg hlt]
      exact ⟨es, hes, rfl, hthree, hzero, by rw [hval]⟩

theorem itoa_eq (x : Int32) (s : Nat → UInt8)
    : ∃ neg ds, itoa x s = some (write s 0 (digits neg ds)) ∧ (neg = true ↔ x.toInt < 0) ∧ (∀ d ∈ ds, d < 10)
        ∧ value ds = x.toInt.natAbs ∧ ds.length = Nat.log 10 x.toInt.natAbs + 1 := by
  rcases signed_natAbs x.toInt with ⟨neg, hsigned, hneg⟩
  have hlt : x.toInt.natAbs < 10 ^ 10 := by
    have hle := x.le_toInt
    have hlt := x.toInt_lt
    omega
  rcases split_spec [] hsigned (by decide) hlt with ⟨ds, hsplit, hds, hval, hlen⟩
  refine ⟨neg, ds, ?_, hneg, hds, hval, hlen⟩
  unfold itoa
  rw [hsplit, List.append_nil]
  rfl

theorem itoable_nonneg {x : Int} (hx : x = value ds)
    : (∃ es, (∀ d ∈ es, d < 10) ∧ Holds s ds.length (chars es) ∧ (es = [] ∨ value ds = 0 ∧ value es = 0))
        ↔ ∃ es, (∀ d ∈ es, d < 10) ∧ Holds s ds.length (chars es)
            ∧ (0 ≤ x ∧ es = [] ∨ x = 0 ∧ value es = 0 ∨ ∃ k, x = -(3 * 10 ^ k) ∧ value es = 3 * 10 ^ k) := by
  have hnot : ∀ k : Nat, x ≠ -(3 * 10 ^ k) := by
    intro k hk
    have hpow : (0 : Int) < 10 ^ k := Int.pow_pos (by decide)
    omega
  have hzero : x = 0 ↔ value ds = 0 := by omega
  have hnonneg : 0 ≤ x := by omega
  simp only [hnot, hzero, hnonneg, false_and, exists_false, or_false, true_and]

theorem itoable_neg {x : Int} (hx : x = -(value ds : Int)) (hpos : 0 < value ds)
    (hlen : ds.length = Nat.log 10 (value ds) + 1)
    : (∃ es, (∀ d ∈ es, d < 10) ∧ Holds s ds.length (chars es)
        ∧ value ds = 3 * 10 ^ (ds.length - 1) ∧ value es = value ds)
        ↔ ∃ es, (∀ d ∈ es, d < 10) ∧ Holds s ds.length (chars es)
            ∧ (0 ≤ x ∧ es = [] ∨ x = 0 ∧ value es = 0 ∨ ∃ k, x = -(3 * 10 ^ k) ∧ value es = 3 * 10 ^ k) := by
  constructor
  . rintro ⟨es, hes, hrest, hthree, hval⟩
    refine ⟨es, hes, hrest, Or.inr (Or.inr ⟨ds.length - 1, ?_, hval.trans hthree⟩)⟩
    rw [hx, hthree]
    push_cast
    rfl
  . rintro ⟨es, hes, hrest, ⟨hx', -⟩ | ⟨hx', -⟩ | ⟨k, hk, hval⟩⟩
    . omega
    . omega
    . have hthree : value ds = 3 * 10 ^ k := by
        rw [hx, Int.neg_inj] at hk
        exact_mod_cast hk
      have hlog : Nat.log 10 (3 * 10 ^ k) = k := by
        rw [Nat.log_eq_iff (Or.inr ⟨by decide, by omega⟩), Nat.pow_succ]
        omega
      refine ⟨es, hes, hrest, ?_, hval.trans hthree.symm⟩
      rw [hlen, Nat.add_sub_cancel, hthree, hlog]

theorem exists_itoa (x : Int32) (s : Nat → UInt8) : ∃ s', itoa x s = some s' := by
  rcases itoa_eq x s with ⟨neg, ds, hitoa, _⟩
  exact ⟨_, hitoa⟩

theorem denotes_of_itoa {x : Int32} {s s' : Nat → UInt8} (h : itoa x s = some s')
    : Denotes s' x.toInt ↔ Itoable x.toInt s := by
  rcases itoa_eq x s with ⟨neg, ds, hitoa, hneg, hlt, hval, hlen⟩
  obtain rfl := Option.some.inj (hitoa.symm.trans h)
  unfold Itoable
  rw [← hlen]
  cases neg with
  | false =>
    have hx : x.toInt = value ds := by
      have hnot : ¬ x.toInt < 0 := fun hlt => Bool.false_ne_true (hneg.mpr hlt)
      omega
    have hne : ds ≠ [] := by
      rintro rfl
      cases hlen
    rw [hx, denotes_nonneg hne hlt, itoable_nonneg rfl]
  | true =>
    have hlt' := hneg.mp rfl
    have hx : x.toInt = -(value ds : Int) := by omega
    have hpos : 0 < value ds := by omega
    rw [hx, denotes_neg hpos hlt, itoable_neg rfl hpos (by rw [hlen, hval])]

/--
`itoa` returns for every integer, and the destination is a numeral for it exactly if what has been there before
makes it one.
-/
theorem itoa_denotes_iff (x : Int32) (s : Nat → UInt8)
    : ∃ s', itoa x s = some s' ∧ (Denotes s' x.toInt ↔ Itoable x.toInt s) := by
  rcases exists_itoa x s with ⟨s', hitoa⟩
  exact ⟨s', hitoa, denotes_of_itoa hitoa⟩

theorem itoa_no_numeral
    : (¬ ∃ s', itoa 5 (fun k => if k = 1 then 53 else 0) = some s' ∧ Denotes s' 5)
        ∧ ¬ ∃ s', itoa (-5) (fun _ => 0) = some s' ∧ Denotes s' (-5) := by
  constructor
  . rintro ⟨s', hitoa, hdenotes⟩
    rcases (denotes_of_itoa hitoa).mp hdenotes with ⟨es, -, hrest, ⟨-, rfl⟩ | ⟨hzero, -⟩ | ⟨k, hk, -⟩⟩
    . have hbyte : (53 : UInt8) = 0 := hrest
      exact absurd hbyte (by decide)
    . exact absurd hzero (by decide)
    . have hpow : (0 : Int) < 10 ^ k := Int.pow_pos (by decide)
      have hfive : (5 : Int) = -(3 * 10 ^ k) := hk
      omega
  . rintro ⟨s', hitoa, hdenotes⟩
    rcases (denotes_of_itoa hitoa).mp hdenotes with ⟨es, -, hrest, ⟨hpos, -⟩ | ⟨hzero, -⟩ | ⟨k, hk, -⟩⟩
    . exact absurd hpos (by decide)
    . exact absurd hzero (by decide)
    . have hfive : (-5 : Int) = -(3 * 10 ^ k) := hk
      omega

end Denotes

end Cstring
end Franklin
