import Franklin.Fs.Initramfs
import Mathlib.Data.Nat.Digits.Lemmas

/-!
This module contains the numbers that `oct2int` reads.
-/

namespace Franklin
namespace Fs

variable {oct : Nat → UInt8} {ds : List Nat} {d i k n len : Nat}

/--
The digits `ds` are in the field from the character `i` on, and a `NUL` follows if the field of `len` characters has
space for one.
-/
structure OctDigits (oct : Nat → UInt8) (i len : Nat) (ds : List Nat) : Prop where
  length : ds.length ≤ len
  lt : ∀ d ∈ ds, d < 8
  char : ∀ k d, ds[k]? = some d → oct (i + k) = UInt8.ofNat (48 + d)
  stop : ds.length < len → oct (i + ds.length) = 0

theorem OctDigits.tail (h : OctDigits oct i (len + 1) (d :: ds)) : OctDigits oct (i + 1) len ds where
  length := Nat.le_of_succ_le_succ h.length
  lt e he := h.lt e (List.mem_cons_of_mem d he)
  char k e he := by
    rw [Nat.add_assoc, Nat.add_comm 1 k]
    exact h.char (k + 1) e he
  stop hlt := by
    have hstop := h.stop (by rw [List.length_cons]; omega)
    rw [List.length_cons] at hstop
    rw [Nat.add_assoc, Nat.add_comm 1 ds.length]
    exact hstop

namespace oct2int

theorem digit_ofNat (hd : d < 8) : digit (UInt8.ofNat (48 + d)) = BitVec.ofNat 64 d := by
  have hall : ∀ d, d < 8 → digit (UInt8.ofNat (48 + d)) = BitVec.ofNat 64 d := by decide
  exact hall d hd

theorem char_ne_zero (hd : d < 8) : UInt8.ofNat (48 + d) ≠ 0 := by
  have hall : ∀ d, d < 8 → UInt8.ofNat (48 + d) ≠ 0 := by decide
  exact hall d hd

theorem loop_eq (h : OctDigits oct i len ds)
    : loop oct (BitVec.ofNat 64 n) i len = BitVec.ofNat 64 (n * 8 ^ ds.length + Nat.ofDigits 8 ds.reverse) := by
  induction ds generalizing n i len with
  | nil =>
    have hval : n * 8 ^ ([] : List Nat).length + Nat.ofDigits 8 ([] : List Nat).reverse = n := by
      rw [List.length_nil, Nat.pow_zero, Nat.mul_one, List.reverse_nil, Nat.ofDigits_nil, Nat.add_zero]
    rw [hval]
    cases len with
    | zero => rfl
    | succ len =>
      have hstop := h.stop (Nat.succ_pos len)
      rw [List.length_nil, Nat.add_zero] at hstop
      unfold loop
      rw [if_pos hstop]
  | cons d ds ih =>
    cases len with
    | zero => exact absurd h.length (by rw [List.length_cons]; omega)
    | succ len =>
      have hd := h.lt d (List.mem_cons_self ..)
      have hchar := h.char 0 d rfl
      rw [Nat.add_zero] at hchar
      unfold loop
      rw [hchar, if_neg (char_ne_zero hd), digit_ofNat hd]
      have hval : BitVec.ofNat 64 n * 8#64 + BitVec.ofNat 64 d = BitVec.ofNat 64 (n * 8 + d) := by
        rw [BitVec.ofNat_add, BitVec.ofNat_mul]
      rw [hval, ih h.tail, Nat.ofDigits_reverse_cons, List.length_cons, Nat.pow_succ]
      congr 1
      ring

theorem toNat_eq (h : OctDigits oct 0 tar.sizeofSize ds)
    : (oct2int oct tar.sizeofSize).toNat = Nat.ofDigits 8 ds.reverse := by
  have hlt : Nat.ofDigits 8 ds.reverse < 8 ^ ds.reverse.length := by
    apply Nat.ofDigits_lt_base_pow_length (by omega)
    intro d hd
    exact h.lt d (List.mem_reverse.mp hd)
  have hpow : 8 ^ ds.reverse.length ≤ 8 ^ 12 := by
    rw [List.length_reverse]
    exact Nat.pow_le_pow_right (by omega) h.length
  have hloop := loop_eq (n := 0) h
  rw [Nat.zero_mul, Nat.zero_add] at hloop
  unfold oct2int
  rw [hloop, BitVec.toNat_ofNat, Nat.mod_eq_of_lt]
  omega

end oct2int

namespace tar

def octal (len n : Nat) : List Nat :=
  (Nat.digitsAppend 8 len n).reverse

/--
What the size field of a member of `n` bytes contains: eleven digits and a `NUL`, or twelve digits for the sizes that
need them.
-/
def encode (n : Nat) : List UInt8 :=
  if n < 8 ^ 11 then
    (octal 11 n).map (fun d => UInt8.ofNat (48 + d)) ++ [0]
  else
    (octal 12 n).map (fun d => UInt8.ofNat (48 + d))

theorem length_octal (hn : n < 8 ^ len) : (octal len n).length = len := by
  unfold octal
  rw [List.length_reverse]
  exact Nat.length_digitsAppend (by omega) len hn

theorem ofDigits_octal : Nat.ofDigits 8 (octal len n).reverse = n := by
  unfold octal Nat.digitsAppend
  rw [List.reverse_reverse, Nat.ofDigits_append_replicate_zero, Nat.ofDigits_digits]

theorem lt_of_mem_octal (hd : d ∈ octal len n) : d < 8 :=
  Nat.lt_of_mem_digitsAppend (by omega) len d (List.mem_reverse.mp hd)

theorem getElem?_digitChars (hd : ds[k]? = some d)
    : (ds.map fun d => UInt8.ofNat (48 + d))[k]? = some (UInt8.ofNat (48 + d)) := by
  rw [List.getElem?_map, hd]
  rfl

theorem encode_octDigits (hn : n < 8 ^ 12) (hfield : ∀ k c, (encode n)[k]? = some c → oct k = c)
    : ∃ len, OctDigits oct 0 sizeofSize (octal len n) := by
  unfold encode at hfield
  by_cases hlt : n < 8 ^ 11
  . rw [if_pos hlt] at hfield
    have hlen := length_octal hlt
    refine ⟨11, by rw [hlen]; decide, fun d => lt_of_mem_octal, ?_, ?_⟩
    . intro k d hd
      rw [Nat.zero_add]
      have hk := (List.getElem?_eq_some_iff.mp hd).1
      apply hfield
      rw [List.getElem?_append_left (by rw [List.length_map]; exact hk)]
      exact getElem?_digitChars hd
    . intro _
      rw [Nat.zero_add]
      apply hfield
      rw [List.getElem?_append_right (by rw [List.length_map]), List.length_map, Nat.sub_self]
      rfl
  . rw [if_neg hlt] at hfield
    have hlen := length_octal hn
    refine ⟨12, by rw [hlen]; decide, fun d => lt_of_mem_octal, ?_, ?_⟩
    . intro k d hd
      rw [Nat.zero_add]
      exact hfield k _ (getElem?_digitChars hd)
    . intro hspace
      rw [hlen] at hspace
      exact absurd hspace (by decide)

end tar

theorem oct2int_octal (oct : Nat → UInt8)
    : (∀ ds, OctDigits oct 0 tar.sizeofSize ds →
        (oct2int oct tar.sizeofSize).toNat = Nat.ofDigits 8 ds.reverse)
      ∧
      (∀ n, n < 8 ^ 12 → (∀ k c, (tar.encode n)[k]? = some c → oct k = c) →
        (oct2int oct tar.sizeofSize).toNat = n) := by
  refine ⟨fun ds h => oct2int.toNat_eq h, fun n hn hfield => ?_⟩
  rcases tar.encode_octDigits hn hfield with ⟨len, h⟩
  rw [oct2int.toNat_eq h, tar.ofDigits_octal]

-- Three digits with anything but a digit behind their terminator, and the field of a file with 8^11 bytes.
theorem oct2int_octal_three
    : (oct2int (fun k => [0x36, 0x34, 0x34, 0].getD k 0xff) tar.sizeofSize).toNat = Nat.ofDigits 8 [4, 4, 6]
      ∧
      (oct2int (fun k => (tar.encode (8 ^ 11)).getD k 0xff) tar.sizeofSize).toNat = 8 ^ 11 := by
  refine ⟨(oct2int_octal _).1 [6, 4, 4] ⟨by decide, by decide, ?_, fun _ => rfl⟩, ?_⟩
  . rintro k d hd
    have hk : k < 3 := (List.getElem?_eq_some_iff.mp hd).1
    interval_cases k
    all_goals
      rw [← Option.some_injective _ hd]
      rfl
  . refine (oct2int_octal _).2 (8 ^ 11) (by decide) ?_
    intro k c hc
    rw [List.getD_eq_getElem?_getD, hc]
    rfl

end Fs
end Franklin
