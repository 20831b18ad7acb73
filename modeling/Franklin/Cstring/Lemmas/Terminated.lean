import Franklin.Cstring.Basic

/-!
This module contains for which strings the functions of `kernel/string.c` are correct, whatever is in the memory
behind them.
-/

namespace Franklin
namespace Cstring

variable {s t : Str} {behind behind' : Nat → UInt8} {fuel i k n : Nat}

namespace Str

theorem mem_length : s.mem behind s.length = 0 := by
  unfold mem
  rw [if_neg (Nat.lt_irrefl _), if_pos rfl]

theorem mem_lt (hk : k < s.length) : s.mem behind k = s.bytes.getD k 0 := by
  unfold mem
  rw [if_pos hk]

theorem mem_ne_zero (hk : k < s.length) : s.mem behind k ≠ 0 := by
  rw [mem_lt hk, List.getD_eq_getElem?_getD, List.getElem?_eq_getElem hk, Option.getD_some]
  intro hzero
  apply s.nonzero
  rw [← hzero]
  exact List.getElem_mem hk

theorem mem_le (hk : k ≤ s.length) : s.mem behind k = s.mem behind' k := by
  by_cases hlt : k < s.length
  . rw [mem_lt hlt, mem_lt hlt]
  . have heq : k = s.length := by omega
    rw [heq, mem_length, mem_length]

theorem length_pos (hs : s.bytes ≠ []) : 0 < s.length :=
  List.length_pos_iff.mpr hs

theorem eq_of_mem (hlength : s.length = t.length)
    (h : ∀ k, k < s.length → s.mem behind k = t.mem behind' k) : s = t := by
  rcases s with ⟨bytes, _⟩
  rcases t with ⟨bytes', _⟩
  have heq : bytes = bytes' := by
    apply List.ext_getElem hlength
    intro k hk hk'
    have hbyte := h k hk
    rw [mem_lt hk, mem_lt hk'] at hbyte
    dsimp only at hbyte
    rw [List.getD_eq_getElem?_getD, List.getElem?_eq_getElem hk, Option.getD_some, List.getD_eq_getElem?_getD,
      List.getElem?_eq_getElem hk', Option.getD_some] at hbyte
    exact hbyte
  subst heq
  rfl

end Str

theorem strlen_eq (hs : s.bytes ≠ []) (hfuel : s.length ≤ fuel) : strlen fuel (s.mem behind) = some s.length := by
  have hpos := Str.length_pos hs
  have hrounds : s.length < 1 + fuel := by omega
  rcases strlen.loop_of_zero hpos Str.mem_length hrounds with ⟨n, hn, hle⟩
  rcases strlen.loop_spec hn with ⟨_, hzero, _⟩
  have heq : n = s.length := by
    by_contra hne
    exact Str.mem_ne_zero (show n < s.length by omega) hzero
  rw [heq] at hn
  exact hn

theorem strcmp.loop_eq_zero_iff {s s2 : Nat → UInt8} : loop s s2 i n = 0 ↔ ∀ k, k < n → s (i + k) = s2 (i + k) := by
  induction n generalizing i with
  | zero =>
    constructor
    . intro _ k hk
      omega
    . intro _
      rfl
  | succ n ih =>
    unfold loop
    by_cases hi : s i = s2 i
    . rw [if_neg (not_not.mpr hi), ih]
      constructor
      . intro h k hk
        cases k with
        | zero => exact hi
        | succ k =>
          have hbyte := h k (by omega)
          rw [show i + 1 + k = i + (k + 1) by omega] at hbyte
          exact hbyte
      . intro h k hk
        rw [show i + 1 + k = i + (k + 1) by omega]
        exact h (k + 1) (by omega)
    . rw [if_pos hi]
      constructor
      . intro h
        cases h
      . intro h
        exact absurd (h 0 (by omega)) hi

theorem strcmp_eq (hs : s.bytes ≠ []) (ht : t.bytes ≠ []) (hfuel : s.length ≤ fuel) (hfuel' : t.length ≤ fuel)
    : ∃ r, strcmp fuel (s.mem behind) (t.mem behind') = some r ∧ (r = 0 ↔ s = t) := by
  unfold strcmp
  rw [strlen_eq hs hfuel, strlen_eq ht hfuel', Option.bind_eq_bind, Option.bind_some, Option.bind_some]
  by_cases hlength : s.length = t.length
  . rw [if_neg (not_not.mpr hlength)]
    refine ⟨_, rfl, ?_⟩
    rw [strcmp.loop_eq_zero_iff]
    constructor
    . intro h
      apply Str.eq_of_mem hlength
      intro k hk
      have hbyte := h k hk
      rw [Nat.zero_add] at hbyte
      exact hbyte
    . rintro rfl k hk
      exact Str.mem_le (by omega)
  . rw [if_pos hlength]
    refine ⟨-1, rfl, ?_⟩
    constructor
    . intro h
      cases h
    . rintro rfl
      exact absurd rfl hlength

structure IsCopy (s : Str) (dest b : Block) (i : Nat) : Prop where
  size : b.size = dest.size
  byte : ∀ k, k < s.length → b.byte (i + k) = s.bytes.getD k 0
  zero : b.byte (i + s.length) = 0
  frame : ∀ k, k < i ∨ i + s.length < k → b.byte k = dest.byte k

theorem copy_eq {dest : Block} (hsize : i + s.length < dest.size)
    : ∃ b, IsCopy s dest b i ∧ ∀ behind,
        (dest.copy i { size := s.length, byte := s.mem behind } 0 s.length).bind (fun d => d.set (i + s.length) 0) =
          some b := by
  have hdest : dest.Inside i s.length := by
    unfold Block.Inside
    omega
  have hsrc : ∀ behind, ({ size := s.length, byte := s.mem behind } : Block).Inside 0 s.length := by
    intro behind
    unfold Block.Inside
    dsimp only
    omega
  have hset : ∀ src : Block, (dest.overlay i src 0 s.length).set (i + s.length) 0 =
      some (Block.mk dest.size (Function.update (dest.overlay i src 0 s.length).byte (i + s.length) 0)) := by
    intro src
    unfold Block.set
    rw [Block.overlay_size, if_pos (by omega), show ((i : Int) + s.length).toNat = i + s.length by omega]
  refine ⟨Block.mk dest.size (Function.update
    (dest.overlay i { size := s.length, byte := s.mem fun _ => 0 } 0 s.length).byte (i + s.length) 0), ?_, ?_⟩
  . constructor
    . rfl
    . intro k hk
      dsimp only
      rw [Function.update_of_ne (by omega), Block.overlay_inside (by omega),
        show ((0 : Int) + (((i + k : Nat) : Int) - i)).toNat = k by omega]
      exact @Str.mem_lt s (fun _ => 0) k hk
    . dsimp only
      rw [Function.update_self]
    . intro k hk
      dsimp only
      rw [Function.update_of_ne (by omega), Block.overlay_outside (by omega)]
  . intro behind
    rw [Block.copy_eq hdest (hsrc behind), Option.bind_some, hset]
    congr 3
    have hsame : dest.overlay i { size := s.length, byte := s.mem behind } 0 s.length =
        dest.overlay i { size := s.length, byte := s.mem fun _ => 0 } 0 s.length := by
      apply Block.overlay_congr
      intro k hk
      dsimp only
      rw [show ((0 : Int) + k).toNat = k by omega]
      exact Str.mem_le (by omega)
    rw [hsame]

/--
What the functions are supposed to do with two strings. What follows the strings in the memory is not read, so it
does not matter for the copies.
-/
structure Correct (s t : Str) : Prop where
  strlen : ∀ behind, ∃ fuel, strlen fuel (s.mem behind) = some s.length
  strcmp : ∀ behind behind', ∃ fuel r, strcmp fuel (s.mem behind) (t.mem behind') = some r ∧ (r = 0 ↔ s = t)
  strcpy : ∀ (dest : Block) (i : Nat), i + s.length < dest.size →
    ∃ fuel b, IsCopy s dest b i ∧ ∀ behind, strcpy fuel dest i (s.mem behind) = some b
  strdup : ∀ ss, ∃ fuel b, IsCopy s { size := s.length + 1, byte := ss } b 0 ∧
    ∀ behind, strdup fuel ss (s.mem behind) = some b

theorem correct_of_ne_nil (hs : s.bytes ≠ []) (ht : t.bytes ≠ []) : Correct s t where
  strlen behind := ⟨s.length, strlen_eq hs (Nat.le_refl _)⟩
  strcmp behind behind' := ⟨s.length + t.length, strcmp_eq hs ht (by omega) (by omega)⟩
  strcpy dest i hsize := by
    rcases copy_eq hsize with ⟨b, hcopy, hb⟩
    refine ⟨s.length, b, hcopy, ?_⟩
    intro behind
    unfold Franklin.strcpy
    rw [strlen_eq hs (Nat.le_refl _)]
    exact hb behind
  strdup ss := by
    rcases @copy_eq s 0 { size := s.length + 1, byte := ss } (by dsimp only; omega) with ⟨b, hcopy, hb⟩
    refine ⟨s.length, b, hcopy, ?_⟩
    intro behind
    unfold Cstring.strdup
    rw [strlen_eq hs (Nat.le_refl _)]
    have hrun := hb behind
    rw [Int.natCast_zero, Int.zero_add] at hrun
    exact hrun

theorem strlen_ne_zero {s : Nat → UInt8} : strlen fuel s ≠ some 0 := by
  intro h
  have hle := (strlen.loop_spec h).1
  omega

theorem correct_iff (s t : Str) : Correct s t ↔ s.bytes ≠ [] ∧ t.bytes ≠ [] := by
  constructor
  . intro h
    constructor
    . intro hnil
      rcases h.strlen fun _ => 0 with ⟨fuel, hlen⟩
      unfold Str.length at hlen
      rw [hnil] at hlen
      exact strlen_ne_zero hlen
    . intro hnil
      -- No terminator follows the empty string.
      rcases h.strcmp (fun _ => 0) (fun _ => 1) with ⟨fuel, r, hr, _⟩
      unfold strcmp at hr
      rcases Option.bind_eq_some_iff.mp hr with ⟨len, _, hrest⟩
      rcases Option.bind_eq_some_iff.mp hrest with ⟨len2, hlen2, _⟩
      rcases strlen.loop_spec hlen2 with ⟨hpos, hzero, _⟩
      unfold Str.mem Str.length at hzero
      rw [hnil, List.length_nil, if_neg (by omega), if_neg (by omega)] at hzero
      cases hzero
  . rintro ⟨hs, ht⟩
    exact correct_of_ne_nil hs ht

theorem strlen_empty : ¬ Correct ⟨[], List.not_mem_nil⟩ ⟨[], List.not_mem_nil⟩ := by
  intro h
  rcases h.strlen fun _ => 0 with ⟨fuel, hlen⟩
  exact strlen_ne_zero hlen

end Cstring
end Franklin
