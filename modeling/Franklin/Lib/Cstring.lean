import Franklin.Lib.Block

/-!
This module contains the length and the copy of the C strings in a memory, as `kernel/string.c` has them: the
first byte of a string is not looked at.
-/

namespace Franklin

/--
The loop goes on at the index `n`, `fuel` is a bound for the number of its rounds.
-/
def strlen.loop (s : Nat → UInt8) : Nat → Nat → Option Nat
  | 0, _ => none
  | fuel + 1, n => if s n = 0 then some n else loop s fuel (n + 1)

def strlen (fuel : Nat) (s : Nat → UInt8) : Option Nat :=
  strlen.loop s fuel 1

def strcpy (fuel : Nat) (dest : Block) (i : Int) (s : Nat → UInt8) : Option Block := do
  let n ← strlen fuel s
  let dest ← dest.copy i { size := n, byte := s } 0 n
  dest.set (i + n) 0

def text (name : List Char) (behind : Nat → UInt8) (k : Nat) : UInt8 :=
  if k < name.length then
    UInt8.ofNat (name.getD k '0').toNat
  else if k = name.length then
    0
  else
    behind k

/--
The string stays inside of a buffer of `size` bytes when it is copied to the index `i`, whatever is in the memory
behind it.
-/
def Copyable (size i : Nat) (name : List Char) : Prop :=
  name ≠ [] ∧ i + name.length < size

instance (size i : Nat) (name : List Char) : Decidable (Copyable size i name) := by
  unfold Copyable
  infer_instance

section Strlen

variable {s : Nat → UInt8} {fuel m n : Nat}

theorem strlen.loop_spec (h : loop s fuel m = some n) : m ≤ n ∧ s n = 0 ∧ ∀ k, m ≤ k → k < n → s k ≠ 0 := by
  induction fuel generalizing m with
  | zero => cases h
  | succ fuel ih =>
    unfold loop at h
    split at h
    . next hzero =>
      rw [← Option.some.inj h]
      exact ⟨Nat.le_refl m, hzero, by omega⟩
    . next hzero =>
      rcases ih h with ⟨hle, hn, hbefore⟩
      refine ⟨by omega, hn, ?_⟩
      intro k hk hlt
      by_cases hkm : k = m
      . rw [hkm]
        exact hzero
      . exact hbefore k (by omega) hlt

theorem strlen.loop_of_zero (hle : m ≤ n) (hn : s n = 0) (hfuel : n < m + fuel)
    : ∃ k, loop s fuel m = some k ∧ k ≤ n := by
  induction fuel generalizing m with
  | zero => omega
  | succ fuel ih =>
    unfold loop
    split
    . exact ⟨m, rfl, hle⟩
    . next hzero =>
      have hne : m ≠ n := by
        intro heq
        rw [heq] at hzero
        exact hzero hn
      exact ih (by omega) (by omega)

theorem strlen.loop_congr {s' : Nat → UInt8} (hle : m ≤ n) (hn : s n = 0) (h : ∀ k, m ≤ k → k ≤ n → s k = s' k)
    : loop s fuel m = loop s' fuel m := by
  induction fuel generalizing m with
  | zero => rfl
  | succ fuel ih =>
    unfold loop
    rw [h m (Nat.le_refl m) hle]
    split
    . rfl
    . next hzero =>
      have hne : m ≠ n := by
        rintro rfl
        rw [h m (Nat.le_refl m) hle] at hn
        exact hzero hn
      exact ih (by omega) fun k hk => h k (by omega)

end Strlen

section Strcpy

variable {s : Nat → UInt8} {fuel i n : Nat} {dest : Block} {name : List Char}

theorem strcpy_isSome_iff (hfuel : dest.size ≤ fuel)
    : (strcpy fuel dest i s).isSome ↔ ∃ n, 1 ≤ n ∧ s n = 0 ∧ i + n < dest.size := by
  unfold strcpy strlen
  cases hlen : strlen.loop s fuel 1 with
  | none =>
    constructor
    . intro h
      cases h
    . rintro ⟨n, hn, hzero, hlt⟩
      have hrounds : n < 1 + fuel := by omega
      rcases strlen.loop_of_zero hn hzero hrounds with ⟨k, hk, _⟩
      rw [hlen] at hk
      cases hk
  | some n =>
    rcases strlen.loop_spec hlen with ⟨hn, hzero, hbefore⟩
    rw [Option.bind_eq_bind, Option.bind_some]
    by_cases hlt : i + n < dest.size
    . have hdest : dest.Inside i n := by
        unfold Block.Inside
        omega
      have hsrc : ({ size := n, byte := s } : Block).Inside 0 n := by
        unfold Block.Inside
        dsimp only
        omega
      rw [Block.copy_eq hdest hsrc, Option.bind_eq_bind, Option.bind_some]
      unfold Block.set
      rw [if_pos (by rw [Block.overlay_size]; omega)]
      exact ⟨fun _ => ⟨n, hn, hzero, hlt⟩, fun _ => rfl⟩
    . constructor
      . intro h
        exfalso
        by_cases hin : dest.Inside i n ∧ ({ size := n, byte := s } : Block).Inside 0 n
        . rw [Block.copy_eq hin.1 hin.2, Option.bind_eq_bind, Option.bind_some] at h
          unfold Block.set at h
          rw [if_neg (by rw [Block.overlay_size]; omega)] at h
          cases h
        . rw [Block.copy_none hin] at h
          cases h
      . rintro ⟨k, hk, hkzero, hklt⟩
        exact absurd hkzero (hbefore k hk (by omega))

theorem strcpy_congr {s' : Nat → UInt8} (hle : 1 ≤ n) (hn : s n = 0) (h : ∀ k, k ≤ n → s k = s' k) {i : Int}
    : strcpy fuel dest i s = strcpy fuel dest i s' := by
  have hlen : strlen fuel s = strlen fuel s' := strlen.loop_congr hle hn fun k _ hk => h k hk
  unfold strcpy
  rw [← hlen]
  cases hs : strlen fuel s with
  | none => rfl
  | some m =>
    rcases strlen.loop_spec hs with ⟨_, _, hbefore⟩
    have hm : m ≤ n := by
      by_contra hlt
      exact hbefore n hle (by omega) hn
    have hcopy : dest.copy i { size := m, byte := s } 0 m = dest.copy i { size := m, byte := s' } 0 m := by
      apply Block.copy_congr
      . rfl
      . intro k hk
        rw [Int.zero_add, Int.toNat_natCast]
        exact h k (by omega)
    rw [Option.bind_eq_bind, Option.bind_some, Option.bind_eq_bind, Option.bind_some, hcopy]

theorem text_length (behind : Nat → UInt8) : text name behind name.length = 0 := by
  unfold text
  rw [if_neg (Nat.lt_irrefl _), if_pos rfl]

theorem text_ne_zero {k : Nat} (hname : ∀ c ∈ name, 0 < c.toNat ∧ c.toNat < 256) (behind : Nat → UInt8)
    (hk : k < name.length) : text name behind k ≠ 0 := by
  unfold text
  rw [if_pos hk, List.getD_eq_getElem?_getD, List.getElem?_eq_getElem hk, Option.getD_some]
  have hc := hname _ (List.getElem_mem hk)
  intro hzero
  have hnat := congrArg UInt8.toNat hzero
  rw [UInt8.toNat_ofNat'] at hnat
  change _ = 0 at hnat
  omega

theorem strcpy_text_iff (hfuel : dest.size ≤ fuel) (hname : ∀ c ∈ name, 0 < c.toNat ∧ c.toNat < 256)
    : (∀ behind, (strcpy fuel dest i (text name behind)).isSome) ↔ Copyable dest.size i name := by
  simp only [strcpy_isSome_iff hfuel]
  constructor
  . intro h
    by_cases hnil : name = []
    . rcases h (fun _ => 1) with ⟨n, hn, hzero, _⟩
      unfold text at hzero
      rw [hnil, List.length_nil, if_neg (by omega), if_neg (by omega)] at hzero
      cases hzero
    . refine ⟨hnil, ?_⟩
      rcases h (fun _ => 1) with ⟨n, _, hzero, hlt⟩
      by_contra hlong
      have hshort : n < name.length := by omega
      exact text_ne_zero hname _ hshort hzero
  . rintro ⟨hnil, hlt⟩ behind
    have hpos := List.length_pos_iff.mpr hnil
    exact ⟨name.length, hpos, text_length behind, hlt⟩

end Strcpy

end Franklin
