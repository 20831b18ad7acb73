import Franklin.Lib.Cstring

/-!
This module contains the functions of `kernel/string.c` that compare, copy and print strings.
-/

namespace Franklin
namespace Cstring

def strcmp.loop (s s2 : Nat → UInt8) (i : Nat) : Nat → Int
  | 0 => 0
  | n + 1 => if s i ≠ s2 i then -1 else loop s s2 (i + 1) n

def strcmp (fuel : Nat) (s s2 : Nat → UInt8) : Option Int := do
  let len ← strlen fuel s
  let len2 ← strlen fuel s2
  if len ≠ len2 then some (-1) else some (strcmp.loop s s2 0 len)

def strdup (fuel : Nat) (ss s : Nat → UInt8) : Option Block := do
  let len ← strlen fuel s
  -- account null byte
  let ss : Block := { size := len + 1, byte := ss }
  let ss ← ss.copy 0 { size := len, byte := s } 0 len
  ss.set len 0

/--
The first loop of `itoa`. `space` is the number of the elements of `arr` that are not written, the other ones are in
the list, the last one first. `none` is a write behind the array.
-/
def itoa.split (x : Int32) (arr : List Int32) : Nat → Option (List Int32)
  | 0 => none
  | space + 1 =>
    let r := x % 10
    let arr := r :: arr
    let x := x / 10
    if x ≠ 0 then split x arr space else some arr

/--
The second loop of `itoa`, it goes through `arr` from the last element to the first one.
-/
def itoa.write (s : Nat → UInt8) (r : Nat) : List Int32 → Nat → UInt8
  | [] => s
  | d :: arr => write (Function.update s r (d + 48).toInt8.toUInt8) (r + 1) arr

def itoa (x : Int32) (s : Nat → UInt8) : Option (Nat → UInt8) := do
  let arr ← itoa.split x [] 10
  some (itoa.write s 0 arr)

structure Str where
  bytes : List UInt8
  nonzero : 0 ∉ bytes
  deriving DecidableEq

namespace Str

def length (s : Str) : Nat :=
  s.bytes.length

def mem (s : Str) (behind : Nat → UInt8) (k : Nat) : UInt8 :=
  if k < s.length then s.bytes.getD k 0 else if k = s.length then 0 else behind k

end Str

end Cstring
end Franklin
