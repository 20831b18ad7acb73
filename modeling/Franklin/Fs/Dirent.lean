import Franklin.Lib.Block
import Franklin.Fs.Readdir

/-!
This module contains the bytes of `struct dirent` in the buffer of `ramfs_readdir`, and how `printdir` in
`fs/vfs.c` walks over them. `width` is the size of the type `ino_t`, and `reclen` and `type` are in front of
`name`.
-/

namespace Franklin
namespace Fs

def le (n k : Nat) : UInt8 :=
  UInt8.ofNat (n / 256 ^ k)

/--
The number in `k` bytes of a block from the index `i` on.
-/
def number (b : Block) (i : Int) : Nat → Option Nat
  | 0 => some 0
  | k + 1 => do
    let n ← number b i k
    let c ← b.get (i + k)
    pure (n + c.toNat * 256 ^ k)

/--
The C string in a block from the index `i` on, `fuel` is a bound for its length.
-/
def cstring (b : Block) : Nat → Int → Option Name
  | 0, _ => none
  | fuel + 1, i => do
    let c ← b.get i
    if c = 0 then
      pure []
    else
      let s ← cstring b fuel (i + 1)
      pure (Char.ofNat c.toNat :: s)

namespace Dirent

/--
The `struct dirent` on the stack, where what the code does not write is `junk`.
-/
def image (width pos : Nat) (junk : Nat → UInt8) (d : Dirent) : Block where
  size := pos + 256
  byte i :=
    if i < width then
      le d.ino i
    else if pos - 5 ≤ i ∧ i < pos - 1 then
      le d.reclen (i - (pos - 5))
    else if i = pos - 1 then
      UInt8.ofNat d.type
    else if pos ≤ i ∧ i < pos + d.name.length then
      UInt8.ofNat (d.name.getD (i - pos) '0').toNat
    else if i = pos + d.name.length then
      0
    else
      junk i

def decode (width pos : Nat) (buf : Block) (i : Int) : Option Dirent := do
  let ino ← number buf i width
  let reclen ← number buf (i + pos - 5) 4
  let type ← buf.get (i + pos - 1)
  let name ← cstring buf 256 (i + pos)
  pure { ino, reclen, type := type.toNat, name }

end Dirent

/--
The copies `memcpy(buf, &d, d.reclen)` of `ramfs_readdir`, from the index `i` of the buffer on.
-/
def ramfs_readdir.fill (width pos : Nat) (junk : Nat → UInt8) : Block → Int → List Dirent → Option Block
  | buf, _, [] => some buf
  | buf, i, d :: ds => do
    let buf ← buf.copy i (d.image width pos junk) 0 d.reclen
    fill width pos junk buf (i + d.reclen) ds

/--
The loop over the records, `count` is the `ssize_t` that `vfs_readdir` has returned.
-/
def printdir.walk (width pos : Nat) (buf : Block) (count : Int) : Nat → Int → Option (List Dirent)
  | 0, _ => none
  | fuel + 1, i =>
    if i < count then do
      let d ← Dirent.decode width pos buf i
      let ds ← walk width pos buf count fuel (i + d.reclen)
      pure (d :: ds)
    else
      some []

end Fs
end Franklin
