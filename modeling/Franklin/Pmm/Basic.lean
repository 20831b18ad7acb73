import Mathlib.Algebra.Group.Nat.Defs

/-!
This module contains the physical page allocator of `kernel/pmm.c` and the bit accessors of
`franklin/bitmap.h` that it works with.
-/

namespace Franklin

def PGSIZE : Nat := 4096

namespace Pmm

/--
The global `bitmap`: `addr` is the physical address it is stored at, `size` the number of bytes
`initbmap` reserves for it and `byte i` the byte at offset `i`. As in C the bytes from `size` on are
other memory that the accessors can still reach.
-/
structure Bitmap where
  addr : Nat
  size : Nat
  byte : Nat → BitVec 8
  -- `initbmap` keeps one bit for each page below a 64 bit address.
  size_lt : size < 2 ^ 49

namespace Bitmap

def pages (bm : Bitmap) : Nat :=
  8 * bm.size

def store (bm : Bitmap) (idx : Nat) (val : BitVec 8) : Bitmap :=
  { bm with byte := fun i => if i = idx then val else bm.byte i }

end Bitmap

def bitmap_test (bm : Bitmap) (bit : Nat) : Bool :=
  bm.byte (bit / 8) &&& (1#8 <<< (bit % 8)) != 0#8

def bitmap_set (bm : Bitmap) (bit : Nat) : Bitmap :=
  bm.store (bit / 8) (bm.byte (bit / 8) ||| (1#8 <<< (bit % 8)))

def bitmap_reset (bm : Bitmap) (bit : Nat) : Bitmap :=
  bm.store (bit / 8) (bm.byte (bit / 8) &&& ~~~(1#8 <<< (bit % 8)))

/--
`for (i = start; i < start + n; ++i) bitmap_set(bitmap, i)`.
-/
def setRun (bm : Bitmap) (start : Nat) : Nat → Bitmap
  | 0 => bm
  | n + 1 => setRun (bitmap_set bm start) (start + 1) n

/--
`for (i = start; i < start + n; ++i) bitmap_reset(bitmap, i)`.
-/
def resetRun (bm : Bitmap) (start : Nat) : Nat → Bitmap
  | 0 => bm
  | n + 1 => resetRun (bitmap_reset bm start) (start + 1) n

def freepg (bm : Bitmap) (addr length : Nat) : Bitmap :=
  resetRun bm (addr / PGSIZE) (length % 2 ^ 32)

namespace palloc

/--
How the `for` loop under the label `scanbitmap` ends. `outside` is the first access to a byte that
does not belong to the bitmap; nothing is known about what the loop reads from there on.
-/
inductive Scan where
  | free
  | busy
  | outside
  deriving DecidableEq, Repr

def scanRun (bm : Bitmap) (i : Nat) : Nat → Scan
  | 0 => .free
  | n + 1 =>
    if bm.pages ≤ i then
      .outside
    else if bitmap_test bm i then
      .busy
    else
      scanRun bm (i + 1) n

-- The limit `p + pages` is computed in `size_t`.
def scanbitmap (bm : Bitmap) (pages p : Nat) : Nat → Option Nat
  | 0 => none
  | fuel + 1 =>
    match scanRun bm p ((p + pages) % 2 ^ 64 - p) with
    | .free => some p
    | .busy => scanbitmap bm pages (p + 1) fuel
    | .outside => none

end palloc

/--
The result is `none` when the scan leaves the bitmap. A scan that restarts has seen a set bit of the
bitmap, so `bm.pages + 1` rounds are enough for it.
-/
def palloc (bm : Bitmap) (pages : Nat) : Option (Nat × Bitmap) :=
  match palloc.scanbitmap bm pages 0 (bm.pages + 1) with
  | none => none
  | some p => some (p * PGSIZE % 2 ^ 64, setRun bm p ((p + pages) % 2 ^ 64 - p))

/--
`struct limine_memmap_entry`: a range of physical addresses and what it is used for.
-/
structure MemmapEntry where
  base : Nat
  length : Nat
  type : Nat
  -- The range ends inside the 64 bit address space.
  end_lt : base + length < 2 ^ 64

def MemmapEntry.shrink (entry : MemmapEntry) (n : Nat) (h : n ≤ entry.length) : MemmapEntry :=
  { entry with
    base := entry.base + n
    length := entry.length - n
    end_lt := by
      have := entry.end_lt
      omega }

namespace initbmap

def highestAddr (highest_addr : Nat) : List MemmapEntry → Nat
  | [] => highest_addr
  | entry :: entries =>
    if entry.type ≠ 0 then
      highestAddr highest_addr entries
    else if highest_addr < entry.base + entry.length then
      highestAddr (entry.base + entry.length) entries
    else
      highestAddr highest_addr entries

def bitmapSize (entries : List MemmapEntry) : Nat :=
  highestAddr 0 entries / PGSIZE / 8

/--
Iteration 2: find a memory area where to allocate the bitmap. The entry it is taken from starts
behind the bitmap afterwards.
-/
def placeBitmap (bitmap_size : Nat) : List MemmapEntry → Option (Nat × List MemmapEntry)
  | [] => none
  | entry :: entries =>
    if h : entry.type = 0 ∧ bitmap_size ≤ entry.length then
      some (entry.base, entry.shrink bitmap_size h.2 :: entries)
    else
      (placeBitmap bitmap_size entries).map fun res => (res.1, entry :: res.2)

/--
`for (j = start; j < length; j += PGSIZE)`, which makes `n` rounds.
-/
def freeEntry (bm : Bitmap) (base j : Nat) : Nat → Bitmap
  | 0 => bm
  | n + 1 => freeEntry (bitmap_reset bm ((base + j) / PGSIZE)) base (j + PGSIZE) n

def freeUsable (bm : Bitmap) : List MemmapEntry → Bitmap
  | [] => bm
  | entry :: entries =>
    if entry.type ≠ 0 then
      freeUsable bm entries
    else
      freeUsable (freeEntry bm entry.base 0 ((entry.length + (PGSIZE - 1)) / PGSIZE)) entries

end initbmap

namespace initbmap

theorem highestAddr_lt (entries : List MemmapEntry) {highest_addr : Nat} (h : highest_addr < 2 ^ 64)
    : highestAddr highest_addr entries < 2 ^ 64 := by
  induction entries generalizing highest_addr with
  | nil => exact h
  | cons entry entries ih =>
    unfold highestAddr
    split
    . exact ih h
    . split
      . exact ih entry.end_lt
      . exact ih h

theorem bitmapSize_lt (entries : List MemmapEntry) : bitmapSize entries < 2 ^ 49 := by
  have := highestAddr_lt entries (show 0 < 2 ^ 64 by omega)
  unfold bitmapSize PGSIZE
  omega

/--
`bitmap` right after `memset(bitmap, 0xff, bitmap_size)`, every page is non free.
-/
def fullBitmap (mem : Nat → BitVec 8) (entries : List MemmapEntry) (base : Nat) : Bitmap :=
  { addr := base
    size := bitmapSize entries
    byte := fun i => if i < bitmapSize entries then 0xff#8 else mem (base + i)
    size_lt := bitmapSize_lt entries }

end initbmap

/--
`mem` is the physical memory before the call. Without a usable area that is long enough `bitmap` is
never assigned.
-/
def initbmap (mem : Nat → BitVec 8) (entries : List MemmapEntry) : Option Bitmap :=
  match initbmap.placeBitmap (initbmap.bitmapSize entries) entries with
  | none => none
  | some (base, entries') =>
    some (initbmap.freeUsable (initbmap.fullBitmap mem entries base) entries')

end Pmm
end Franklin
