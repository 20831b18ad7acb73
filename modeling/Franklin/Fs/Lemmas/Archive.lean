import Franklin.Fs.Lemmas.Progress
import Mathlib.Data.BitVec
import Mathlib.Data.Fintype.Card

/-!
This module contains which modules `initramfs` reads only inside of, as it does not look at the size of a module.
-/

namespace Franklin
namespace Fs

open Vmm (Addr P2V V2P)

def LimineFile.Inside (module : LimineFile) (p : Addr) (n : Nat) : Prop :=
  module.address.toNat ≤ p.toNat ∧ p.toNat + n ≤ module.address.toNat + module.size.toNat

namespace initramfs

variable {mem mem' : Addr → UInt8} {module : LimineFile} {p q : Addr} {seen : List Addr}

/--
What is read at a header: the header, and for a member its name, which is copied up to the `NUL`, and its body, if it
is a regular file.
-/
structure Reads (mem : Addr → UInt8) (module : LimineFile) (p : Addr) : Prop where
  header : module.Inside p 512
  name : found (view mem p) → ∃ n, 1 ≤ n ∧ view mem p n = 0 ∧ module.Inside p (n + 1)
  body : found (view mem p) → tar.type (view mem p) = TAR_FILETYPE_REG →
    module.Inside p (512 + (size (view mem p)).toNat)

/--
Everything that is read is inside of the module, however far the loop goes.
-/
def Safe (mem : Addr → UInt8) (module : LimineFile) : Prop :=
  ∀ p, Visited (next mem) module.address p → Reads mem module p

/--
From `p` on the module is a sequence of members, each of which is complete, and at the end of it there is a block
without the magic, or the last member leads back to one before, of which `seen` are the headers.
-/
inductive Archive (mem : Addr → UInt8) (module : LimineFile) : List Addr → Addr → Prop
  | stop {seen : List Addr} {p : Addr} (hheader : module.Inside p 512) (hmagic : ¬ found (view mem p))
      : Archive mem module seen p
  | back {seen : List Addr} {p : Addr} (hback : p ∈ seen) : Archive mem module seen p
  | member {seen : List Addr} {p : Addr} (hheader : module.Inside p 512) (hmagic : found (view mem p))
      (hname : ∃ n, 1 ≤ n ∧ view mem p n = 0 ∧ module.Inside p (n + 1))
      (hbody : tar.type (view mem p) = TAR_FILETYPE_REG → module.Inside p (512 + (size (view mem p)).toNat))
      (h : Archive mem module (p :: seen) (p + step (view mem p))) : Archive mem module seen p

theorem Archive.exists_headers (h : Archive mem module seen p)
    : ∃ ps, p ∈ ps ++ seen ∧
        ∀ q ∈ ps, Reads mem module q ∧ (found (view mem q) → q + step (view mem q) ∈ ps ++ seen) := by
  induction h with
  | @stop seen p hheader hmagic =>
    refine ⟨[p], List.mem_append_left _ (List.mem_cons_self ..), ?_⟩
    intro q hq
    obtain rfl := List.mem_singleton.mp hq
    exact ⟨⟨hheader, fun h => absurd h hmagic, fun h => absurd h hmagic⟩, fun h => absurd h hmagic⟩
  | back hback => exact ⟨[], hback, fun q hq => by cases hq⟩
  | @member seen p hheader hmagic hname hbody _ ih =>
    rcases ih with ⟨ps, hnext, hps⟩
    have hmem : ∀ q, q ∈ ps ++ p :: seen → q ∈ (p :: ps) ++ seen := by
      intro q hq
      rcases List.mem_append.mp hq with hq | hq
      . exact List.mem_append_left _ (List.mem_cons_of_mem p hq)
      . rcases List.mem_cons.mp hq with rfl | hq
        . exact List.mem_append_left _ (List.mem_cons_self ..)
        . exact List.mem_append_right _ hq
    refine ⟨p :: ps, List.mem_append_left _ (List.mem_cons_self ..), ?_⟩
    intro q hq
    rcases List.mem_cons.mp hq with rfl | hq
    . exact ⟨⟨hheader, fun _ => hname, fun _ => hbody⟩, fun _ => hmem _ hnext⟩
    . exact ⟨(hps q hq).1, fun hfound => hmem _ ((hps q hq).2 hfound)⟩

theorem safe_of_archive (h : Archive mem module [] module.address) : Safe mem module := by
  rcases h.exists_headers with ⟨ps, hfirst, hps⟩
  rw [List.append_nil] at hfirst hps
  intro p hp
  have hmem : p ∈ ps := by
    apply hp.induct hfirst
    intro q q' _ hq hnext
    rcases next_eq_some hnext with ⟨hfound, rfl⟩
    exact (hps q hq).2 hfound
  exact (hps p hmem).1

theorem length_le (h : seen.Nodup) : seen.length ≤ 2 ^ 64 := by
  have hfin : (seen.map BitVec.toFin).Nodup := h.map BitVec.toFin_injective
  have hcard := hfin.length_le_card
  rw [List.length_map, Fintype.card_fin] at hcard
  exact hcard

theorem archive_of_safe (h : Safe mem module) (hp : Visited (next mem) module.address p) (hseen : seen.Nodup)
    : Archive mem module seen p := by
  induction hn : 2 ^ 64 - seen.length using Nat.strongRecOn generalizing seen p with
  | ind n ih =>
    by_cases hback : p ∈ seen
    . exact .back hback
    . have hreads := h p hp
      by_cases hmagic : found (view mem p)
      . have hseen' : (p :: seen).Nodup := List.nodup_cons.mpr ⟨hback, hseen⟩
        have hlength := length_le hseen'
        rw [List.length_cons] at hlength
        apply Archive.member hreads.header hmagic (hreads.name hmagic) (hreads.body hmagic)
        apply ih (2 ^ 64 - (p :: seen).length) _ (hp.step (next_of_found hmagic)) hseen' rfl
        rw [List.length_cons]
        omega
      . exact .stop hreads.header hmagic

section Agree

variable {file file' : Nat → UInt8}

theorem loop_oct_congr {oct oct' : Nat → UInt8} {val : BitVec 64} {i len : Nat}
    (h : ∀ k, i ≤ k → k < i + len → oct k = oct' k) : oct2int.loop oct val i len = oct2int.loop oct' val i len := by
  induction len generalizing val i with
  | zero => rfl
  | succ len ih =>
    unfold oct2int.loop
    rw [h i (Nat.le_refl i) (by omega)]
    split
    . rfl
    . exact ih fun k hk hlt => h k (by omega) (by omega)

theorem found_congr (h : ∀ k, k < 512 → file k = file' k) : found file ↔ found file' := by
  have hmagic : tar.magic file = tar.magic file' := by
    unfold tar.magic tar.chars
    apply List.map_congr_left
    intro k hk
    have hlt := List.mem_range.mp hk
    rw [h (257 + k) (by omega)]
  unfold found
  rw [hmagic]

theorem size_congr (h : ∀ k, k < 512 → file k = file' k) : size file = size file' := by
  apply loop_oct_congr
  intro k _ hlt
  unfold tar.sizeofSize at hlt
  exact h (124 + k) (by omega)

theorem step_congr (h : ∀ k, k < 512 → file k = file' k) : step file = step file' := by
  unfold step
  rw [size_congr h]

theorem vfs_write_congr {fuel : Nat} {junk : Nat → UInt8} {buf buf' : Block} {count : BitVec 64}
    (hsize : buf.size = buf'.size) (h : ∀ k, k < count.toNat → buf.byte k = buf'.byte k)
    : vfs_write fuel junk buf count = vfs_write fuel junk buf' count := by
  have hcopy : ∀ dest i, File.memcpy dest i buf 0 count.toNat = File.memcpy dest i buf' 0 count.toNat := by
    intro dest i
    unfold File.memcpy
    have hbuf : dest.copy i buf 0 count.toNat = dest.copy i buf' 0 count.toNat := by
      apply Block.copy_congr hsize
      intro k hk
      rw [Int.zero_add, Int.toNat_natCast]
      exact h k hk
    rw [hbuf]
  have hwrite : Fs.vfs_write fuel junk buf 0#64 count = Fs.vfs_write fuel junk buf' 0#64 count := by
    unfold Fs.vfs_write ramfs_write
    simp only [hcopy]
  unfold vfs_write
  rw [hwrite]

def Agree (module : LimineFile) (mem mem' : Addr → UInt8) : Prop :=
  ∀ a, module.Inside a 1 → mem a = mem' a

theorem Agree.view (h : Agree module mem mem') {n k : Nat} (hin : module.Inside p n) (hk : k < n)
    : view mem p k = view mem' p k := by
  rcases hin with ⟨hle, hend⟩
  have hmodule := module.end_le
  have hadd : (p + BitVec.ofNat 64 k).toNat = p.toNat + k := by
    rw [BitVec.toNat_add, BitVec.toNat_ofNat, Nat.add_mod_mod, Nat.mod_eq_of_lt (by omega)]
  apply h
  unfold LimineFile.Inside
  omega

theorem view_add (mem : Addr → UInt8) (p : Addr) (k : Nat)
    : view mem (p + TAR_HEADER_SIZE) k = view mem p (512 + k) := by
  unfold view TAR_HEADER_SIZE
  rw [BitVec.ofNat_add, BitVec.add_assoc]

theorem member_congr (hreads : Reads mem module p) (h : Agree module mem mem') (hfound : found (view mem p))
    {fuel : Nat} {stack junk : Nat → UInt8} : member fuel stack junk mem p = member fuel stack junk mem' p := by
  have hheader : ∀ k, k < 512 → view mem p k = view mem' p k := fun k hk => h.view hreads.header hk
  rcases hreads.name hfound with ⟨n, hn, hzero, hin⟩
  have hname : name fuel stack (view mem p) = name fuel stack (view mem' p) := by
    unfold name
    congr 1
    funext b
    exact strcpy_congr hn hzero fun k hk => h.view hin (Nat.lt_succ_of_le hk)
  have htype : tar.type (view mem p) = tar.type (view mem' p) := hheader 156 (by decide)
  unfold member
  rw [← hname, ← htype]
  cases name fuel stack (view mem p) with
  | none => rfl
  | some b =>
    dsimp only
    by_cases hreg : tar.type (view mem p) = TAR_FILETYPE_REG
    . have hbody : ∀ junk, vfs_write fuel junk
            { size := (size (view mem p)).toNat, byte := view mem (p + TAR_HEADER_SIZE) } (size (view mem p)) =
          vfs_write fuel junk
            { size := (size (view mem p)).toNat, byte := view mem' (p + TAR_HEADER_SIZE) } (size (view mem p)) := by
        intro junk
        apply vfs_write_congr
        . rfl
        . intro k hk
          dsimp only
          rw [view_add, view_add]
          exact h.view (hreads.body hfound hreg) (by omega)
      rw [if_pos hreg, if_pos hreg]
      unfold regular
      simp only [← size_congr hheader, hbody]
    . rw [if_neg hreg, if_neg hreg]

theorem loop_congr (hsafe : Safe mem module) (h : Agree module mem mem') {fuel fuel' : Nat} {stack junk : Nat → UInt8}
    (hp : Visited (next mem) module.address p)
    : loop (member fuel stack junk mem) mem fuel' p = loop (member fuel stack junk mem') mem' fuel' p := by
  induction fuel' generalizing p with
  | zero => rfl
  | succ fuel' ih =>
    have hreads := hsafe p hp
    have hheader : ∀ k, k < 512 → view mem p k = view mem' p k := fun k hk => h.view hreads.header hk
    unfold loop
    by_cases hfound : found (view mem p)
    . rw [if_pos hfound, if_pos ((found_congr hheader).mp hfound), member_congr hreads h hfound, ← step_congr hheader,
        ih (hp.step (next_of_found hfound))]
    . rw [if_neg hfound, if_neg (fun hfound' => hfound ((found_congr hheader).mpr hfound'))]

end Agree

end initramfs

theorem initramfs_safe_iff (mem : Addr → UInt8) (module : LimineFile)
    : initramfs.Safe mem module ↔ initramfs.Archive mem module [] module.address :=
  ⟨fun h => initramfs.archive_of_safe h .self List.nodup_nil, initramfs.safe_of_archive⟩

theorem initramfs_congr {mem mem' : Addr → UInt8} {module : LimineFile}
    (h : initramfs.Archive mem module [] module.address) (hagree : initramfs.Agree module mem mem') (fuel : Nat)
    (stack junk : Nat → UInt8)
    : initramfs fuel stack junk mem (some module) = initramfs fuel stack junk mem' (some module) :=
  initramfs.loop_congr (initramfs.safe_of_archive h) hagree .self

/--
The memory with a module at `0x1000` that is filled by the header of a directory.
-/
def oneHeader (a : Addr) : UInt8 :=
  let bytes : List (BitVec 64 × UInt8) :=
    [(0x1000#64, 97), (0x107c#64, 48), (0x109c#64, 53),
      (0x1101#64, 117), (0x1102#64, 115), (0x1103#64, 116), (0x1104#64, 97), (0x1105#64, 114)]
  (bytes.lookup (V2P a)).getD 0

theorem oneHeader_end_le : (P2V 0x1000#64).toNat + (512#64).toNat ≤ 2 ^ 64 := by
  decide

theorem initramfs_not_safe : ¬ initramfs.Safe oneHeader (LimineFile.mk (P2V 0x1000#64) 512#64 oneHeader_end_le) := by
  intro h
  have hnext : initramfs.next oneHeader (P2V 0x1000#64) = some (P2V 0x1200#64) := by decide +kernel
  have hend := (h _ (Visited.self.step hnext)).header.2
  exact absurd hend (by decide)

end Fs
end Franklin
