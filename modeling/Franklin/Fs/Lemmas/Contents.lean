import Franklin.Fs.Lemmas.File

/-!
This module contains which bytes a file has after a sequence of writes, and which of them come from the memory
that `kalloc` returned.
-/

namespace Franklin
namespace Fs

namespace File

structure Write where
  buf : Block
  offset : BitVec 64
  count : BitVec 64

namespace Write

def Covers (w : Write) (i : Int) : Prop :=
  w.offset.toInt ≤ i ∧ i < w.offset.toInt + w.count.toNat

instance (w : Write) (i : Int) : Decidable (w.Covers i) := by
  unfold Covers
  infer_instance

/--
What the call writes to the index `i` of the file.
-/
def byte (w : Write) (i : Int) : UInt8 :=
  w.buf.byte (i - w.offset.toInt).toNat

end Write

/--
What the last one of the calls that cover the index `i` writes there.
-/
def written : List Write → Int → Option UInt8
  | [], _ => none
  | w :: ws, i => (written ws i).or (if w.Covers i then some (w.byte i) else none)

/--
The calls of `ramfs_write` one after the other, where the `k`-th one gets memory that has been `junk k`.
-/
def writes (fuel : Nat) (junk : Nat → Nat → UInt8) : List Write → FileProg Unit
  | [] => pure ()
  | w :: ws => do
    let _ ← ramfs_write fuel (junk 0) w.buf w.offset w.count
    writes fuel (fun k => junk (k + 1)) ws

section Step

variable {file file' : File} {fuel : Nat} {junk : Nat → UInt8} {buf : Block} {offset count : BitVec 64} {w : Write}
  {r : Ret}

structure Stored (w : Write) (junk : Nat → UInt8) (file file' : File) : Prop where
  valid : file'.Valid
  ramlock : file'.ramlock = false
  data : file'.data ≠ .null
  size : file.size ≤ file'.size
  stop : w.offset + w.count < file'.size
  inside : ∀ i : Int, w.Covers i → 0 ≤ i ∧ i < file'.size.toNat
  covered : ∀ i : Nat, w.Covers i → file'.data.mem.byte i = w.byte i
  kept : ∀ i : Nat, i < file.size.toNat → ¬ w.Covers i → file'.data.mem.byte i = file.data.mem.byte i
  fresh : ∀ i : Nat, file.size.toNat ≤ i → i < file'.size.toNat → ¬ w.Covers i → file'.data.mem.byte i = junk i

theorem stored_mem (hsize : file.data.mem.size ≠ 0)
    : (file.stored buf offset count).data.mem = file.data.mem.overlay offset.toInt buf 0 count.toNat := by
  apply store_mem
  . rfl
  . exact hsize

theorem enlarged_kept {newsize : BitVec 64} {i : Nat} (hi : i < file.size.toNat)
    : (file.enlarged junk newsize).data.mem.byte i = file.data.mem.byte i := by
  unfold enlarged
  dsimp only [Data.mem]
  rw [Block.overlay_inside (by omega)]
  congr 1
  omega

theorem enlarged_fresh {newsize : BitVec 64} {i : Nat} (hi : file.size.toNat ≤ i)
    : (file.enlarged junk newsize).data.mem.byte i = junk i := by
  unfold enlarged
  dsimp only [Data.mem]
  rw [Block.overlay_outside (by omega)]

theorem stored_of_large {node : File} (hvalid : node.Valid) (hstop : w.offset + w.count < node.size)
    (hin : node.data.mem.Inside w.offset.toInt w.count.toNat) (hsize : file.size ≤ node.size)
    (hkept : ∀ i < file.size.toNat, node.data.mem.byte i = file.data.mem.byte i)
    (hfresh : ∀ i, file.size.toNat ≤ i → i < node.size.toNat → node.data.mem.byte i = junk i)
    : Stored w junk file { node.stored w.buf w.offset w.count with ramlock := false } := by
  have hpos : node.data.mem.size ≠ 0 := by
    rw [hvalid.size]
    rw [BitVec.lt_def] at hstop
    omega
  have hmem := @stored_mem node w.buf w.offset w.count hpos
  have hstored := @stored_valid node w.buf w.offset w.count hvalid
  exact {
    valid := ⟨hstored.wild, hstored.size⟩
    ramlock := rfl
    data := by
      dsimp only
      intro hnull
      rw [hnull] at hmem
      apply hpos
      calc node.data.mem.size = (node.data.mem.overlay w.offset.toInt w.buf 0 w.count.toNat).size := rfl
        _ = 0 := by rw [← hmem]; rfl
    size := hsize
    stop := hstop
    inside := by
      intro i hcovers
      unfold Block.Inside at hin
      unfold Write.Covers at hcovers
      rw [hvalid.size] at hin
      change 0 ≤ i ∧ i < node.size.toNat
      omega
    covered := by
      intro i hcovers
      dsimp only
      rw [hmem, Block.overlay_inside hcovers]
      unfold Write.byte
      rw [Int.zero_add]
    kept := by
      intro i hi hcovers
      dsimp only
      rw [hmem, Block.overlay_outside hcovers]
      apply hkept i hi
    fresh := by
      intro i hi hlt hcovers
      dsimp only
      rw [hmem, Block.overlay_outside hcovers]
      apply hfresh i hi hlt
  }

theorem ramfs_write_stored (hvalid : file.Valid) (hlock : file.ramlock = false)
    (hwrite : ramfs_write fuel junk w.buf w.offset w.count file = .ok r file') : Stored w junk file file' := by
  rw [ramfs_write_eq hvalid hlock] at hwrite
  dsimp only at hwrite
  by_cases hle : file.size ≤ w.offset + w.count
  . rw [if_pos hle] at hwrite
    cases hgrow : ramfs_write.grow fuel (w.offset + w.count) (file.size + 1) with
    | none =>
      rw [hgrow] at hwrite
      cases hwrite
    | some newsize =>
      have hlt := ramfs_write.lt_of_grow hgrow
      rw [hgrow] at hwrite
      dsimp only at hwrite
      split at hwrite
      . next hin =>
        cases hwrite
        apply stored_of_large enlarged_valid hlt hin.1
        . rw [BitVec.le_def] at hle
          rw [BitVec.lt_def] at hlt
          rw [BitVec.le_def]
          apply Nat.le_of_lt (Nat.lt_of_le_of_lt hle hlt)
        . intro i hi
          exact @enlarged_kept { file with ramlock := true } junk newsize i hi
        . intro i hi _
          exact @enlarged_fresh { file with ramlock := true } junk newsize i hi
      . cases hwrite
  . rw [if_neg hle] at hwrite
    rw [BitVec.not_le] at hle
    split at hwrite
    . next hin =>
      cases hwrite
      have hlocked : { file with ramlock := true }.Valid := ⟨hvalid.wild, hvalid.size⟩
      apply @stored_of_large file junk w { file with ramlock := true } hlocked hle hin.1 (BitVec.le_refl _)
      . intro i _
        rfl
      . intro i hi hlt
        exact absurd hlt (Nat.not_lt.mpr hi)
    . cases hwrite

theorem ramfs_write_alike (junk' : Nat → UInt8) {other : File} (hvalid : file.Valid)
    (hlock : file.ramlock = false) (hother : other.Valid)
    (hunlocked : other.ramlock = false) (hsize : file.size = other.size)
    (hwrite : ramfs_write fuel junk buf offset count file = .ok r file')
    : ∃ other', ramfs_write fuel junk' buf offset count other = .ok r other' ∧ file'.size = other'.size := by
  rw [ramfs_write_eq hvalid hlock] at hwrite
  rw [ramfs_write_eq hother hunlocked]
  dsimp only at hwrite ⊢
  rw [← hsize]
  by_cases hle : file.size ≤ offset + count
  . rw [if_pos hle] at hwrite ⊢
    cases hgrow : ramfs_write.grow fuel (offset + count) (file.size + 1) with
    | none =>
      rw [hgrow] at hwrite
      cases hwrite
    | some newsize =>
      rw [hgrow] at hwrite
      dsimp only at hwrite ⊢
      split at hwrite
      . next hin =>
        cases hwrite
        rw [if_pos ⟨hin.1, hin.2⟩]
        exact ⟨_, rfl, rfl⟩
      . cases hwrite
  . rw [if_neg hle] at hwrite ⊢
    split at hwrite
    . next hin =>
      have hmem : other.data.mem.Inside offset.toInt count.toNat := by
        have hinside := hin.1
        unfold Block.Inside at hinside ⊢
        rw [hother.size, ← hsize, ← hvalid.size]
        exact hinside
      cases hwrite
      rw [if_pos ⟨hmem, hin.2⟩]
      exact ⟨_, rfl, rfl⟩
    . cases hwrite

theorem ramfs_write_succeeds (junk : Nat → UInt8) (hvalid : file.Valid) (hlock : file.ramlock = false)
    (hsize : file.size.toNat < 2 ^ 63) (hfuel : 64 ≤ fuel) (hoffset : 0 ≤ offset.toInt)
    (hend : offset.toNat + count.toNat < 2 ^ 62)
    (hbuf : count.toNat ≤ buf.size)
    : ∃ file', ramfs_write fuel junk buf offset count file = .ok (.ok 0) file' ∧ file'.size.toNat < 2 ^ 63 := by
  have hstop : (offset + count).toNat = offset.toNat + count.toNat := by
    rw [BitVec.toNat_add]
    apply Nat.mod_eq_of_lt
    omega
  have hcaller : buf.Inside 0 count.toNat := by
    unfold Block.Inside
    omega
  have hrange : count = 0 ∨ 0 ≤ offset.toInt ∧ offset.toNat + count.toNat < 2 ^ 64 := by
    right
    omega
  rw [ramfs_write_eq hvalid hlock]
  dsimp only
  by_cases hle : file.size ≤ offset + count
  . have hsucc : (file.size + 1).toNat = file.size.toNat + 1 := by
      rw [BitVec.toNat_add]
      apply Nat.mod_eq_of_lt
      change file.size.toNat + 1 < 2 ^ 64
      omega
    have hpos : file.size + 1 ≠ 0 := by
      intro hzero
      rw [hzero] at hsucc
      exact absurd hsucc (Nat.succ_ne_zero _).symm
    have hstop63 : (offset + count).toNat < 2 ^ 63 := by omega
    rcases ramfs_write.exists_shift hpos hstop63 with ⟨k, hk, hlt⟩
    have hsome : (ramfs_write.grow fuel (offset + count) (file.size + 1)).isSome :=
      ramfs_write.grow_isSome_iff.mpr ⟨k, by omega, hlt⟩
    rcases Option.isSome_iff_exists.mp hsome with ⟨newsize, hgrow⟩
    have hnew := ramfs_write.lt_of_grow hgrow
    have hbound := ramfs_write.grow_le hgrow
    rw [BitVec.lt_def] at hnew
    rw [if_pos hle, hgrow]
    dsimp only
    rw [if_pos ⟨(range_inside_iff (Nat.le_of_lt hnew) newsize.isLt).mpr hrange, hcaller⟩]
    refine ⟨_, rfl, ?_⟩
    change newsize.toNat < 2 ^ 63
    rw [BitVec.le_def] at hle
    rcases hbound with hbound | hbound
    . rw [hbound, hsucc]
      omega
    . omega
  . rw [if_neg hle]
    rw [BitVec.not_le, BitVec.lt_def] at hle
    have hmem : file.data.mem.Inside offset.toInt count.toNat := by
      apply (range_inside_iff _ _).mpr hrange
      . rw [hvalid.size]
        apply Nat.le_of_lt hle
      . rw [hvalid.size]
        exact file.size.isLt
    rw [if_pos ⟨hmem, hcaller⟩]
    exact ⟨_, rfl, hsize⟩

end Step

section Run

variable {file file' : File} {fuel : Nat} {junk : Nat → Nat → UInt8} {w : Write} {ws : List Write}

theorem written_cons_of_some {i : Int} {c : UInt8} (h : written ws i = some c) : written (w :: ws) i = some c := by
  unfold written
  rw [h]
  rfl

theorem written_cons_of_none {i : Int} (h : written ws i = none)
    : written (w :: ws) i = if w.Covers i then some (w.byte i) else none := by
  rw [written, h]
  rfl

structure Sequence (ws : List Write) (junk : Nat → Nat → UInt8) (file file' : File) : Prop where
  valid : file'.Valid
  ramlock : file'.ramlock = false
  size : file.size ≤ file'.size
  data : file.data ≠ .null → file'.data ≠ .null
  stop : ∀ w ∈ ws, w.offset + w.count < file'.size
  inside : ∀ i c, written ws i = some c → 0 ≤ i ∧ i < file'.size.toNat
  covered : ∀ (i : Nat) c, written ws i = some c → file'.data.mem.byte i = c
  kept : ∀ i : Nat, i < file.size.toNat → written ws i = none → file'.data.mem.byte i = file.data.mem.byte i
  fresh : ∀ i : Nat, file.size.toNat ≤ i → i < file'.size.toNat → written ws i = none →
    ∃ k, file'.data.mem.byte i = junk k i

theorem Sequence.nil (hvalid : file.Valid) (hlock : file.ramlock = false) : Sequence [] junk file file where
  valid := hvalid
  ramlock := hlock
  size := BitVec.le_refl _
  data := id
  stop := by
    intro w hw
    cases hw
  inside := by
    intro i c hc
    cases hc
  covered := by
    intro i c hc
    cases hc
  kept := by
    intro i _ _
    rfl
  fresh := by
    intro i hi hlt
    exact absurd hlt (Nat.not_lt.mpr hi)

theorem Sequence.cons {file1 : File} (hstored : Stored w (junk 0) file file1)
    (hseq : Sequence ws (fun k => junk (k + 1)) file1 file') : Sequence (w :: ws) junk file file' := by
  have hsize := hseq.size
  have hsize1 := hstored.size
  rw [BitVec.le_def] at hsize hsize1
  exact {
    valid := hseq.valid
    ramlock := hseq.ramlock
    size := by
      rw [BitVec.le_def]
      omega
    data := fun _ => hseq.data hstored.data
    stop := by
      intro w' hw'
      rcases List.mem_cons.mp hw' with rfl | hw'
      . have hstop := hstored.stop
        rw [BitVec.lt_def] at hstop ⊢
        omega
      . exact hseq.stop w' hw'
    inside := by
      intro i c hc
      cases hws : written ws i with
      | some c' => exact hseq.inside i c' hws
      | none =>
        rw [written_cons_of_none hws] at hc
        split at hc
        . next hcovers =>
          have hin := hstored.inside i hcovers
          omega
        . cases hc
    covered := by
      intro i c hc
      cases hws : written ws i with
      | some c' =>
        rw [written_cons_of_some hws] at hc
        cases hc
        exact hseq.covered i c hws
      | none =>
        rw [written_cons_of_none hws] at hc
        split at hc
        . next hcovers =>
          cases hc
          have hin := hstored.inside i hcovers
          rw [hseq.kept i (by omega) hws, hstored.covered i hcovers]
        . cases hc
    kept := by
      intro i hi hnone
      cases hws : written ws i with
      | some c' =>
        rw [written_cons_of_some hws] at hnone
        cases hnone
      | none =>
        rw [written_cons_of_none hws] at hnone
        split at hnone
        . cases hnone
        . next hcovers => rw [hseq.kept i (by omega) hws, hstored.kept i hi hcovers]
    fresh := by
      intro i hi hlt hnone
      cases hws : written ws i with
      | some c' =>
        rw [written_cons_of_some hws] at hnone
        cases hnone
      | none =>
        rw [written_cons_of_none hws] at hnone
        split at hnone
        . cases hnone
        . next hcovers =>
          by_cases hi1 : i < file1.size.toNat
          . refine ⟨0, ?_⟩
            rw [hseq.kept i hi1 hws, hstored.fresh i hi hi1 hcovers]
          . rcases hseq.fresh i (by omega) hlt hws with ⟨k, hk⟩
            exact ⟨k + 1, hk⟩
  }

theorem sequence_of_writes (hvalid : file.Valid) (hlock : file.ramlock = false)
    (hwrites : writes fuel junk ws file = .ok () file') : Sequence ws junk file file' := by
  induction ws generalizing file junk with
  | nil =>
    cases hwrites
    exact Sequence.nil hvalid hlock
  | cons w ws ih =>
    unfold writes at hwrites
    cases hwrite : ramfs_write fuel (junk 0) w.buf w.offset w.count file with
    | error e file1 =>
      rw [bind_of_error hwrite] at hwrites
      cases hwrites
    | ok r file1 =>
      rw [bind_of_ok hwrite] at hwrites
      have hstored := ramfs_write_stored hvalid hlock hwrite
      exact Sequence.cons hstored (ih hstored.valid hstored.ramlock hwrites)

theorem writes_alike (junk' : Nat → Nat → UInt8) {other : File} (hvalid : file.Valid)
    (hlock : file.ramlock = false) (hother : other.Valid)
    (hunlocked : other.ramlock = false) (hsize : file.size = other.size)
    (hwrites : writes fuel junk ws file = .ok () file')
    : ∃ other', writes fuel junk' ws other = .ok () other' ∧ file'.size = other'.size := by
  induction ws generalizing file other junk junk' with
  | nil =>
    cases hwrites
    exact ⟨other, rfl, hsize⟩
  | cons w ws ih =>
    unfold writes at hwrites ⊢
    cases hwrite : ramfs_write fuel (junk 0) w.buf w.offset w.count file with
    | error e file1 =>
      rw [bind_of_error hwrite] at hwrites
      cases hwrites
    | ok r file1 =>
      rw [bind_of_ok hwrite] at hwrites
      rcases ramfs_write_alike (junk' 0) hvalid hlock hother hunlocked hsize hwrite with
        ⟨other1, hwrite', hsize'⟩
      have hstored := ramfs_write_stored hvalid hlock hwrite
      have hstored' := ramfs_write_stored hother hunlocked hwrite'
      rw [bind_of_ok hwrite']
      exact ih _ hstored.valid hstored.ramlock hstored'.valid hstored'.ramlock hsize' hwrites

theorem writes_succeed (junk : Nat → Nat → UInt8) (hvalid : file.Valid) (hlock : file.ramlock = false)
    (hsize : file.size.toNat < 2 ^ 63) (hfuel : 64 ≤ fuel)
    (hws : ∀ w ∈ ws, 0 ≤ w.offset.toInt ∧ w.offset.toNat + w.count.toNat < 2 ^ 62 ∧ w.count.toNat ≤ w.buf.size)
    : ∃ file', writes fuel junk ws file = .ok () file' := by
  induction ws generalizing file junk with
  | nil => exact ⟨file, rfl⟩
  | cons w ws ih =>
    rcases hws w (List.mem_cons_self ..) with ⟨hoffset, hend, hbuf⟩
    rcases ramfs_write_succeeds (junk 0) hvalid hlock hsize hfuel hoffset hend hbuf with
      ⟨file1, hwrite, hsize1⟩
    have hstored := ramfs_write_stored hvalid hlock hwrite
    unfold writes
    rw [bind_of_ok hwrite]
    apply ih _ hstored.valid hstored.ramlock hsize1
    intro w' hw'
    exact hws w' (List.mem_cons_of_mem w hw')

end Run

section Session

variable {file : File} {fuel : Nat} {junk : Nat → Nat → UInt8} {ws : List Write} {buf : Block}
  {offset count : BitVec 64}

/--
A sequence of writes to a new regular file with a read behind it.
-/
def session (fuel : Nat) (junk : Nat → Nat → UInt8) (ws : List Write) (buf : Block) (offset count : BitVec 64)
    : Option (Ret × Block) :=
  match (do writes fuel junk ws; ramfs_read buf offset count) (new .VREG [] 0) with
  | .ok r _ => some r
  | .error _ _ => none

theorem session_eq (hwrites : writes fuel junk ws (new .VREG [] 0) = .ok () file)
    : session fuel junk ws buf offset count =
        if file.size < offset + count then
          some (.error .EINVAL, buf)
        else if file.data matches .null then
          some (.ok 0, buf)
        else if buf.Inside 0 count.toNat ∧ file.data.mem.Inside offset.toInt count.toNat then
          some (.ok (count.setWidth 32).toInt, buf.overlay 0 file.data.mem offset.toInt count.toNat)
        else
          none := by
  have hseq := sequence_of_writes (new_valid [] 0) rfl hwrites
  unfold session
  rw [bind_of_ok hwrites, ramfs_read_eq hseq.ramlock]
  by_cases hlt : file.size < offset + count
  . rw [if_pos hlt, if_pos hlt]
  . rw [if_neg hlt, if_neg hlt]
    by_cases hin : buf.Inside 0 count.toNat ∧ file.data.mem.Inside offset.toInt count.toNat
    . rw [if_pos hin, if_pos hin]
      cases file.data with
      | null => rfl
      | _ => rfl
    . rw [if_neg hin, if_neg hin]
      cases file.data with
      | null => rfl
      | _ => rfl

theorem writes_of_session {r : Ret × Block} (hsession : session fuel junk ws buf offset count = some r)
    : ∃ file, writes fuel junk ws (new .VREG [] 0) = .ok () file := by
  unfold session at hsession
  cases hwrites : writes fuel junk ws (new .VREG [] 0) with
  | ok u file => exact ⟨file, rfl⟩
  | error e file =>
    rw [bind_of_error hwrites] at hsession
    cases hsession

theorem ne_null_of_writes (hws : ws ≠ []) (hwrites : writes fuel junk ws (new .VREG [] 0) = .ok () file)
    : file.data ≠ .null := by
  cases ws with
  | nil => exact absurd rfl hws
  | cons w ws =>
    unfold writes at hwrites
    cases hwrite : ramfs_write fuel (junk 0) w.buf w.offset w.count (new .VREG [] 0) with
    | error e file1 =>
      rw [bind_of_error hwrite] at hwrites
      cases hwrites
    | ok r file1 =>
      rw [bind_of_ok hwrite] at hwrites
      have hstored := ramfs_write_stored (new_valid [] 0) rfl hwrite
      have hseq := sequence_of_writes hstored.valid hstored.ramlock hwrites
      exact hseq.data hstored.data

theorem read_of_session {n : Int} {buf' : Block} (hws : ws ≠ [])
    (hwrites : writes fuel junk ws (new .VREG [] 0) = .ok () file)
    (hsession : session fuel junk ws buf offset count = some (.ok n, buf'))
    : ¬ file.size < offset + count ∧ buf.Inside 0 count.toNat ∧ file.data.mem.Inside offset.toInt count.toNat ∧
        n = (count.setWidth 32).toInt ∧ buf' = buf.overlay 0 file.data.mem offset.toInt count.toNat := by
  have hnull : ¬ (file.data matches .null) := by
    have hne := ne_null_of_writes hws hwrites
    cases hdata : file.data with
    | null => exact absurd hdata hne
    | _ => simp
  rw [session_eq hwrites] at hsession
  by_cases hlt : file.size < offset + count
  . rw [if_pos hlt] at hsession
    cases hsession
  . rw [if_neg hlt, if_neg hnull] at hsession
    split at hsession
    . next hin =>
      cases hsession
      exact ⟨hlt, hin.1, hin.2, rfl, rfl⟩
    . cases hsession

theorem session_of_inside (hws : ws ≠ []) (hwrites : writes fuel junk ws (new .VREG [] 0) = .ok () file)
    (hlt : ¬ file.size < offset + count) (hbuf : buf.Inside 0 count.toNat)
    (hin : file.data.mem.Inside offset.toInt count.toNat)
    : session fuel junk ws buf offset count =
        some (.ok (count.setWidth 32).toInt, buf.overlay 0 file.data.mem offset.toInt count.toNat) := by
  have hnull : ¬ (file.data matches .null) := by
    have hne := ne_null_of_writes hws hwrites
    cases hdata : file.data with
    | null => exact absurd hdata hne
    | _ => simp
  rw [session_eq hwrites, if_neg hlt, if_neg hnull, if_pos ⟨hbuf, hin⟩]

theorem junk_of_session {n : Int} {buf' : Block} (c : UInt8) (hws : ws ≠ [])
    (hsession : session fuel (fun _ _ => c) ws buf offset count = some (.ok n, buf')) {k : Nat}
    (hk : k < count.toNat) (hnone : written ws (offset.toInt + k) = none) : buf'.byte k = c := by
  rcases writes_of_session hsession with ⟨file, hwrites⟩
  rcases read_of_session hws hwrites hsession with ⟨_, _, hin, _, rfl⟩
  have hseq := sequence_of_writes (new_valid [] 0) rfl hwrites
  unfold Block.Inside at hin
  rw [hseq.valid.size] at hin
  have hindex : ((offset.toInt + k).toNat : Int) = offset.toInt + k := Int.toNat_of_nonneg (by omega)
  rw [Block.overlay_inside (by omega), Int.sub_zero]
  rcases hseq.fresh (offset.toInt + k).toNat (Nat.zero_le _) (by omega) (by rw [hindex]; exact hnone) with ⟨_, hbyte⟩
  exact hbyte

/--
Writes that end below 2^62 succeed, and a read of what they have written gives the bytes of the last ones. Only a
read of no bytes behind the end of the file is refused.
-/
theorem read_written (fuel : Nat) (junk : Nat → Nat → UInt8) (ws : List Write) (buf : Block)
    (offset count : BitVec 64) (hfuel : 64 ≤ fuel)
    (hws : ∀ w ∈ ws, 0 ≤ w.offset.toInt ∧ w.offset.toNat + w.count.toNat < 2 ^ 62 ∧ w.count.toNat ≤ w.buf.size)
    (hcount : count.toNat < 2 ^ 31) (hbuf : count.toNat ≤ buf.size)
    (hcovered : ∀ i, offset.toInt ≤ i → i < offset.toInt + count.toNat → (written ws i).isSome)
    : ∃ file, writes fuel junk ws (new .VREG [] 0) = .ok () file ∧
        if count = 0 ∧ file.size < offset then
          session fuel junk ws buf offset count = some (.error .EINVAL, buf)
        else
          ∃ buf', session fuel junk ws buf offset count = some (.ok count.toNat, buf') ∧ buf'.size = buf.size ∧
            (∀ k < count.toNat, written ws (offset.toInt + k) = some (buf'.byte k)) ∧
            ∀ k, count.toNat ≤ k → buf'.byte k = buf.byte k := by
  rcases writes_succeed junk (new_valid [] 0) rfl (by decide) hfuel hws with ⟨file, hwrites⟩
  have hseq := sequence_of_writes (new_valid [] 0) rfl hwrites
  refine ⟨file, hwrites, ?_⟩
  by_cases hzero : count = 0
  . subst hzero
    have hsession := @session_eq file fuel junk ws buf offset 0 hwrites
    have hin : buf.Inside 0 (0 : BitVec 64).toNat ∧ file.data.mem.Inside offset.toInt (0 : BitVec 64).toNat :=
      ⟨Or.inl rfl, Or.inl rfl⟩
    have hoverlay : buf.overlay 0 file.data.mem offset.toInt (0 : BitVec 64).toNat = buf := Block.overlay_zero
    have hadd : offset + 0 = offset := BitVec.add_zero offset
    rw [hadd, if_pos hin, hoverlay] at hsession
    split
    . next hlt =>
      rw [if_pos hlt.2] at hsession
      exact hsession
    . next hlt =>
      rw [if_neg (fun h => hlt ⟨rfl, h⟩)] at hsession
      refine ⟨buf, ?_, rfl, fun k hk => absurd hk (Nat.not_lt_zero k), fun _ _ => rfl⟩
      rw [hsession]
      split
      . rfl
      . rfl
  . rw [if_neg (fun h => hzero h.1)]
    have hpos : count.toNat ≠ 0 := fun h => hzero (BitVec.eq_of_toNat_eq h)
    have hinside : ∀ i, offset.toInt ≤ i → i < offset.toInt + count.toNat → 0 ≤ i ∧ i < file.size.toNat := by
      intro i hge hlt
      rcases Option.isSome_iff_exists.mp (hcovered i hge hlt) with ⟨c, hc⟩
      exact hseq.inside i c hc
    have hne : ws ≠ [] := by
      rintro rfl
      exact absurd (hcovered offset.toInt (by omega) (by omega)) (by simp [written])
    have hfirst := hinside offset.toInt (by omega) (by omega)
    have hlast := hinside (offset.toInt + count.toNat - 1) (by omega) (by omega)
    have hsize := file.size.isLt
    have hoffset := BitVec.toInt_eq_toNat_cond offset
    have hend : ¬ file.size < offset + count := by
      rw [BitVec.lt_def, BitVec.toNat_add]
      split at hoffset
      . omega
      . omega
    have hcaller : buf.Inside 0 count.toNat := by
      unfold Block.Inside
      omega
    have hmem : file.data.mem.Inside offset.toInt count.toNat := by
      unfold Block.Inside
      rw [hseq.valid.size]
      omega
    have hn : (count.setWidth 32).toInt = count.toNat := by
      rw [BitVec.toInt_eq_toNat_cond, BitVec.toNat_setWidth]
      split
      . omega
      . omega
    refine ⟨buf.overlay 0 file.data.mem offset.toInt count.toNat, ?_, rfl, ?_, ?_⟩
    . rw [session_of_inside hne hwrites hend hcaller hmem, hn]
    . intro k hk
      rcases Option.isSome_iff_exists.mp (hcovered (offset.toInt + k) (by omega) (by omega)) with ⟨c, hc⟩
      have hindex : ((offset.toInt + k).toNat : Int) = offset.toInt + k := Int.toNat_of_nonneg (by omega)
      rw [Block.overlay_inside (by omega), Int.sub_zero, hc]
      rw [← hindex] at hc
      rw [hseq.covered _ c hc]
    . intro k hk
      rw [Block.overlay_outside (by omega)]

def overlapping : List Write :=
  [⟨⟨3, fun _ => 97⟩, 0, 3⟩, ⟨⟨1, fun _ => 98⟩, 1, 1⟩]

theorem overlapping_covered (i : Int) (hge : 0 ≤ i) (hlt : i < 3) : (written overlapping i).isSome := by
  have hi : i = 0 ∨ i = 1 ∨ i = 2 := by omega
  rcases hi with rfl | rfl | rfl
  . decide
  . decide
  . decide

theorem read_written_overlapping
    : ∃ buf', session 64 (fun _ _ => 7) overlapping ⟨4, fun _ => 0⟩ 0 3 = some (.ok 3, buf') ∧
        buf'.byte 0 = 97 ∧ buf'.byte 1 = 98 ∧ buf'.byte 2 = 97 ∧ buf'.byte 3 = 0 := by
  have hws : ∀ w ∈ overlapping, 0 ≤ w.offset.toInt ∧ w.offset.toNat + w.count.toNat < 2 ^ 62 ∧
      w.count.toNat ≤ w.buf.size := by
    decide
  rcases read_written 64 (fun _ _ => 7) overlapping ⟨4, fun _ => 0⟩ 0 3 (by decide) hws (by decide) (by decide)
    overlapping_covered with ⟨file, _, hsession⟩
  rw [if_neg fun hzero => absurd hzero.1 (by decide)] at hsession
  rcases hsession with ⟨buf', hsession, _, hbytes, hkept⟩
  refine ⟨buf', hsession, ?_, ?_, ?_, hkept 3 (by decide)⟩
  . exact (Option.some.inj (hbytes 0 (by decide))).symm
  . exact (Option.some.inj (hbytes 1 (by decide))).symm
  . exact (Option.some.inj (hbytes 2 (by decide))).symm

theorem not_read_written
    : (∀ i, (1 : BitVec 64).toInt ≤ i → i < (1 : BitVec 64).toInt + (0 : BitVec 64).toNat → (written [] i).isSome) ∧
        session 64 (fun _ _ => 0) [] ⟨0, fun _ => 0⟩ 1 0 = some (.error .EINVAL, ⟨0, fun _ => 0⟩) := by
  constructor
  . intro i hge hlt
    change (1 : Int) ≤ i at hge
    change i < 1 at hlt
    omega
  . rfl

/--
The bytes that a read returns are the same for every memory that `kalloc` returned if and only if all of them
have been written.
-/
theorem read_fixed_iff (fuel : Nat) (junk : Nat → Nat → UInt8) (ws : List Write) (buf buf' : Block)
    (offset count : BitVec 64) (n : Int) (hread : session fuel junk ws buf offset count = some (.ok n, buf'))
    : (∀ junk', session fuel junk' ws buf offset count = some (.ok n, buf')) ↔
        ws = [] ∨ ∀ i, offset.toInt ≤ i → i < offset.toInt + count.toNat → (written ws i).isSome := by
  by_cases hws : ws = []
  . subst hws
    simp only [true_or, iff_true]
    intro junk'
    exact hread
  . simp only [hws, false_or]
    constructor
    . intro hfixed i hge hlt
      cases hi : written ws i with
      | some c => rfl
      | none =>
        have hindex : offset.toInt + ((i - offset.toInt).toNat : Int) = i := by omega
        rw [← hindex] at hi
        have hzero := junk_of_session 0 hws (hfixed fun _ _ => 0) (by omega) hi
        have hone := junk_of_session 1 hws (hfixed fun _ _ => 1) (by omega) hi
        rw [hzero] at hone
        cases hone
    . intro hcovered junk'
      rcases writes_of_session hread with ⟨file, hwrites⟩
      rcases read_of_session hws hwrites hread with ⟨hend, hcaller, hin, rfl, rfl⟩
      rcases writes_alike junk' (new_valid [] 0) rfl (new_valid [] 0) rfl rfl hwrites with ⟨file', hwrites', hsize⟩
      have hseq := sequence_of_writes (new_valid [] 0) rfl hwrites
      have hseq' := sequence_of_writes (new_valid [] 0) rfl hwrites'
      have hin' : file'.data.mem.Inside offset.toInt count.toNat := by
        unfold Block.Inside at hin ⊢
        rw [hseq'.valid.size, ← hsize, ← hseq.valid.size]
        exact hin
      rw [hsize] at hend
      rw [session_of_inside hws hwrites' hend hcaller hin']
      congr 2
      apply Block.overlay_congr
      intro k hk
      unfold Block.Inside at hin
      have hindex : ((offset.toInt + k).toNat : Int) = offset.toInt + k := Int.toNat_of_nonneg (by omega)
      rcases Option.isSome_iff_exists.mp (hcovered (offset.toInt + k) (by omega) (by omega)) with ⟨c, hc⟩
      rw [← hindex] at hc
      rw [hseq.covered _ c hc, hseq'.covered _ c hc]

theorem read_fixed_overlapping
    : ∃ buf', ∀ junk, session 64 junk overlapping ⟨4, fun _ => 0⟩ 0 3 = some (.ok 3, buf') :=
  ⟨_, (read_fixed_iff 64 (fun _ _ => 7) overlapping ⟨4, fun _ => 0⟩ _ 0 3 3 rfl).mpr (Or.inr overlapping_covered)⟩

theorem not_read_fixed
    : ∃ buf₀ buf₁, session 64 (fun _ _ => 0) [⟨⟨1, fun _ => 97⟩, 10, 1⟩] ⟨11, fun _ => 2⟩ 0 11 = some (.ok 11, buf₀) ∧
        session 64 (fun _ _ => 1) [⟨⟨1, fun _ => 97⟩, 10, 1⟩] ⟨11, fun _ => 2⟩ 0 11 = some (.ok 11, buf₁) ∧
        buf₀.byte 0 = 0 ∧ buf₁.byte 0 = 1 :=
  ⟨_, _, rfl, rfl, by decide, by decide⟩

end Session

end File

end Fs
end Franklin
