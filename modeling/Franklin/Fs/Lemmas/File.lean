import Franklin.Fs.Lemmas.Grow

/-!
This module contains what one read or write does to a file, and which bytes it accesses.
-/

namespace Franklin
namespace Fs

namespace File

structure Valid (file : File) : Prop where
  wild : file.data ≠ .wild
  size : file.data.mem.size = file.size.toNat

def enlarged (file : File) (junk : Nat → UInt8) (newsize : BitVec 64) : File :=
  { file with
    data := .block (Block.overlay ⟨newsize.toNat, junk⟩ 0 file.data.mem 0 file.size.toNat)
    size := newsize }

def stored (file : File) (buf : Block) (offset count : BitVec 64) : File :=
  { file with data := file.data.store (file.data.mem.overlay offset.toInt buf 0 count.toNat) }

section Spec

variable {file : File} {fuel : Nat} {junk : Nat → UInt8} {buf : Block} {offset count stop newsize : BitVec 64}

theorem read_eq : read file = .ok file file := by
  rfl

theorem memcpy_eq (dest : Block) (i : Int) (src : Block) (j : Int) (n : Nat)
    : memcpy dest i src j n file =
        if dest.Inside i n ∧ src.Inside j n then .ok (dest.overlay i src j n) file else .error .fault file := by
  unfold memcpy
  by_cases hin : dest.Inside i n ∧ src.Inside j n
  . rw [Block.copy_eq hin.1 hin.2, if_pos hin]
    rfl
  . rw [Block.copy_none hin, if_neg hin]
    rfl

theorem kfree_eq {data : Data} (h : data ≠ .wild) : kfree data file = .ok () file := by
  cases data with
  | wild => exact absurd rfl h
  | _ => rfl

theorem store_mem (data : Data) (b : Block) (hsize : b.size = data.mem.size) (hb : data.mem.size ≠ 0)
    : (data.store b).mem = b := by
  cases data with
  | block b' => rfl
  | null => exact absurd rfl hb
  | wild => exact absurd rfl hb

theorem enlarge_eq (hvalid : file.Valid) (hle : file.size ≤ stop)
    : ramfs_write.enlarge fuel junk stop file =
        match ramfs_write.grow fuel stop (file.size + 1) with
        | none => .error .fuel file
        | some newsize => .ok () (file.enlarged junk newsize) := by
  unfold ramfs_write.enlarge
  rw [bind_of_ok read_eq]
  cases hgrow : ramfs_write.grow fuel stop (file.size + 1) with
  | none => rfl
  | some newsize =>
    have hlt := ramfs_write.lt_of_grow hgrow
    have hcopy := @memcpy_eq file ⟨newsize.toNat, junk⟩ 0 file.data.mem 0 file.size.toNat
    rw [if_pos] at hcopy
    . dsimp only
      rw [bind_of_ok hcopy]
      rw [bind_of_ok (kfree_eq hvalid.wild)]
      rfl
    . unfold Block.Inside
      rw [hvalid.size]
      rw [BitVec.le_def] at hle
      rw [BitVec.lt_def] at hlt
      dsimp only
      omega

theorem enlarged_valid : (file.enlarged junk newsize).Valid := by
  refine ⟨?_, rfl⟩
  unfold enlarged
  simp

theorem ramfs_write_eq (hvalid : file.Valid) (hlock : file.ramlock = false)
    : ramfs_write fuel junk buf offset count file =
        let locked : File := { file with ramlock := true }
        let write (node : File) : EStateM.Result Stop File Ret :=
          if node.data.mem.Inside offset.toInt count.toNat ∧ buf.Inside 0 count.toNat then
            .ok (.ok 0) { node.stored buf offset count with ramlock := false }
          else
            .error .fault node
        if file.size ≤ offset + count then
          match ramfs_write.grow fuel (offset + count) (file.size + 1) with
          | none => .error .fuel locked
          | some newsize => write (locked.enlarged junk newsize)
        else
          write locked := by
  have hacquire : acquireNode file = .ok () { file with ramlock := true } := by
    unfold acquireNode
    rw [bind_of_ok read_eq, hlock]
    rfl
  have hwrite : ∀ node : File, (do
      let node ← read
      let data ← memcpy node.data.mem offset.toInt buf 0 count.toNat
      update fun node => { node with data := node.data.store data }
      releaseNode
      pure (.ok 0) : FileProg Ret) node =
        if node.data.mem.Inside offset.toInt count.toNat ∧ buf.Inside 0 count.toNat then
          .ok (.ok 0) { node.stored buf offset count with ramlock := false }
        else
          .error .fault node := by
    intro node
    rw [bind_of_ok read_eq]
    have hcopy := @memcpy_eq node node.data.mem offset.toInt buf 0 count.toNat
    split at hcopy
    . next hin =>
      rw [bind_of_ok hcopy, if_pos hin]
      rfl
    . next hout => rw [bind_of_error hcopy, if_neg hout]
  unfold ramfs_write
  rw [bind_of_ok hacquire, bind_of_ok read_eq]
  dsimp only
  split
  . next hle =>
    have henlarge := @enlarge_eq { file with ramlock := true } fuel junk (offset + count)
      ⟨hvalid.wild, hvalid.size⟩ hle
    dsimp only at henlarge
    cases hgrow : ramfs_write.grow fuel (offset + count) (file.size + 1) with
    | none =>
      rw [hgrow] at henlarge
      rw [bind_of_error henlarge]
    | some newsize =>
      rw [hgrow] at henlarge
      rw [bind_of_ok henlarge, hwrite]
  . next hgt =>
    apply hwrite

theorem ramfs_read_eq (hlock : file.ramlock = false)
    : ramfs_read buf offset count file =
        if file.size < offset + count then
          .ok (.error .EINVAL, buf) file
        else if file.data matches .null then
          .ok (.ok 0, buf) file
        else if buf.Inside 0 count.toNat ∧ file.data.mem.Inside offset.toInt count.toNat then
          .ok (.ok (count.setWidth 32).toInt, buf.overlay 0 file.data.mem offset.toInt count.toNat) file
        else
          .error .fault { file with ramlock := true } := by
  rcases file with ⟨type, lock, ramlock, data, size⟩
  dsimp only at hlock
  subst hlock
  have hacquire : acquireNode ⟨type, lock, false, data, size⟩ = .ok () ⟨type, lock, true, data, size⟩ := by
    rfl
  have hback : releaseNode ⟨type, lock, true, data, size⟩ = .ok () ⟨type, lock, false, data, size⟩ := by
    rfl
  have hread : (do
      let buf ← memcpy buf 0 data.mem offset.toInt count.toNat
      releaseNode
      pure (.ok (count.setWidth 32).toInt, buf) : FileProg (Ret × Block)) ⟨type, lock, true, data, size⟩ =
        if buf.Inside 0 count.toNat ∧ data.mem.Inside offset.toInt count.toNat then
          .ok (.ok (count.setWidth 32).toInt, buf.overlay 0 data.mem offset.toInt count.toNat)
            ⟨type, lock, false, data, size⟩
        else
          .error .fault ⟨type, lock, true, data, size⟩ := by
    have hcopy := @memcpy_eq ⟨type, lock, true, data, size⟩ buf 0 data.mem offset.toInt count.toNat
    split at hcopy
    . next hin =>
      rw [bind_of_ok hcopy, bind_of_ok hback, if_pos hin]
      rfl
    . next hout => rw [bind_of_error hcopy, if_neg hout]
  unfold ramfs_read
  rw [bind_of_ok hacquire, bind_of_ok read_eq]
  dsimp only
  split
  . rw [bind_of_ok hback]
    rfl
  . cases data with
    | null =>
      dsimp only
      rw [bind_of_ok hback]
      rfl
    | wild =>
      rw [if_neg (by simp)]
      apply hread
    | block b =>
      rw [if_neg (by simp)]
      apply hread

theorem new_valid (link : List UInt8) (size : BitVec 64) : (new .VREG link size).Valid :=
  ⟨by simp [new], rfl⟩

theorem stored_valid (hvalid : file.Valid) : (file.stored buf offset count).Valid := by
  rcases hvalid with ⟨hwild, hsize⟩
  unfold stored
  constructor
  . cases hdata : file.data with
    | wild => exact absurd hdata hwild
    | _ => simp [Data.store]
  . cases hdata : file.data with
    | wild => exact absurd hdata hwild
    | null =>
      rw [hdata] at hsize
      exact hsize
    | block b =>
      rw [hdata] at hsize
      exact hsize

theorem ramfs_write_ok
    : wp (ramfs_write fuel junk buf offset count) (fun r _ => r = .ok 0) (fun _ _ => True) file := by
  unfold ramfs_write
  apply wp_bind_of wp_trivial
  intro _ s1 _
  apply wp_bind_of wp_trivial
  intro node s2 _
  split
  . apply wp_bind_of wp_trivial
    intro _ s3 _
    apply wp_bind_of wp_trivial
    intro _ s4 _
    apply wp_bind_of wp_trivial
    intro _ s5 _
    apply wp_bind_of wp_trivial
    intro _ s6 _
    apply wp_bind_of wp_trivial
    intro _ s7 _
    rfl
  . apply wp_bind_of wp_trivial
    intro _ s4 _
    apply wp_bind_of wp_trivial
    intro _ s5 _
    apply wp_bind_of wp_trivial
    intro _ s6 _
    apply wp_bind_of wp_trivial
    intro _ s7 _
    rfl

theorem locked_eq {α : Type} (op : FileProg α) (dir : α) (file : File)
    : (do
        File.acquire
        let vn ← File.read
        if vn.type = .VDIR then
          File.release
          pure dir
        else
          let r ← op
          File.release
          pure r : FileProg α) file =
        if file.lock then
          .error .hang file
        else if file.type = .VDIR then
          .ok dir file
        else
          match op { file with lock := true } with
          | .ok r file => .ok r { file with lock := false }
          | .error e file => .error e file := by
  rcases file with ⟨type, lock, ramlock, data, size⟩
  cases lock with
  | true => rfl
  | false =>
    have hacquire : acquire ⟨type, false, ramlock, data, size⟩ = .ok () ⟨type, true, ramlock, data, size⟩ := by
      rfl
    simp only [Bool.false_eq_true, if_false]
    rw [bind_of_ok hacquire, bind_of_ok read_eq]
    dsimp only
    split
    . rfl
    . cases hop : op ⟨type, true, ramlock, data, size⟩ with
      | ok r file =>
        rw [bind_of_ok hop]
        rfl
      | error e file => rw [bind_of_error hop]

theorem vfs_write_eq
    : vfs_write fuel junk buf offset count file =
        if file.lock then
          .error .hang file
        else if file.type = .VDIR then
          .ok (.error .EISDIR) file
        else
          match ramfs_write fuel junk buf offset count { file with lock := true } with
          | .ok r file => .ok r { file with lock := false }
          | .error e file => .error e file := by
  unfold vfs_write
  rw [locked_eq]
  cases ramfs_write fuel junk buf offset count { file with lock := true } with
  | ok r file' => rfl
  | error e file' => rfl

theorem vfs_read_eq
    : vfs_read buf offset count file =
        if file.lock then
          .error .hang file
        else if file.type = .VDIR then
          .ok (.error .EISDIR, buf) file
        else
          match ramfs_read buf offset count { file with lock := true } with
          | .ok r file => .ok r { file with lock := false }
          | .error e file => .error e file := by
  unfold vfs_read
  rw [locked_eq]
  cases ramfs_read buf offset count { file with lock := true } with
  | ok r file' => rfl
  | error e file' => rfl

theorem range_inside_iff {b : Block} (hend : (offset + count).toNat ≤ b.size) (hsize : b.size < 2 ^ 64)
    : b.Inside offset.toInt count.toNat ↔
        count = 0 ∨ 0 ≤ offset.toInt ∧ offset.toNat + count.toNat < 2 ^ 64 := by
  have hcount : count = 0 ↔ count.toNat = 0 := by
    constructor
    . rintro rfl
      rfl
    . intro h
      exact BitVec.eq_of_toNat_eq h
  have hoffset := BitVec.toInt_eq_toNat_cond offset
  have hlt := offset.isLt
  rw [BitVec.toNat_add] at hend
  unfold Block.Inside
  rw [hcount]
  split at hoffset
  . rw [hoffset]
    omega
  . rw [hoffset]
    omega

end Spec

section Access

variable {file : File} {junk : Nat → UInt8} {buf : Block} {offset count : BitVec 64}

/--
The range from `offset` on does not begin in front of the file or end behind 2^64.
-/
def InRange (offset count : BitVec 64) : Prop :=
  count = 0 ∨ 0 ≤ offset.toInt ∧ offset.toNat + count.toNat < 2 ^ 64

/--
The loop for the new size ends if it is run.
-/
def Ends (file : File) (offset count : BitVec 64) : Prop :=
  file.size ≤ offset + count → ∃ k < 64, offset + count < (file.size + 1) <<< k

theorem ramfs_write_fault_iff (hvalid : file.Valid) (hlock : file.ramlock = false) (hbuf : buf.Inside 0 count.toNat)
    : (∃ fuel file', ramfs_write fuel junk buf offset count file = .error .fault file') ↔
        ¬ InRange offset count ∧ Ends file offset count := by
  unfold InRange Ends
  by_cases hle : file.size ≤ offset + count
  . have hgrown : ∀ newsize : BitVec 64, offset + count < newsize →
        (({ file with ramlock := true }.enlarged junk newsize).data.mem.Inside offset.toInt count.toNat ↔
          count = 0 ∨ 0 ≤ offset.toInt ∧ offset.toNat + count.toNat < 2 ^ 64) := by
      intro newsize hlt
      rw [BitVec.lt_def] at hlt
      apply range_inside_iff
      . apply Nat.le_of_lt hlt
      . exact newsize.isLt
    constructor
    . rintro ⟨fuel, file', hfault⟩
      rw [ramfs_write_eq hvalid hlock] at hfault
      dsimp only at hfault
      rw [if_pos hle] at hfault
      cases hgrow : ramfs_write.grow fuel (offset + count) (file.size + 1) with
      | none =>
        rw [hgrow] at hfault
        cases hfault
      | some newsize =>
        have hlt := ramfs_write.lt_of_grow hgrow
        rw [hgrow] at hfault
        dsimp only at hfault
        constructor
        . intro hin
          rw [if_pos ⟨(hgrown newsize hlt).mpr hin, hbuf⟩] at hfault
          cases hfault
        . intro _
          rcases ramfs_write.grow_isSome_iff.mp (Option.isSome_of_eq_some hgrow) with ⟨k, _, hk⟩
          exact ⟨k, ramfs_write.shift_lt hk, hk⟩
    . rintro ⟨hout, hends⟩
      rcases Option.isSome_iff_exists.mp (ramfs_write.grow_isSome_iff.mpr (hends hle)) with ⟨newsize, hgrow⟩
      refine ⟨64, { file with ramlock := true }.enlarged junk newsize, ?_⟩
      rw [ramfs_write_eq hvalid hlock]
      dsimp only
      rw [if_pos hle, hgrow]
      dsimp only
      apply if_neg
      rintro ⟨hin, _⟩
      exact hout ((hgrown newsize (ramfs_write.lt_of_grow hgrow)).mp hin)
  . have hin : file.data.mem.Inside offset.toInt count.toNat ↔
        count = 0 ∨ 0 ≤ offset.toInt ∧ offset.toNat + count.toNat < 2 ^ 64 := by
      rw [BitVec.not_le, BitVec.lt_def] at hle
      apply range_inside_iff
      . rw [hvalid.size]
        apply Nat.le_of_lt hle
      . rw [hvalid.size]
        exact file.size.isLt
    rw [← hin]
    constructor
    . rintro ⟨fuel, file', hfault⟩
      rw [ramfs_write_eq hvalid hlock] at hfault
      dsimp only at hfault
      rw [if_neg hle] at hfault
      refine ⟨?_, fun h => absurd h hle⟩
      intro hin
      rw [if_pos ⟨hin, hbuf⟩] at hfault
      cases hfault
    . rintro ⟨hout, _⟩
      refine ⟨0, { file with ramlock := true }, ?_⟩
      rw [ramfs_write_eq hvalid hlock]
      dsimp only
      rw [if_neg hle, if_neg (fun h => hout h.1)]

theorem ramfs_read_fault_iff (hvalid : file.Valid) (hlock : file.ramlock = false) (hbuf : buf.Inside 0 count.toNat)
    : (∃ file', ramfs_read buf offset count file = .error .fault file') ↔
        ¬ InRange offset count ∧ ¬ file.size < offset + count ∧ file.data ≠ .null := by
  unfold InRange
  rw [ramfs_read_eq hlock]
  by_cases hlt : file.size < offset + count
  . simp [hlt]
  . rw [if_neg hlt]
    have hin : file.data.mem.Inside offset.toInt count.toNat ↔
        count = 0 ∨ 0 ≤ offset.toInt ∧ offset.toNat + count.toNat < 2 ^ 64 := by
      rw [BitVec.not_lt, BitVec.le_def] at hlt
      apply range_inside_iff
      . rw [hvalid.size]
        exact hlt
      . rw [hvalid.size]
        exact file.size.isLt
    rw [← hin]
    by_cases hnull : file.data = .null
    . simp [hnull]
    . have hdata : ¬ (file.data matches .null) := by
        cases hdata : file.data with
        | null => exact absurd hdata hnull
        | _ => simp
      rw [if_neg hdata]
      by_cases hinside : file.data.mem.Inside offset.toInt count.toNat
      . simp [hinside, hbuf]
      . simp [hinside, hlt, hnull]

theorem ramfs_write_hang {fuel : Nat} (hlock : file.ramlock = true)
    : ramfs_write fuel junk buf offset count file = .error .hang file := by
  unfold ramfs_write acquireNode
  rw [bind_of_error]
  rw [bind_of_ok read_eq, hlock]
  rfl

theorem ramfs_read_hang (hlock : file.ramlock = true)
    : ramfs_read buf offset count file = .error .hang file := by
  unfold ramfs_read acquireNode
  rw [bind_of_error]
  rw [bind_of_ok read_eq, hlock]
  rfl

/--
A lock of the file is held, so that a call waits.
-/
def Locked (file : File) : Prop :=
  file.lock ∨ file.ramlock

theorem vfs_write_fault_iff {fuel : Nat} (htype : file.type ≠ .VDIR)
    : (∃ file', vfs_write fuel junk buf offset count file = .error .fault file') ↔
        ¬ file.Locked ∧
          ∃ file', ramfs_write fuel junk buf offset count { file with lock := true } = .error .fault file' := by
  unfold Locked
  rw [vfs_write_eq]
  cases hlock : file.lock with
  | true => simp
  | false =>
    simp only [Bool.false_eq_true, if_false, htype, false_or]
    cases hramlock : file.ramlock with
    | true =>
      rw [ramfs_write_hang (by rw [← hramlock])]
      simp
    | false =>
      cases ramfs_write fuel junk buf offset count _ with
      | ok r file' => simp
      | error e file' => simp

theorem vfs_read_fault_iff (htype : file.type ≠ .VDIR)
    : (∃ file', vfs_read buf offset count file = .error .fault file') ↔
        ¬ file.Locked ∧ ∃ file', ramfs_read buf offset count { file with lock := true } = .error .fault file' := by
  unfold Locked
  rw [vfs_read_eq]
  cases hlock : file.lock with
  | true => simp
  | false =>
    simp only [Bool.false_eq_true, if_false, htype, false_or]
    cases hramlock : file.ramlock with
    | true =>
      rw [ramfs_read_hang (by rw [← hramlock])]
      simp
    | false =>
      cases ramfs_read buf offset count _ with
      | ok r file' => simp
      | error e file' => simp

/--
`vfs_write` of a regular file accesses nothing outside of its buffer if and only if the range does not wrap
around, or the loop for the new size does not end. For `vfs_read` it is enough that the range is refused, or
that there is no buffer yet.
-/
theorem accesses_inside_iff (file : File) (junk : Nat → UInt8) (buf : Block) (offset count : BitVec 64)
    (hvalid : file.Valid) (htype : file.type = .VREG) (hbuf : count.toNat ≤ buf.size)
    : ((∀ fuel file', vfs_write fuel junk buf offset count file ≠ .error .fault file') ↔
          file.Locked ∨ InRange offset count ∨ ¬ Ends file offset count) ∧
        ((∀ file', vfs_read buf offset count file ≠ .error .fault file') ↔
          file.Locked ∨ InRange offset count ∨ file.size < offset + count ∨ file.data = .null) := by
  have hdir : file.type ≠ .VDIR := by
    rw [htype]
    decide
  have hcaller : buf.Inside 0 count.toNat := by
    unfold Block.Inside
    omega
  have hlocked : { file with lock := true }.Valid := ⟨hvalid.wild, hvalid.size⟩
  have hfree : ¬ file.Locked → file.ramlock = false := by
    unfold Locked
    simp
  constructor
  . rw [← not_iff_not]
    simp only [not_forall, ne_eq, not_or, not_not, vfs_write_fault_iff hdir, exists_and_left]
    apply and_congr_right
    intro hlock
    exact ramfs_write_fault_iff hlocked (hfree hlock) hcaller
  . rw [← not_iff_not]
    simp only [not_forall, ne_eq, not_or, not_not, vfs_read_fault_iff hdir]
    apply and_congr_right
    intro hlock
    exact ramfs_read_fault_iff hlocked (hfree hlock) hcaller

theorem accesses_inside_new
    : ((∀ fuel file', vfs_write fuel (fun _ => 0) ⟨1, fun _ => 97⟩ 0 1 (new .VREG [] 0) ≠ .error .fault file') ↔
          (new .VREG [] 0).Locked ∨ InRange 0 1 ∨ ¬ Ends (new .VREG [] 0) 0 1) ∧
        ((∀ file', vfs_read ⟨1, fun _ => 97⟩ 0 1 (new .VREG [] 0) ≠ .error .fault file') ↔
          (new .VREG [] 0).Locked ∨ InRange 0 1 ∨ (0 : BitVec 64) < 0 + 1 ∨ (new .VREG [] 0).data = .null) :=
  accesses_inside_iff (new .VREG [] 0) (fun _ => 0) ⟨1, fun _ => 97⟩ 0 1 (new_valid [] 0) rfl (by decide)

theorem not_accesses_inside
    : ¬ ∀ fuel file', vfs_write fuel (fun _ => 0) ⟨1, fun _ => 97⟩ (-1) 1 (new .VREG [] 0) ≠ .error .fault file' := by
  have hfault : ∃ fuel file',
      vfs_write fuel (fun _ => 0) ⟨1, fun _ => 97⟩ (-1) 1 (new .VREG [] 0) = .error .fault file' := by
    have hramfs := (@ramfs_write_fault_iff { new .VREG [] 0 with lock := true } (fun _ => 0) ⟨1, fun _ => 97⟩ (-1) 1
      ⟨(new_valid [] 0).wild, (new_valid [] 0).size⟩ rfl (Or.inr (by decide))).mpr
        ⟨by unfold InRange; decide, fun _ => ⟨0, by decide, by decide⟩⟩
    rcases hramfs with ⟨fuel, file', hramfs⟩
    exact ⟨fuel, (vfs_write_fault_iff (by decide)).mpr ⟨by unfold Locked; decide, file', hramfs⟩⟩
  rcases hfault with ⟨fuel, file', hfault⟩
  intro h
  exact h fuel file' hfault

end Access

section Refuse

variable {file : File} {fuel : Nat} {junk : Nat → UInt8} {buf : Block} {offset count : BitVec 64}

theorem ramfs_write_ne_error {e : Errno} {file' : File}
    : ramfs_write fuel junk buf offset count file ≠ .ok (.error e) file' := by
  intro hrefuse
  have hwrite := @ramfs_write_ok file fuel junk buf offset count
  unfold wp at hwrite
  rw [hrefuse] at hwrite
  cases hwrite

theorem ramfs_read_eq_error {e : Errno} {buf' : Block} {file' : File}
    (hread : ramfs_read buf offset count file = .ok (.error e, buf') file')
    : file.ramlock = false ∧ file.size < offset + count := by
  cases hlock : file.ramlock with
  | true =>
    rw [ramfs_read_hang hlock] at hread
    cases hread
  | false =>
    rw [ramfs_read_eq hlock] at hread
    refine ⟨rfl, ?_⟩
    by_contra hlt
    rw [if_neg hlt] at hread
    by_cases hin : buf.Inside 0 count.toNat ∧ file.data.mem.Inside offset.toInt count.toNat
    . rw [if_pos hin] at hread
      split at hread <;> cases hread
    . rw [if_neg hin] at hread
      split at hread <;> cases hread

theorem vfs_write_refuses_iff
    : (∃ e, vfs_write fuel junk buf offset count file = .ok (.error e) file) ↔
        file.lock = false ∧ file.type = .VDIR := by
  rw [vfs_write_eq]
  split
  . next hlock => simp [hlock]
  . next hlock =>
    rw [Bool.not_eq_true] at hlock
    split
    . next htype => simp [hlock, htype]
    . next htype =>
      simp only [htype, and_false, iff_false]
      rintro ⟨e, hrefuse⟩
      cases hwrite : ramfs_write fuel junk buf offset count { file with lock := true } with
      | ok r file' =>
        rw [hwrite] at hrefuse
        cases r with
        | ok _ => cases hrefuse
        | error _ => exact absurd hwrite ramfs_write_ne_error
      | error _ _ =>
        rw [hwrite] at hrefuse
        cases hrefuse

theorem vfs_read_refuses_iff
    : (∃ e, vfs_read buf offset count file = .ok (.error e, buf) file) ↔
        file.lock = false ∧ (file.type = .VDIR ∨ file.ramlock = false ∧ file.size < offset + count) := by
  rw [vfs_read_eq]
  split
  . next hlock => simp [hlock]
  . next hlock =>
    rw [Bool.not_eq_true] at hlock
    split
    . next htype => simp [hlock, htype]
    . next htype =>
      simp only [hlock, htype, true_and, false_or]
      constructor
      . rintro ⟨e, hrefuse⟩
        cases hread : ramfs_read buf offset count { file with lock := true } with
        | ok r file' =>
          rcases r with ⟨r, buf'⟩
          rw [hread] at hrefuse
          cases r with
          | ok _ => cases hrefuse
          | error _ =>
            have hrefused := ramfs_read_eq_error hread
            exact hrefused
        | error _ _ =>
          rw [hread] at hrefuse
          cases hrefuse
      . rintro ⟨hramlock, hlt⟩
        refine ⟨.EINVAL, ?_⟩
        rw [ramfs_read_eq (by rw [← hramlock]), if_pos hlt]
        rcases file with ⟨type, lock, ramlock, data, size⟩
        dsimp only at hlock
        subst hlock
        rfl

/--
`vfs_write` only refuses directories, whatever the arm of the union is. `vfs_read` also refuses what ends behind
the second word of the union.
-/
theorem refuses_iff (file : File) (fuel : Nat) (junk : Nat → UInt8) (buf : Block) (offset count : BitVec 64)
    : ((∃ e, vfs_write fuel junk buf offset count file = .ok (.error e) file) ↔
          file.lock = false ∧ file.type = .VDIR) ∧
        ((∃ e, vfs_read buf offset count file = .ok (.error e, buf) file) ↔
          file.lock = false ∧ (file.type = .VDIR ∨ file.ramlock = false ∧ file.size < offset + count)) :=
  ⟨vfs_write_refuses_iff, vfs_read_refuses_iff⟩

theorem not_refuses
    : (new .VLNK [47, 97] 0).type ≠ .VREG ∧
        ∃ file', vfs_write 64 (fun _ => 0) ⟨2, fun i => if i = 0 then 98 else 0⟩ 0 2 (new .VLNK [47, 97] 0) =
            .ok (.ok 0) file' ∧
          (new .VLNK [47, 97] 0).data.string = [47, 97] ∧ file'.data.string = [98] := by
  refine ⟨by decide, _, rfl, by decide, by decide⟩

end Refuse

end File

end Fs
end Franklin
