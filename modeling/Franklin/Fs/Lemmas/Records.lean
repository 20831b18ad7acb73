import Mathlib.Data.List.TakeWhile
import Franklin.Fs.Lemmas.Listing
import Franklin.Fs.Lemmas.Mounts

/-!
This module contains which records a listing has, and whether they fit into the buffer.
-/

namespace Franklin
namespace Fs

namespace ramfs_readdir

def dotRecords (pos : Nat) (s : St) (n offset : Nat) : List Dirent :=
  (if offset = SEQ_DOT then
    [{ ino := n, reclen := get_reclen pos ['.'], type := s.junk.dtype, name := ['.'] }]
  else
    []) ++
  if offset = SEQ_DOT ∨ offset = SEQ_DOTDOT then
    [{ ino := (s.nodes n).parent, reclen := get_reclen pos ['.', '.'], type := s.junk.dtype, name := ['.', '.'] }]
  else
    []

def entriesFrom (dentry : List RamDentry) (offset : Nat) : List RamDentry :=
  if offset = SEQ_DOT ∨ offset = SEQ_DOTDOT then dentry else dentry.dropWhile (·.seq ≠ offset)

/--
The records of the entries in front of the first one that has none.
-/
def records (pos : Nat) (type : Nat → VType) : List RamDentry → List Dirent
  | [] => []
  | de :: entries =>
    match record pos type de with
    | .error _ => []
    | .ok d => d :: records pos type entries

def size (ds : List Dirent) : Nat :=
  (ds.map (·.reclen)).sum

section Scan

variable {pos : Nat} {s : St} {type : Nat → VType} {wild : Bool} {entries : List RamDentry} {r : Listing}
  {nbytes : BitVec 64} {n offset : Nat}

theorem dotted_eq (hr : r.records = [])
    : (dotted pos s n r).records = dotRecords pos s n r.offset ∧
        (dotted pos s n r).offset =
          if r.offset = SEQ_DOT ∨ r.offset = SEQ_DOTDOT then
            (s.nodes n).dentry.head?.elim SEQ_EOF (·.seq)
          else
            r.offset := by
  unfold dotted dotRecords
  by_cases hdot : r.offset = SEQ_DOT
  . simp [hdot, hr, Listing.write]
  . by_cases hdotdot : r.offset = SEQ_DOTDOT
    . simp [hdotdot, hr, Listing.write, SEQ_DOTDOT, SEQ_DOT]
    . simp [hdot, hdotdot, hr]

theorem output_eq_scan (hseq : ∀ de ∈ (s.nodes n).dentry, SEQ_START ≤ de.seq) (hr : r.records = [])
    : (output pos s n r).listing =
          (scan pos (fun m => (s.nodes m).type) (s.nodes n).wild (entriesFrom (s.nodes n).dentry r.offset)
            (dotted pos s n r)).listing ∧
        ((r.offset = SEQ_EOF → (s.nodes n).wild = false) → (output pos s n r).stop =
          (scan pos (fun m => (s.nodes m).type) (s.nodes n).wild (entriesFrom (s.nodes n).dentry r.offset)
            (dotted pos s n r)).stop) := by
  have hoffset := (@dotted_eq pos s r n hr).2
  unfold output entriesFrom
  dsimp only
  by_cases hdots : r.offset = SEQ_DOT ∨ r.offset = SEQ_DOTDOT
  . rw [if_pos hdots] at hoffset ⊢
    cases hdentry : (s.nodes n).dentry with
    | nil =>
      rw [hdentry] at hoffset
      simp only [hdots, hoffset, List.head?_nil, Option.elim_none, true_and, if_true]
      cases hwild : (s.nodes n).wild with
      | true => simp [scan]
      | false => simp [scan]
    | cons de l =>
      have hde := hseq de (by rw [hdentry]; apply List.mem_cons_self)
      rw [hdentry] at hoffset
      have heof : (dotted pos s n r).offset ≠ SEQ_EOF := by
        rw [hoffset]
        change de.seq ≠ SEQ_EOF
        unfold SEQ_START at hde
        unfold SEQ_EOF
        omega
      rw [if_neg (by simp), if_neg heof, hoffset]
      simp
  . rw [if_neg hdots] at hoffset ⊢
    rw [if_neg (fun h => hdots h.1), hoffset]
    split
    . next heof =>
      have hnil : (s.nodes n).dentry.dropWhile (·.seq ≠ r.offset) = [] := by
        rw [List.dropWhile_eq_nil_iff]
        intro de hde
        have hle := hseq de hde
        unfold SEQ_START at hle
        unfold SEQ_EOF at heof
        simp only [ne_eq, decide_not, Bool.not_eq_eq_eq_not, Bool.not_true, decide_eq_false_iff_not]
        omega
      rw [hnil]
      unfold scan
      refine ⟨rfl, ?_⟩
      intro hwild
      rw [hwild heof]
      rfl
    . exact ⟨rfl, fun _ => rfl⟩

theorem size_cons (d : Dirent) (ds : List Dirent) : size (d :: ds) = d.reclen + size ds := by
  unfold size
  rw [List.map_cons, List.sum_cons]

theorem size_append (ds ds' : List Dirent) : size (ds ++ ds') = size ds + size ds' := by
  unfold size
  rw [List.map_append, List.sum_append]

theorem total_eq (r : Listing) : r.total = size r.records := by
  rfl

def Spans (nbytes : BitVec 64) (r : Listing) : Prop :=
  r.resid = nbytes - BitVec.ofNat 64 r.total

theorem Spans.write (h : Spans nbytes r) (d : Dirent) (offset : Nat) : Spans nbytes (r.write d offset) := by
  unfold Spans at h ⊢
  rw [Listing.total_write]
  unfold Listing.write
  dsimp only
  rw [h, BitVec.ofNat_add]
  bv_omega

theorem Spans.resid_eq_zero (h : Spans nbytes r) (hle : r.total ≤ nbytes.toNat)
    : r.resid = 0 ↔ r.total = nbytes.toNat := by
  unfold Spans at h
  have hlt := nbytes.isLt
  rw [h]
  constructor
  . intro hzero
    have hnat := congrArg BitVec.toNat hzero
    rw [BitVec.toNat_sub, BitVec.toNat_ofNat] at hnat
    change _ = 0 at hnat
    omega
  . intro heq
    rw [heq, BitVec.ofNat_toNat, BitVec.setWidth_eq, BitVec.sub_self]
    rfl

theorem spans_dotted : Spans nbytes (dotted pos s n ⟨nbytes, offset, []⟩) := by
  have hstart : Spans nbytes ⟨nbytes, offset, []⟩ := by
    unfold Spans Listing.total
    simp
  unfold dotted
  dsimp only
  split
  . split
    . exact (hstart.write _ _).write _ _
    . exact hstart.write _ _
  . split
    . exact hstart.write _ _
    . exact hstart

theorem spans_scan (h : Spans nbytes r) : Spans nbytes (scan pos type wild entries r).listing := by
  induction entries generalizing r with
  | nil => exact h
  | cons de entries ih =>
    unfold scan
    split
    . exact h
    . next d _ =>
      dsimp only
      split
      . exact h.write d de.seq
      . apply ih (h.write d de.seq)

theorem scan_records
    : ∃ k, (scan pos type wild entries r).listing.records = r.records ++ (records pos type entries).take k ∧
        (records pos type entries ≠ [] → 0 < k) := by
  induction entries generalizing r with
  | nil => exact ⟨0, by simp [scan], by simp [records]⟩
  | cons de entries ih =>
    unfold scan records
    cases hrecord : record pos type de with
    | error e => exact ⟨0, by simp, by simp⟩
    | ok d =>
      dsimp only
      split
      . exact ⟨1, by simp [Listing.write], by simp⟩
      . rcases @ih (r.write d de.seq) with ⟨k, hk, _⟩
        exact ⟨k + 1, by rw [hk]; simp [Listing.write], by simp⟩

theorem scan_total_le_iff (h : Spans nbytes r)
    : (scan pos type wild entries r).listing.total ≤ nbytes.toNat ↔
        r.total + size (records pos type entries) ≤ nbytes.toNat ∨
          ∃ k > 0, r.total + size ((records pos type entries).take k) = nbytes.toNat := by
  induction entries generalizing r with
  | nil =>
    unfold scan records
    constructor
    . intro hle
      exact Or.inl hle
    . rintro (hle | ⟨k, _, heq⟩)
      . exact hle
      . rw [List.take_nil] at heq
        exact Nat.le_of_eq heq
  | cons de entries ih =>
    unfold scan records
    cases hrecord : record pos type de with
    | error e =>
      dsimp only
      constructor
      . intro hle
        exact Or.inl hle
      . rintro (hle | ⟨k, _, heq⟩)
        . exact hle
        . rw [List.take_nil] at heq
          exact Nat.le_of_eq heq
    | ok d =>
      have hspans := h.write d de.seq
      have htotal := Listing.total_write r d de.seq
      dsimp only
      rw [size_cons]
      by_cases hresid : (r.write d de.seq).resid = 0
      . rw [if_pos hresid]
        dsimp only
        constructor
        . intro hle
          right
          refine ⟨1, Nat.one_pos, ?_⟩
          rw [List.take_succ_cons, size_cons, List.take_zero]
          have heq := (hspans.resid_eq_zero hle).mp hresid
          rw [htotal] at heq
          exact heq
        . rintro (hle | ⟨k, hk, heq⟩)
          . omega
          . cases k with
            | zero => omega
            | succ k =>
              rw [List.take_succ_cons, size_cons] at heq
              omega
      . rw [if_neg hresid, ih hspans, htotal]
        constructor
        . rintro (hle | ⟨k, hk, heq⟩)
          . left
            omega
          . refine Or.inr ⟨k + 1, Nat.succ_pos k, ?_⟩
            rw [List.take_succ_cons, size_cons]
            omega
        . rintro (hle | ⟨k, hk, heq⟩)
          . left
            omega
          . cases k with
            | zero => omega
            | succ k =>
              rw [List.take_succ_cons, size_cons] at heq
              cases k with
              | zero =>
                have hend : (r.write d de.seq).total = nbytes.toNat := by
                  rw [htotal, ← heq]
                  rfl
                exact absurd ((hspans.resid_eq_zero (Nat.le_of_eq hend)).mpr hend) hresid
              | succ k => exact Or.inr ⟨k + 1, Nat.succ_pos k, by omega⟩

end Scan

section Buffer

/--
The records from the offset on fit into the buffer, or one of an entry ends where the buffer ends.
-/
def Fits (pos : Nat) (s : St) (n : Nat) (nbytes : BitVec 64) (offset : Nat) : Prop :=
  let ds := records pos (fun m => (s.nodes m).type) (entriesFrom (s.nodes n).dentry offset)
  size (dotRecords pos s n offset) + size ds ≤ nbytes.toNat ∨
    ∃ k > 0, size (dotRecords pos s n offset) + size (ds.take k) = nbytes.toNat

variable {pos : Nat} {s : St} {v n : Nat} {nbytes : BitVec 64} {offset : Nat}

theorem spans_output (hseq : ∀ de ∈ (s.nodes n).dentry, SEQ_START ≤ de.seq)
    : Spans nbytes (output pos s n ⟨nbytes, offset, []⟩).listing := by
  rw [(@output_eq_scan pos s ⟨nbytes, offset, []⟩ n hseq rfl).1]
  apply spans_scan spans_dotted

theorem output_total_le_iff (hseq : ∀ de ∈ (s.nodes n).dentry, SEQ_START ≤ de.seq)
    : (output pos s n ⟨nbytes, offset, []⟩).listing.total ≤ nbytes.toNat ↔ Fits pos s n nbytes offset := by
  have hdots := (@dotted_eq pos s ⟨nbytes, offset, []⟩ n rfl).1
  rw [(@output_eq_scan pos s ⟨nbytes, offset, []⟩ n hseq rfl).1, scan_total_le_iff spans_dotted, total_eq, hdots]
  rfl

theorem Spans.count {r : Listing} (h : Spans nbytes r) : nbytes - r.resid = BitVec.ofNat 64 r.total := by
  unfold Spans at h
  rw [h]
  bv_omega

/--
`ramfs_readdir` writes nothing behind the end of the buffer, and reports no more than its size, if and only if the
records fit or one of them ends with the buffer.
-/
theorem inside_iff (pos : Nat) (s : St) (v : Nat) (nbytes : BitVec 64) (offset : Nat) (h : Listable s v)
    : let n := (s.vnodes v).data
      let o := output pos s n ⟨nbytes, offset, []⟩
      (∃ code, Fs.ramfs_readdir pos v nbytes offset s = o.result (code, o.listing) s (held s n)) ∧
        (o.listing.total ≤ nbytes.toNat ∧ (nbytes - o.listing.resid).toNat ≤ nbytes.toNat ↔
          Fits pos s n nbytes offset) := by
  intro n o
  refine ⟨ramfs_readdir_eq h.freed h.ramlock, ?_⟩
  rw [← output_total_le_iff h.seq, and_iff_left_iff_imp]
  intro hle
  rw [(spans_output h.seq).count, BitVec.toNat_ofNat]
  exact Nat.le_trans (Nat.mod_le _ _) hle

theorem rootMounted_root
    : Listable rootMounted 0 ∧ (rootMounted.vnodes 0).lock = false ∧ (rootMounted.vnodes 0).type = .VDIR := by
  rw [rootMounted_eq]
  refine ⟨⟨rfl, rfl, ?_, ?_⟩, rfl, rfl⟩
  . intro de hde
    cases hde
  . exact List.nodup_nil

theorem inside_rootMounted
    : let n := (rootMounted.vnodes 0).data
      let o := output 13 rootMounted n ⟨31, 0, []⟩
      (∃ code, Fs.ramfs_readdir 13 0 31 0 rootMounted = o.result (code, o.listing) rootMounted
          (held rootMounted n)) ∧
        (o.listing.total ≤ 31 ∧ (31 - o.listing.resid).toNat ≤ 31 ↔ Fits 13 rootMounted n 31 0) :=
  inside_iff 13 rootMounted 0 31 0 rootMounted_root.1

@[irreducible]
def oneDir : St :=
  after ((KCall.call (.vfs_mkdir "/a".toList)).run 1) rootMounted

theorem oneDir_root
    : Listable oneDir 0 ∧ (oneDir.vnodes 0).lock = false ∧ (oneDir.vnodes 0).type = .VDIR ∧
        (oneDir.nodes (oneDir.vnodes 0).data).wild = false ∧
        (oneDir.nodes (oneDir.vnodes 0).data).dentry = [{ name := ['a'], node := 1, seq := 3 }] ∧
        (result (Fs.ramfs_readdir 13 0 31 0) oneDir).map (fun r => r.2.total) = some 46 ∧
        (result (vfs_readdir 13 0 4096 SEQ_DOT) oneDir).map (fun r => (r.2.2.offset, r.2.2.records.map (·.name))) =
          some (3, [['.'], ['.', '.'], ['a']]) ∧
        (result (vfs_readdir 13 0 4096 3) oneDir).map (fun r => (r.2.2.offset, r.2.2.records.map (·.name))) =
          some (3, [['a']]) := by
  have hdentry : (oneDir.nodes (oneDir.vnodes 0).data).dentry = [{ name := ['a'], node := 1, seq := 3 }] := by
    decide +kernel
  refine ⟨⟨?_, ?_, ?_, ?_⟩, ?_, ?_, ?_, hdentry, ?_, ?_, ?_⟩
  . decide +kernel
  . decide +kernel
  . rw [hdentry]
    decide
  . rw [hdentry]
    decide
  . decide +kernel
  . decide +kernel
  . decide +kernel
  . decide +kernel
  . decide +kernel
  . decide +kernel

theorem not_inside
    : Listable oneDir 0 ∧ (result (Fs.ramfs_readdir 13 0 31 0) oneDir).map (fun r => r.2.total) = some 46 := by
  rcases oneDir_root with ⟨hlist, _, _, _, _, htotal, _⟩
  exact ⟨hlist, htotal⟩

end Buffer

section Types

variable {pos : Nat} {s : St} {v n : Nat} {type : Nat → VType} {de : RamDentry} {entries : List RamDentry}
  {d : Dirent} {r : Listing}

def DT_UNKNOWN : Nat := 0
def DT_REG : Nat := 8

def DT : VType → Nat
  | .VNON => DT_UNKNOWN
  | .VREG => DT_REG
  | .VDIR => DT_DIR
  | .VLNK => DT_LNK
  | .VSOCK => DT_SOCK
  | .VBLK => DT_BLK
  | .VCHR => DT_CHR

theorem dtype_eq_DT_iff {t : VType} {k : Nat} (h : dtype t = some k) : k = DT t ↔ t ≠ .VREG := by
  cases t with
  | VNON => cases h
  | _ =>
    cases h
    decide

theorem record_ok_iff
    : record pos type de = .ok d ↔
        (de.name ≠ [] ∧ de.name.length < 256) ∧ dtype (type de.node) = some d.type ∧
          d = { ino := de.node, reclen := get_reclen pos de.name, type := d.type, name := de.name } := by
  unfold record
  by_cases hname : de.name = [] ∨ 256 ≤ de.name.length
  . rw [if_pos hname]
    constructor
    . intro h
      cases h
    . rintro ⟨⟨hne, hlt⟩, _⟩
      rcases hname with hname | hname
      . exact absurd hname hne
      . omega
  . rw [if_neg hname]
    rw [not_or, Nat.not_le] at hname
    cases htype : dtype (type de.node) with
    | none => simp
    | some t =>
      dsimp only
      constructor
      . intro h
        cases h
        exact ⟨hname, rfl, rfl⟩
      . rintro ⟨_, ht, hd⟩
        cases ht
        rw [← hd]

theorem mem_records (h : d ∈ records pos type entries) : ∃ de ∈ entries, record pos type de = .ok d := by
  induction entries with
  | nil => cases h
  | cons de entries ih =>
    unfold records at h
    cases hrecord : record pos type de with
    | error e =>
      rw [hrecord] at h
      cases h
    | ok d' =>
      rw [hrecord] at h
      rcases List.mem_cons.mp h with rfl | h
      . exact ⟨de, List.mem_cons_self, hrecord⟩
      . rcases ih h with ⟨de', hde', hrecord'⟩
        exact ⟨de', List.mem_cons_of_mem de hde', hrecord'⟩

theorem mem_entriesFrom {dentry : List RamDentry} {offset : Nat} (h : de ∈ entriesFrom dentry offset)
    : de ∈ dentry := by
  unfold entriesFrom at h
  split at h
  . exact h
  . exact List.dropWhile_subset _ h

theorem entriesFrom_seq {dentry : List RamDentry} (hseq : ∀ de ∈ dentry, SEQ_START ≤ de.seq)
    (hnodup : (dentry.map (·.seq)).Nodup) (hde : de ∈ dentry) : ∃ l, entriesFrom dentry de.seq = de :: l := by
  have hstart := hseq de hde
  unfold entriesFrom
  rw [if_neg (by unfold SEQ_START at hstart; unfold SEQ_DOT SEQ_DOTDOT; omega)]
  induction dentry with
  | nil => cases hde
  | cons de' dentry ih =>
    rw [List.map_cons, List.nodup_cons] at hnodup
    rcases List.mem_cons.mp hde with rfl | hmem
    . refine ⟨dentry, ?_⟩
      rw [List.dropWhile_cons_of_neg (by simp)]
    . have hne : de'.seq ≠ de.seq := by
        intro heq
        apply hnodup.1
        rw [heq]
        exact List.mem_map_of_mem hmem
      rw [List.dropWhile_cons_of_pos (by simpa using hne)]
      exact ih (fun de hde => hseq de (List.mem_cons_of_mem de' hde)) hnodup.2 hmem

theorem output_records {nbytes : BitVec 64} {offset : Nat}
    (hseq : ∀ de ∈ (s.nodes n).dentry, SEQ_START ≤ de.seq)
    : ∃ k, (output pos s n ⟨nbytes, offset, []⟩).listing.records = dotRecords pos s n offset ++
          (records pos (fun m => (s.nodes m).type) (entriesFrom (s.nodes n).dentry offset)).take k ∧
        (records pos (fun m => (s.nodes m).type) (entriesFrom (s.nodes n).dentry offset) ≠ [] → 0 < k) := by
  rw [(@output_eq_scan pos s ⟨nbytes, offset, []⟩ n hseq rfl).1]
  rcases @scan_records pos (fun m => (s.nodes m).type) (s.nodes n).wild
    (entriesFrom (s.nodes n).dentry offset) (dotted pos s n ⟨nbytes, offset, []⟩) with ⟨k, hk, hpos⟩
  refine ⟨k, ?_, hpos⟩
  rw [hk, (@dotted_eq pos s ⟨nbytes, offset, []⟩ n rfl).1]

/--
The records of all listings of a directory have the types of their nodes if and only if none of its entries is a
regular file, and the type of `.` and `..` happens to be on the stack.
-/
theorem types_iff (pos : Nat) (s : St) (v : Nat) (h : Listable s v)
    : let n := (s.vnodes v).data
      let o := fun nbytes offset => output pos s n ⟨nbytes, offset, []⟩
      (∀ nbytes offset, ∃ code,
          Fs.ramfs_readdir pos v nbytes offset s = (o nbytes offset).result (code, (o nbytes offset).listing) s
            (held s n)) ∧
        ((∀ nbytes offset, ∀ d ∈ (o nbytes offset).listing.records, d.type = DT (s.nodes d.ino).type) ↔
          (∀ de ∈ (s.nodes n).dentry, de.name ≠ [] → de.name.length < 256 → (s.nodes de.node).type ≠ .VREG) ∧
            s.junk.dtype = DT (s.nodes n).type ∧ s.junk.dtype = DT (s.nodes (s.nodes n).parent).type) := by
  intro n o
  refine ⟨fun nbytes offset => ramfs_readdir_eq h.freed h.ramlock, ?_⟩
  constructor
  . intro hright
    have hdots : ∀ d ∈ dotRecords pos s n SEQ_DOT, d.type = DT (s.nodes d.ino).type := by
      intro d hd
      rcases @output_records pos s n 0 SEQ_DOT h.seq with ⟨k, hk, _⟩
      apply hright 0 SEQ_DOT
      rw [hk]
      exact List.mem_append_left _ hd
    refine ⟨?_, ?_, ?_⟩
    . intro de hde hne hlt hreg
      rcases entriesFrom_seq h.seq h.nodup hde with ⟨l, hl⟩
      rcases @output_records pos s n 0 de.seq h.seq with ⟨k, hk, hpos⟩
      have hrecord : record pos (fun m => (s.nodes m).type) de =
          .ok { ino := de.node, reclen := get_reclen pos de.name, type := DT_DIR, name := de.name } := by
        rw [record_ok_iff]
        refine ⟨⟨hne, hlt⟩, ?_, rfl⟩
        dsimp only
        rw [hreg]
        rfl
      rw [hl] at hk hpos
      unfold records at hk hpos
      rw [hrecord] at hk hpos
      have hmem : ({ ino := de.node, reclen := get_reclen pos de.name, type := DT_DIR, name := de.name } : Dirent) ∈
          (o 0 de.seq).listing.records := by
        rw [hk]
        apply List.mem_append_right
        cases k with
        | zero => exact absurd (hpos (by simp)) (Nat.lt_irrefl 0)
        | succ k =>
          rw [List.take_succ_cons]
          apply List.mem_cons_self
      have htype := hright 0 de.seq _ hmem
      dsimp only at htype
      rw [hreg] at htype
      cases htype
    . apply hdots { ino := n, reclen := get_reclen pos ['.'], type := s.junk.dtype, name := ['.'] }
      unfold dotRecords
      simp
    . apply hdots
        { ino := (s.nodes n).parent, reclen := get_reclen pos ['.', '.'], type := s.junk.dtype, name := ['.', '.'] }
      unfold dotRecords
      simp
  . rintro ⟨hreg, hdot, hdotdot⟩ nbytes offset d hd
    rcases @output_records pos s n nbytes offset h.seq with ⟨k, hk, _⟩
    rw [hk, List.mem_append] at hd
    rcases hd with hd | hd
    . unfold dotRecords at hd
      rcases List.mem_append.mp hd with hd | hd
      . split at hd
        . rw [List.mem_singleton.mp hd]
          exact hdot
        . cases hd
      . split at hd
        . rw [List.mem_singleton.mp hd]
          exact hdotdot
        . cases hd
    . rcases mem_records (List.mem_of_mem_take hd) with ⟨de, hde, hrecord⟩
      rcases record_ok_iff.mp hrecord with ⟨⟨hne, hlt⟩, hdtype, heq⟩
      have hino : d.ino = de.node := by rw [heq]
      rw [hino, dtype_eq_DT_iff hdtype]
      exact hreg de (mem_entriesFrom hde) hne hlt

theorem types_rootMounted
    : let n := (rootMounted.vnodes 0).data
      let o := fun nbytes offset => output 13 rootMounted n ⟨nbytes, offset, []⟩
      (∀ nbytes offset, ∃ code,
          Fs.ramfs_readdir 13 0 nbytes offset rootMounted =
            (o nbytes offset).result (code, (o nbytes offset).listing) rootMounted (held rootMounted n)) ∧
        ((∀ nbytes offset, ∀ d ∈ (o nbytes offset).listing.records, d.type = DT (rootMounted.nodes d.ino).type) ↔
          (∀ de ∈ (rootMounted.nodes n).dentry, de.name ≠ [] → de.name.length < 256 →
              (rootMounted.nodes de.node).type ≠ .VREG) ∧
            rootMounted.junk.dtype = DT (rootMounted.nodes n).type ∧
            rootMounted.junk.dtype = DT (rootMounted.nodes (rootMounted.nodes n).parent).type) :=
  types_iff 13 rootMounted 0 rootMounted_root.1

@[irreducible]
def oneFile : St :=
  after ((KCall.call (.vfs_open "/f".toList .VREG true)).run 1) rootMounted

theorem not_types
    : Listable oneFile 0 ∧
        (result (Fs.ramfs_readdir 13 0 4096 0) oneFile).map
            (fun r => r.2.records.map fun d => (d.name, d.type, (oneFile.nodes d.ino).type)) =
          some [(['.'], DT_UNKNOWN, .VDIR), (['.', '.'], DT_UNKNOWN, .VDIR), (['f'], DT_DIR, .VREG)] := by
  constructor
  . constructor
    . decide +kernel
    . decide +kernel
    . decide +kernel
    . decide +kernel
  . decide +kernel

end Types

end ramfs_readdir

end Fs
end Franklin
