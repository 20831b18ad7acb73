import Franklin.Fs.Dirent
import Franklin.Fs.Lemmas.Cursor

/-!
This module contains that the records of a listing can be read from the bytes in the buffer.
-/

namespace Franklin
namespace Fs

section Bytes

variable {b : Block} {i : Int} {n k : Nat} {name : Name} {fuel : Nat}

theorem le_toNat (n k : Nat) : (le n k).toNat = n / 256 ^ k % 256 := by
  unfold le
  exact UInt8.toNat_ofNat'

theorem Block.get_inside {j : Int} (hj : 0 ≤ j ∧ j < b.size) : b.get j = some (b.byte j.toNat) := by
  unfold Block.get
  rw [if_pos hj]

theorem number_eq (hin : 0 ≤ i ∧ i + k ≤ b.size) (hbyte : ∀ j : Nat, j < k → b.byte (i + j).toNat = le n j)
    : number b i k = some (n % 256 ^ k) := by
  induction k with
  | zero =>
    rw [Nat.pow_zero, Nat.mod_one]
    rfl
  | succ k ih =>
    unfold number
    rw [ih (by omega) (fun j hj => hbyte j (by omega)), Block.get_inside (by omega), hbyte k (by omega)]
    change some (n % 256 ^ k + (le n k).toNat * 256 ^ k) = _
    rw [le_toNat, Nat.mod_pow_succ, Nat.mul_comm]

def Bytes (name : Name) : Prop :=
  ∀ c ∈ name, 0 < c.toNat ∧ c.toNat < 256

instance (name : Name) : Decidable (Bytes name) :=
  List.decidableBAll (fun c : Char => 0 < c.toNat ∧ c.toNat < 256) name

theorem cstring_eq (hname : Bytes name) (hin : 0 ≤ i ∧ i + name.length + 1 ≤ b.size) (hfuel : name.length < fuel)
    (hbyte : ∀ j : Nat, j < name.length → b.byte (i + j).toNat = UInt8.ofNat (name.getD j '0').toNat)
    (hend : b.byte (i + name.length).toNat = 0) : cstring b fuel i = some name := by
  induction name generalizing i fuel with
  | nil =>
    cases fuel with
    | zero => cases hfuel
    | succ fuel =>
      unfold cstring
      rw [Block.get_inside (by simp at hin; omega)]
      rw [List.length_nil, Int.natCast_zero, Int.add_zero] at hend
      rw [hend]
      rfl
  | cons c name ih =>
    rw [List.length_cons] at hin hfuel hend
    cases fuel with
    | zero => cases hfuel
    | succ fuel =>
      have hc := hname c List.mem_cons_self
      have hfirst := hbyte 0 (by rw [List.length_cons]; omega)
      have hnat : (UInt8.ofNat c.toNat).toNat = c.toNat := by
        rw [UInt8.toNat_ofNat']
        apply Nat.mod_eq_of_lt hc.2
      rw [Int.natCast_zero, Int.add_zero] at hfirst
      change _ = UInt8.ofNat c.toNat at hfirst
      have hne : ¬ UInt8.ofNat c.toNat = 0 := by
        intro hzero
        rw [hzero] at hnat
        change 0 = _ at hnat
        omega
      have hrest : cstring b fuel (i + 1) = some name := by
        apply ih
        . intro c' hc'
          exact hname c' (List.mem_cons_of_mem c hc')
        . omega
        . omega
        . intro j hj
          have hnext := hbyte (j + 1) (by rw [List.length_cons]; omega)
          rw [List.getD_cons_succ] at hnext
          rw [← hnext]
          congr 2
          omega
        . rw [← hend]
          congr 2
          omega
      unfold cstring
      rw [Block.get_inside (by omega), hfirst, Option.bind_eq_bind, Option.bind_some, if_neg hne, hrest, hnat,
        Char.ofNat_toNat]
      rfl

end Bytes

section Records

variable {width pos : Nat} {junk : Nat → UInt8} {d : Dirent} {ds : List Dirent} {buf buf' : Block} {i count : Int}

structure Dirent.Whole (pos : Nat) (d : Dirent) : Prop where
  reclen : d.reclen = pos + d.name.length + 1
  length : d.name.length < 256
  bytes : Bytes d.name

def Dirent.cut (width : Nat) (d : Dirent) : Dirent :=
  { d with ino := d.ino % 256 ^ width, type := (UInt8.ofNat d.type).toNat }

/--
The bytes of a record are at the index `i` of the buffer.
-/
def Holds (width pos : Nat) (junk : Nat → UInt8) (buf : Block) (i : Int) (d : Dirent) : Prop :=
  ∀ j : Nat, j < d.reclen → buf.byte (i + j).toNat = (d.image width pos junk).byte j

theorem decode_eq (hwidth : width + 5 ≤ pos) (hpos : pos + 256 < 2 ^ 16) (hd : d.Whole pos)
    (hin : 0 ≤ i ∧ i + d.reclen ≤ buf.size) (h : Holds width pos junk buf i d)
    : Dirent.decode width pos buf i = some (d.cut width) := by
  have hreclen := hd.reclen
  have hlength := hd.length
  have hino : number buf i width = some (d.ino % 256 ^ width) := by
    apply number_eq (by omega)
    intro j hj
    rw [h j (by omega)]
    unfold Dirent.image
    dsimp only
    rw [if_pos hj]
  have hlen : number buf (i + pos - 5) 4 = some d.reclen := by
    rw [@number_eq buf (i + pos - 5) d.reclen 4 (by omega)]
    . rw [Nat.mod_eq_of_lt (by omega)]
    . intro j hj
      have hj' := h (pos - 5 + j) (by omega)
      unfold Dirent.image at hj'
      dsimp only at hj'
      rw [if_neg (by omega), if_pos (by omega)] at hj'
      have hindex : i + pos - 5 + j = i + ((pos - 5 + j : Nat) : Int) := by omega
      rw [hindex, hj']
      congr 1
      omega
  have htype : buf.get (i + pos - 1) = some (UInt8.ofNat d.type) := by
    have hj := h (pos - 1) (by omega)
    unfold Dirent.image at hj
    dsimp only at hj
    rw [if_neg (by omega), if_neg (by omega), if_pos rfl] at hj
    have hindex : i + pos - 1 = i + ((pos - 1 : Nat) : Int) := by omega
    rw [Block.get_inside (by omega), hindex, hj]
  have hname : cstring buf 256 (i + pos) = some d.name := by
    apply cstring_eq hd.bytes (by omega) hlength
    . intro j hj
      have hj' := h (pos + j) (by omega)
      unfold Dirent.image at hj'
      dsimp only at hj'
      rw [if_neg (by omega), if_neg (by omega), if_neg (by omega), if_pos (by omega)] at hj'
      have hindex : i + pos + j = i + ((pos + j : Nat) : Int) := by omega
      rw [hindex, hj', Nat.add_sub_cancel_left]
    . have hj := h (pos + d.name.length) (by omega)
      unfold Dirent.image at hj
      dsimp only at hj
      rw [if_neg (by omega), if_neg (by omega), if_neg (by omega), if_neg (by omega), if_pos rfl] at hj
      have hindex : i + pos + d.name.length = i + ((pos + d.name.length : Nat) : Int) := by omega
      rw [hindex, hj]
  unfold Dirent.decode
  rw [hino, Option.bind_eq_bind, Option.bind_some, hlen, Option.bind_eq_bind, Option.bind_some, htype,
    Option.bind_eq_bind, Option.bind_some, hname]
  rfl

theorem fill_walk (hwidth : width + 5 ≤ pos) (hpos : pos + 256 < 2 ^ 16) (hds : ∀ d ∈ ds, d.Whole pos)
    (hin : 0 ≤ i ∧ i + ramfs_readdir.size ds ≤ buf.size) (hcount : count = i + ramfs_readdir.size ds)
    : ∃ buf', ramfs_readdir.fill width pos junk buf i ds = some buf' ∧ buf'.size = buf.size ∧
        (∀ j : Nat, j < i → buf'.byte j = buf.byte j) ∧
        printdir.walk width pos buf' count (ds.length + 1) i = some (ds.map (·.cut width)) := by
  induction ds generalizing buf i with
  | nil =>
    refine ⟨buf, rfl, rfl, fun _ _ => rfl, ?_⟩
    unfold printdir.walk
    rw [if_neg (by rw [hcount]; simp [ramfs_readdir.size])]
    rfl
  | cons d ds ih =>
    have hd := hds d List.mem_cons_self
    have hreclen := hd.reclen
    have hlength := hd.length
    rw [ramfs_readdir.size_cons] at hin hcount
    have hcopy : buf.copy i (d.image width pos junk) 0 d.reclen =
        some (buf.overlay i (d.image width pos junk) 0 d.reclen) := by
      apply Block.copy_eq
      . unfold Block.Inside
        omega
      . unfold Block.Inside Dirent.image
        dsimp only
        omega
    rcases @ih (buf.overlay i (d.image width pos junk) 0 d.reclen) (i + d.reclen)
      (fun d' hd' => hds d' (List.mem_cons_of_mem d hd')) (by rw [Block.overlay_size]; omega) (by omega) with
      ⟨buf', hfill, hsize, hkept, hwalk⟩
    have hholds : Holds width pos junk buf' i d := by
      intro j hj
      rw [hkept _ (by omega), Block.overlay_inside (by omega)]
      congr 1
      omega
    refine ⟨buf', ?_, by rw [hsize, Block.overlay_size], ?_, ?_⟩
    . unfold ramfs_readdir.fill
      rw [hcopy]
      exact hfill
    . intro j hj
      rw [hkept j (by omega), Block.overlay_outside (by omega)]
    . have hdecode : Dirent.decode width pos buf' i = some (d.cut width) := by
        apply decode_eq hwidth hpos hd _ hholds
        rw [hsize, Block.overlay_size]
        omega
      unfold printdir.walk
      rw [if_pos (by omega), hdecode, Option.bind_eq_bind, Option.bind_some]
      change (do
        let ds ← printdir.walk width pos buf' count (ds.length + 1) (i + d.reclen)
        pure (d.cut width :: ds)) = _
      rw [hwalk]
      rfl

end Records

namespace ramfs_readdir

variable {width pos : Nat} {s : St} {v n : Nat} {nbytes : BitVec 64} {type : Nat → VType} {entries : List RamDentry}
  {r : Listing}

/--
An entry with a name of 1 to 255 bytes, and a type that has a code.
-/
structure Proper (type : Nat → VType) (de : RamDentry) : Prop where
  ne_nil : de.name ≠ []
  length : de.name.length < 256
  bytes : Bytes de.name
  type : type de.node ≠ .VNON

theorem Proper.record {de : RamDentry} (h : Proper type de)
    : ∃ t, record pos type de =
        .ok { ino := de.node, reclen := get_reclen pos de.name, type := t, name := de.name } := by
  have hcode : ∃ t, dtype (type de.node) = some t := by
    have hnon := h.type
    cases htype : type de.node with
    | VNON => exact absurd htype hnon
    | _ => exact ⟨_, rfl⟩
  rcases hcode with ⟨t, ht⟩
  exact ⟨t, record_ok_iff.mpr ⟨⟨h.ne_nil, h.length⟩, ht, rfl⟩⟩

theorem records_of_proper (hpos : pos + 256 < 2 ^ 16) (h : ∀ de ∈ entries, Proper type de)
    : ((records pos type entries).map fun d => (d.ino, d.name)) = entries.map (fun de => (de.node, de.name)) ∧
        size (records pos type entries) = (entries.map fun de => get_reclen pos de.name).sum ∧
        ∀ d ∈ records pos type entries, d.Whole pos := by
  induction entries with
  | nil => exact ⟨rfl, rfl, fun d hd => by cases hd⟩
  | cons de entries ih =>
    have hde := h de List.mem_cons_self
    rcases @Proper.record pos _ _ hde with ⟨t, hrecord⟩
    rcases ih (fun de' hde' => h de' (List.mem_cons_of_mem de hde')) with ⟨hmap, hsize, hwhole⟩
    unfold records
    rw [hrecord]
    dsimp only
    refine ⟨?_, ?_, ?_⟩
    . rw [List.map_cons, List.map_cons, hmap]
    . rw [size_cons, List.map_cons, List.sum_cons, hsize]
    . intro d hd
      rcases List.mem_cons.mp hd with rfl | hd
      . exact ⟨get_reclen_pos hpos hde.length, hde.length, hde.bytes⟩
      . exact hwhole d hd

theorem scan_all (hpos : pos + 256 < 2 ^ 16) (h : ∀ de ∈ entries, Proper type de) (hspans : Spans nbytes r)
    (hle : r.total + size (records pos type entries) ≤ nbytes.toNat)
    : (scan pos type false entries r).listing.records = r.records ++ records pos type entries ∧
        (scan pos type false entries r).stop = none := by
  induction entries generalizing r with
  | nil => exact ⟨by simp [scan, records], rfl⟩
  | cons de entries ih =>
    have hde := h de List.mem_cons_self
    have hrest := fun de' hde' => h de' (List.mem_cons_of_mem de hde')
    rcases @Proper.record pos _ _ hde with ⟨t, hrecord⟩
    unfold records at hle ⊢
    unfold scan
    rw [hrecord] at hle ⊢
    dsimp only at hle ⊢
    rw [size_cons] at hle
    generalize hd :
      ({ ino := de.node, reclen := get_reclen pos de.name, type := t, name := de.name } : Dirent) = d at *
    have htotal := Listing.total_write r d de.seq
    have hwrite := hspans.write d de.seq
    split
    . next hresid =>
      have hend := (hwrite.resid_eq_zero (by omega)).mp hresid
      have hnil : records pos type entries = [] := by
        cases entries with
        | nil => rfl
        | cons de' entries =>
          have hde' := hrest de' List.mem_cons_self
          rcases @Proper.record pos _ _ hde' with ⟨t', hrecord'⟩
          unfold records at hle
          rw [hrecord'] at hle
          dsimp only at hle
          rw [size_cons] at hle
          dsimp only at hle
          rw [get_reclen_pos hpos hde'.length] at hle
          omega
      rw [hnil]
      exact ⟨rfl, rfl⟩
    . rcases ih hrest hwrite (by omega) with ⟨hrecords, hstop⟩
      rw [hrecords]
      exact ⟨by simp [Listing.write], hstop⟩

/--
The number of bytes that the records of a directory take.
-/
def span (pos : Nat) (s : St) (n : Nat) : Nat :=
  ((inventory s n).map fun e => get_reclen pos e.2).sum

theorem span_eq
    : span pos s n = get_reclen pos ['.'] + get_reclen pos ['.', '.'] +
        ((s.nodes n).dentry.map fun de => get_reclen pos de.name).sum := by
  unfold span inventory
  rw [List.map_cons, List.map_cons, List.map_map, List.sum_cons, List.sum_cons, Nat.add_assoc]
  rfl

theorem dotRecords_whole (hpos : pos + 256 < 2 ^ 16) : ∀ d ∈ dotRecords pos s n SEQ_DOT, d.Whole pos := by
  have hdot : Bytes ['.'] := by decide
  have hdotdot : Bytes ['.', '.'] := by decide
  intro d hd
  unfold dotRecords at hd
  rw [if_pos rfl, if_pos (Or.inl rfl)] at hd
  rcases List.mem_cons.mp hd with rfl | hd
  . exact ⟨get_reclen_pos hpos (by decide), by dsimp only; decide, hdot⟩
  . rw [List.mem_singleton.mp hd]
    exact ⟨get_reclen_pos hpos (by decide), by dsimp only; decide, hdotdot⟩

theorem output_all (hpos : pos + 256 < 2 ^ 16) (h : Listable s v) (hn : n = (s.vnodes v).data)
    (hwild : (s.nodes n).wild = false) (hproper : ∀ de ∈ (s.nodes n).dentry, Proper (fun m => (s.nodes m).type) de)
    (hspan : span pos s n ≤ nbytes.toNat)
    : (output pos s n ⟨nbytes, SEQ_DOT, []⟩).listing.records =
          dotRecords pos s n SEQ_DOT ++ records pos (fun m => (s.nodes m).type) (s.nodes n).dentry ∧
        (output pos s n ⟨nbytes, SEQ_DOT, []⟩).listing.total = span pos s n ∧
        (output pos s n ⟨nbytes, SEQ_DOT, []⟩).stop = none := by
  subst hn
  rcases records_of_proper hpos hproper with ⟨_, hsize, _⟩
  rcases @output_eq_scan pos s ⟨nbytes, SEQ_DOT, []⟩ (s.vnodes v).data h.seq rfl with ⟨hlisting, hstop⟩
  have hall := @scan_all pos nbytes (fun m => (s.nodes m).type) (s.nodes (s.vnodes v).data).dentry
    (dotted pos s (s.vnodes v).data ⟨nbytes, SEQ_DOT, []⟩) hpos hproper spans_dotted
    (by rw [dotted_dot, hsize, ← span_eq]; exact hspan)
  have hentries : entriesFrom (s.nodes (s.vnodes v).data).dentry SEQ_DOT = (s.nodes (s.vnodes v).data).dentry := by
    unfold entriesFrom
    rw [if_pos (Or.inl rfl)]
  rw [hentries, hwild] at hlisting hstop
  have hrecords : (output pos s (s.vnodes v).data ⟨nbytes, SEQ_DOT, []⟩).listing.records =
      dotRecords pos s (s.vnodes v).data SEQ_DOT ++
        records pos (fun m => (s.nodes m).type) (s.nodes (s.vnodes v).data).dentry := by
    rw [hlisting, hall.1, (@dotted_eq pos s ⟨nbytes, SEQ_DOT, []⟩ (s.vnodes v).data rfl).1]
  refine ⟨hrecords, ?_, ?_⟩
  . have hdots : size (dotRecords pos s (s.vnodes v).data SEQ_DOT) =
        get_reclen pos ['.'] + get_reclen pos ['.', '.'] := by
      unfold dotRecords size
      simp
    rw [total_eq, hrecords, size_append, hdots, hsize, span_eq]
  . rw [hstop (by intro heof; cases heof), hall.2]

/--
A listing with space for all records gives all of them, and the loop over the buffer reads them in the order of
the directory.
-/
theorem listing_decodes (width pos : Nat) (s : St) (v : Nat) (nbytes : BitVec 64) (buf : Block) (junk : Nat → UInt8)
    (hwidth : width + 5 ≤ pos) (hpos : pos + 256 < 2 ^ 16) (h : Listable s v) (hlock : (s.vnodes v).lock = false)
    (hdir : (s.vnodes v).type = .VDIR) (hwild : (s.nodes (s.vnodes v).data).wild = false)
    (hproper : ∀ de ∈ (s.nodes (s.vnodes v).data).dentry, Proper (fun m => (s.nodes m).type) de)
    (hbuf : buf.size = nbytes.toNat) (hmax : buf.size < 2 ^ 63) (hspan : span pos s (s.vnodes v).data ≤ nbytes.toNat)
    : ∃ r buf' ds, vfs_readdir pos v nbytes SEQ_DOT s =
          .ok (none, BitVec.ofNat 64 (span pos s (s.vnodes v).data), r) s ∧
        fill width pos junk buf 0 r.records = some buf' ∧
        (∃ fuel, printdir.walk width pos buf' (BitVec.ofNat 64 (span pos s (s.vnodes v).data)).toInt fuel 0 =
          some ds) ∧
        ds.map (fun d => (d.ino, d.name)) =
          (inventory s (s.vnodes v).data).map fun e => (e.1 % 256 ^ width, e.2) := by
  rcases output_all hpos h rfl hwild hproper hspan with ⟨hrecords, htotal, hstop⟩
  rcases records_of_proper hpos hproper with ⟨hmap, _, hwhole⟩
  have hreaddir := readdir_ok h hlock hdir hstop
  rw [htotal] at hreaddir
  rw [total_eq, hrecords] at htotal
  have hwhole : ∀ d ∈ dotRecords pos s (s.vnodes v).data SEQ_DOT ++
      records pos (fun m => (s.nodes m).type) (s.nodes (s.vnodes v).data).dentry, d.Whole pos := by
    intro d hd
    rcases List.mem_append.mp hd with hd | hd
    . exact dotRecords_whole hpos d hd
    . exact hwhole d hd
  have hcount : (BitVec.ofNat 64 (span pos s (s.vnodes v).data)).toInt = span pos s (s.vnodes v).data := by
    rw [BitVec.toInt_eq_toNat_cond, BitVec.toNat_ofNat, Nat.mod_eq_of_lt (by omega), if_pos (by omega)]
  rcases @fill_walk width pos junk _ buf 0 (span pos s (s.vnodes v).data) hwidth hpos hwhole
    (by rw [htotal]; omega) (by rw [htotal]; omega) with ⟨buf', hfill, _, _, hwalk⟩
  refine ⟨_, buf', _, hreaddir, by rw [hrecords]; exact hfill, ⟨_, by rw [hcount]; exact hwalk⟩, ?_⟩
  rw [List.map_map]
  change List.map ((fun e : Nat × Name => (e.1 % 256 ^ width, e.2)) ∘ fun d : Dirent => (d.ino, d.name)) _ = _
  rw [← List.map_map]
  congr 1
  rw [List.map_append, hmap]
  unfold inventory dotRecords
  rw [if_pos rfl, if_pos (Or.inl rfl)]
  rfl

theorem listing_decodes_oneDir
    : ∃ r buf' ds, vfs_readdir 13 0 4096 SEQ_DOT oneDir =
          .ok (none, BitVec.ofNat 64 (span 13 oneDir (oneDir.vnodes 0).data), r) oneDir ∧
        fill 8 13 (fun _ => 7) ⟨4096, fun _ => 9⟩ 0 r.records = some buf' ∧
        (∃ fuel, printdir.walk 8 13 buf' (BitVec.ofNat 64 (span 13 oneDir (oneDir.vnodes 0).data)).toInt fuel 0 =
          some ds) ∧
        ds.map (fun d => (d.ino, d.name)) =
          (inventory oneDir (oneDir.vnodes 0).data).map fun e => (e.1 % 256 ^ 8, e.2) := by
  rcases oneDir_root with ⟨hlist, hlock, hdir, hwild, hdentry, _⟩
  apply listing_decodes 8 13 oneDir 0 4096 ⟨4096, fun _ => 9⟩ (fun _ => 7) (by decide) (by decide) hlist hlock hdir
    hwild
  . intro de hde
    rw [hdentry] at hde
    rw [List.mem_singleton.mp hde]
    constructor
    . decide
    . decide
    . decide
    . decide +kernel
  . decide
  . decide
  . rw [span_eq, hdentry]
    decide

@[irreducible]
def oneNone : St :=
  after ((KCall.call (.vfs_open "/x".toList .VNON true)).run 1) rootMounted

theorem not_listing_decodes
    : Listable oneNone 0 ∧ (oneNone.nodes (oneNone.vnodes 0).data).wild = false ∧
        (oneNone.nodes (oneNone.vnodes 0).data).dentry.map (·.name) = [['x']] ∧
        span 13 oneNone (oneNone.vnodes 0).data ≤ 4096 ∧
        stops (vfs_readdir 13 0 4096 SEQ_DOT) oneNone (.panic "ramfs_readdir: unknown type") = true := by
  refine ⟨?_, ?_, ?_, ?_, ?_⟩
  . constructor
    . decide +kernel
    . decide +kernel
    . decide +kernel
    . decide +kernel
  . decide +kernel
  . decide +kernel
  . decide +kernel
  . decide +kernel

end ramfs_readdir

end Fs
end Franklin
