import Franklin.Fs.Lemmas.Records

/-!
This module contains whether a directory can be read by calls of `vfs_readdir` with one offset variable.
-/

namespace Franklin
namespace Fs

/--
The calls of `vfs_readdir` with one offset variable until one of them returns 0. What a call writes behind the end
of the buffer is a fault of the caller.
-/
def readAll (pos v : Nat) (nbytes : BitVec 64) : Nat → Nat → Prog (List Dirent)
  | 0, _ => throw .fuel
  | fuel + 1, offset => do
    let (_, n, r) ← vfs_readdir pos v nbytes offset
    if nbytes.toNat < r.total then
      throw .fault
    else if n = 0 then
      pure r.records
    else
      let ds ← readAll pos v nbytes fuel r.offset
      pure (r.records ++ ds)

namespace ramfs_readdir

variable {pos : Nat} {s s' : St} {v n : Nat} {nbytes k : BitVec 64} {offset : Nat} {type : Nat → VType} {wild : Bool}
  {entries : List RamDentry} {r : Listing} {error : Code}

theorem get_reclen_pos {name : Name} (hpos : pos + 256 < 2 ^ 16) (hname : name.length < 256)
    : get_reclen pos name = pos + name.length + 1 := by
  unfold get_reclen
  apply Nat.mod_eq_of_lt
  omega

theorem scan_cursor (hpos : pos + 256 < 2 ^ 16) (hne : entries ≠ [])
    (hstop : (scan pos type wild entries r).stop = none)
    : (∃ de ∈ entries, (scan pos type wild entries r).listing.offset = de.seq) ∧
        r.total < (scan pos type wild entries r).listing.total := by
  induction entries generalizing r with
  | nil => exact absurd rfl hne
  | cons de entries ih =>
    unfold scan at hstop ⊢
    cases hrecord : record pos type de with
    | error e =>
      rw [hrecord] at hstop
      cases hstop
    | ok d =>
      rcases record_ok_iff.mp hrecord with ⟨⟨_, hlt⟩, _, hd⟩
      have hreclen : 0 < d.reclen := by
        rw [hd]
        dsimp only
        rw [get_reclen_pos hpos hlt]
        omega
      have htotal := Listing.total_write r d de.seq
      have hlarger : r.total < (r.write d de.seq).total := by omega
      have hhere : ∃ de' ∈ de :: entries, (r.write d de.seq).offset = de'.seq := ⟨de, List.mem_cons_self, rfl⟩
      rw [hrecord] at hstop
      dsimp only at hstop ⊢
      split at hstop
      . next hresid =>
        rw [if_pos hresid]
        exact ⟨hhere, hlarger⟩
      . next hresid =>
        rw [if_neg hresid]
        by_cases hnil : entries = []
        . subst hnil
          exact ⟨hhere, hlarger⟩
        . rcases ih hnil hstop with ⟨⟨de', hde', hoffset⟩, hlt'⟩
          exact ⟨⟨de', List.mem_cons_of_mem de hde', hoffset⟩, by omega⟩

theorem readdir_ok (h : Listable s v) (hlock : (s.vnodes v).lock = false) (hdir : (s.vnodes v).type = .VDIR)
    (hstop : (output pos s (s.vnodes v).data ⟨nbytes, offset, []⟩).stop = none)
    : vfs_readdir pos v nbytes offset s =
        .ok (none, BitVec.ofNat 64 (output pos s (s.vnodes v).data ⟨nbytes, offset, []⟩).listing.total,
          (output pos s (s.vnodes v).data ⟨nbytes, offset, []⟩).listing) s := by
  rcases @vfs_readdir_eq pos s v nbytes offset h hlock hdir with ⟨s', hreaddir⟩
  rw [hreaddir]
  unfold Output.result
  rw [hstop, (spans_output h.seq).count]

theorem of_readdir_ok (h : Listable s v) (hlock : (s.vnodes v).lock = false) (hdir : (s.vnodes v).type = .VDIR)
    (hreaddir : vfs_readdir pos v nbytes offset s = .ok (error, k, r) s')
    : s' = s ∧ (output pos s (s.vnodes v).data ⟨nbytes, offset, []⟩).stop = none ∧
        r = (output pos s (s.vnodes v).data ⟨nbytes, offset, []⟩).listing ∧ k = BitVec.ofNat 64 r.total := by
  cases hstop : (output pos s (s.vnodes v).data ⟨nbytes, offset, []⟩).stop with
  | none =>
    rw [readdir_ok h hlock hdir hstop] at hreaddir
    cases hreaddir
    exact ⟨rfl, rfl, rfl, rfl⟩
  | some e =>
    rcases @vfs_readdir_eq pos s v nbytes offset h hlock hdir with ⟨s'', hreaddir'⟩
    unfold Output.result at hreaddir'
    rw [hstop, hreaddir] at hreaddir'
    cases hreaddir'

theorem ofNat_ne_zero {t : Nat} (ht : 0 < t) (hle : t ≤ nbytes.toNat) : BitVec.ofNat 64 t ≠ 0 := by
  intro hzero
  have hnat := congrArg BitVec.toNat hzero
  have hlt := nbytes.isLt
  rw [BitVec.toNat_ofNat, Nat.mod_eq_of_lt (by omega)] at hnat
  change t = 0 at hnat
  omega

def Ahead (dentry : List RamDentry) (offset : Nat) : Prop :=
  offset = SEQ_DOT ∨ offset = SEQ_DOTDOT ∨ ∃ de ∈ dentry, offset = de.seq

theorem Ahead.step (h : Listable s v) (hpos : pos + 256 < 2 ^ 16) (hn : n = (s.vnodes v).data)
    (hne : (s.nodes n).dentry ≠ []) (hahead : Ahead (s.nodes n).dentry offset)
    (hstop : (output pos s n ⟨nbytes, offset, []⟩).stop = none)
    : Ahead (s.nodes n).dentry (output pos s n ⟨nbytes, offset, []⟩).listing.offset ∧
        0 < (output pos s n ⟨nbytes, offset, []⟩).listing.total := by
  subst hn
  have hentries : entriesFrom (s.nodes (s.vnodes v).data).dentry offset ≠ [] := by
    rcases hahead with hoffset | hoffset | ⟨de, hde, hoffset⟩
    . unfold entriesFrom
      rw [if_pos (Or.inl hoffset)]
      exact hne
    . unfold entriesFrom
      rw [if_pos (Or.inr hoffset)]
      exact hne
    . rcases entriesFrom_seq h.seq h.nodup hde with ⟨l, hl⟩
      rw [hoffset, hl]
      simp
  have heof : offset ≠ SEQ_EOF := by
    rcases hahead with hoffset | hoffset | ⟨de, hde, hoffset⟩
    . rw [hoffset]
      decide
    . rw [hoffset]
      decide
    . have hseq := h.seq de hde
      unfold SEQ_START at hseq
      unfold SEQ_EOF
      omega
  rcases @output_eq_scan pos s ⟨nbytes, offset, []⟩ (s.vnodes v).data h.seq rfl with ⟨hlisting, hscan⟩
  rw [hscan (fun h => absurd h heof)] at hstop
  rcases scan_cursor hpos hentries hstop with ⟨⟨de, hde, hoffset⟩, hlt⟩
  rw [hlisting]
  exact ⟨Or.inr (Or.inr ⟨de, mem_entriesFrom hde, hoffset⟩), Nat.lt_of_le_of_lt (Nat.zero_le _) hlt⟩

theorem readAll_never (h : Listable s v) (hlock : (s.vnodes v).lock = false) (hdir : (s.vnodes v).type = .VDIR)
    (hpos : pos + 256 < 2 ^ 16) (hne : (s.nodes (s.vnodes v).data).dentry ≠ []) (fuel : Nat)
    (hahead : Ahead (s.nodes (s.vnodes v).data).dentry offset) (ds : List Dirent)
    : readAll pos v nbytes fuel offset s ≠ .ok ds s' := by
  induction fuel generalizing offset ds s' with
  | zero =>
    intro hread
    cases hread
  | succ fuel ih =>
    intro hread
    unfold readAll at hread
    cases hreaddir : vfs_readdir pos v nbytes offset s with
    | error e s1 =>
      rw [bind_of_error hreaddir] at hread
      cases hread
    | ok a s1 =>
      rcases a with ⟨error, k, r⟩
      rcases of_readdir_ok h hlock hdir hreaddir with ⟨rfl, hstop, rfl, rfl⟩
      rcases hahead.step h hpos rfl hne hstop with ⟨hnext, htotal⟩
      rw [bind_of_ok hreaddir] at hread
      dsimp only at hread
      split at hread
      . cases hread
      . next hle =>
        have hk : BitVec.ofNat 64 (output pos s1 (s1.vnodes v).data ⟨nbytes, offset, []⟩).listing.total ≠ 0 := by
          apply ofNat_ne_zero htotal
          exact Nat.not_lt.mp hle
        rw [if_neg hk] at hread
        cases hrest : readAll pos v nbytes fuel (output pos s1 (s1.vnodes v).data ⟨nbytes, offset, []⟩).listing.offset
            s1 with
        | error e s2 =>
          rw [bind_of_error hrest] at hread
          cases hread
        | ok ds' s2 => exact ih hnext ds' hrest

/--
The inode number and the name of every record that a directory should have.
-/
def inventory (s : St) (n : Nat) : List (Nat × Name) :=
  (n, ['.']) :: ((s.nodes n).parent, ['.', '.']) :: (s.nodes n).dentry.map fun de => (de.node, de.name)

theorem output_empty (h : Listable s v) (hempty : (s.nodes (s.vnodes v).data).dentry = [])
    : (output pos s (s.vnodes v).data ⟨nbytes, SEQ_DOT, []⟩).listing =
          dotted pos s (s.vnodes v).data ⟨nbytes, SEQ_DOT, []⟩ ∧
        (output pos s (s.vnodes v).data ⟨nbytes, SEQ_DOT, []⟩).stop =
          if (s.nodes (s.vnodes v).data).wild then some .fault else none := by
  rcases @output_eq_scan pos s ⟨nbytes, SEQ_DOT, []⟩ (s.vnodes v).data h.seq rfl with ⟨hlisting, hstop⟩
  have hnil : entriesFrom (s.nodes (s.vnodes v).data).dentry SEQ_DOT = [] := by
    unfold entriesFrom
    rw [if_pos (Or.inl rfl), hempty]
  rw [hnil, scan] at hlisting hstop
  exact ⟨hlisting, hstop (by intro heof; cases heof)⟩

theorem output_eof
    : output pos s n ⟨nbytes, SEQ_EOF, []⟩ = { listing := ⟨nbytes, SEQ_EOF, []⟩, stop := none } := by
  have hdotted : dotted pos s n ⟨nbytes, SEQ_EOF, []⟩ = ⟨nbytes, SEQ_EOF, []⟩ := by
    have hdot : SEQ_EOF ≠ SEQ_DOT := by decide
    have hdotdot : SEQ_EOF ≠ SEQ_DOTDOT := by decide
    unfold dotted
    simp only [hdot, hdotdot, if_false]
  unfold output
  dsimp only
  rw [hdotted, if_neg (by rintro ⟨hoffset | hoffset, _⟩ <;> cases hoffset), if_pos rfl]

theorem dotted_dot
    : (dotted pos s n ⟨nbytes, SEQ_DOT, []⟩).total = get_reclen pos ['.'] + get_reclen pos ['.', '.'] := by
  rw [total_eq, (@dotted_eq pos s ⟨nbytes, SEQ_DOT, []⟩ n rfl).1]
  unfold dotRecords size
  simp

/--
The calls end and give every entry once if and only if the directory is empty, and the buffer has space for the
records of `.` and `..`.
-/
theorem readAll_complete_iff (pos : Nat) (s : St) (v : Nat) (nbytes : BitVec 64) (h : Listable s v)
    (hlock : (s.vnodes v).lock = false) (hdir : (s.vnodes v).type = .VDIR) (hpos : pos + 256 < 2 ^ 16)
    : (∃ fuel ds s', readAll pos v nbytes fuel SEQ_DOT s = .ok ds s' ∧
          (ds.map fun d => (d.ino, d.name)).Perm (inventory s (s.vnodes v).data)) ↔
        (s.nodes (s.vnodes v).data).dentry = [] ∧ (s.nodes (s.vnodes v).data).wild = false ∧
          get_reclen pos ['.'] + get_reclen pos ['.', '.'] ≤ nbytes.toNat := by
  constructor
  . rintro ⟨fuel, ds, s', hread, _⟩
    have hempty : (s.nodes (s.vnodes v).data).dentry = [] := by
      by_contra hne
      exact readAll_never h hlock hdir hpos hne fuel (Or.inl rfl) ds hread
    rcases @output_empty pos s v nbytes h hempty with ⟨hlisting, hwild⟩
    cases fuel with
    | zero => cases hread
    | succ fuel =>
      unfold readAll at hread
      cases hreaddir : vfs_readdir pos v nbytes SEQ_DOT s with
      | error e s1 =>
        rw [bind_of_error hreaddir] at hread
        cases hread
      | ok a s1 =>
        rcases a with ⟨error, k, r⟩
        rcases of_readdir_ok h hlock hdir hreaddir with ⟨rfl, hstop, rfl, rfl⟩
        rw [bind_of_ok hreaddir] at hread
        dsimp only at hread
        rw [hlisting, dotted_dot] at hread
        rw [hwild] at hstop
        refine ⟨hempty, ?_, ?_⟩
        . cases hw : (s1.nodes (s1.vnodes v).data).wild with
          | false => rfl
          | true =>
            rw [hw] at hstop
            cases hstop
        . by_contra hlt
          rw [if_pos (Nat.not_le.mp hlt)] at hread
          cases hread
  . rintro ⟨hempty, hwild, hle⟩
    rcases @output_empty pos s v nbytes h hempty with ⟨hlisting, hstop⟩
    rw [hwild] at hstop
    have hfirst := @readdir_ok pos s v nbytes SEQ_DOT h hlock hdir hstop
    have hlast := @readdir_ok pos s v nbytes SEQ_EOF h hlock hdir (by rw [output_eof])
    rcases @dotted_eq pos s ⟨nbytes, SEQ_DOT, []⟩ (s.vnodes v).data rfl with ⟨hrecords, hoffset⟩
    rw [if_pos (Or.inl rfl), hempty] at hoffset
    rw [hlisting] at hfirst
    rw [output_eof] at hlast
    refine ⟨2, dotRecords pos s (s.vnodes v).data SEQ_DOT, s, ?_, ?_⟩
    . unfold readAll
      rw [bind_of_ok hfirst]
      dsimp only
      rw [if_neg (by rw [dotted_dot]; omega), if_neg]
      . rw [hoffset]
        dsimp only [List.head?_nil, Option.elim_none]
        rw [bind_of_ok]
        rotate_left
        . unfold readAll
          rw [bind_of_ok hlast]
          rfl
        . rw [hrecords]
          simp
          rfl
      . rw [dotted_dot]
        apply ofNat_ne_zero _ hle
        rw [get_reclen_pos hpos (by decide)]
        omega
    . unfold dotRecords inventory
      rw [hempty]
      exact List.Perm.refl _

theorem readAll_complete_rootMounted
    : (∃ fuel ds s', readAll 13 0 4096 fuel SEQ_DOT rootMounted = .ok ds s' ∧
          (ds.map fun d => (d.ino, d.name)).Perm (inventory rootMounted (rootMounted.vnodes 0).data)) ↔
        (rootMounted.nodes (rootMounted.vnodes 0).data).dentry = [] ∧
          (rootMounted.nodes (rootMounted.vnodes 0).data).wild = false ∧
          get_reclen 13 ['.'] + get_reclen 13 ['.', '.'] ≤ (4096 : BitVec 64).toNat :=
  readAll_complete_iff 13 rootMounted 0 4096 rootMounted_root.1 rootMounted_root.2.1 rootMounted_root.2.2
    (by decide)

theorem not_readAll_complete
    : Listable oneDir 0 ∧ (∀ fuel ds s', readAll 13 0 4096 fuel SEQ_DOT oneDir ≠ .ok ds s') ∧
        (result (vfs_readdir 13 0 4096 SEQ_DOT) oneDir).map (fun r => (r.2.2.offset, r.2.2.records.map (·.name))) =
          some (3, [['.'], ['.', '.'], ['a']]) ∧
        (result (vfs_readdir 13 0 4096 3) oneDir).map (fun r => (r.2.2.offset, r.2.2.records.map (·.name))) =
          some (3, [['a']]) := by
  rcases oneDir_root with ⟨hlist, hlock, hdir, _, hdentry, _, hfirst, hnext⟩
  refine ⟨hlist, ?_, hfirst, hnext⟩
  intro fuel ds s'
  apply readAll_never hlist hlock hdir
  . decide
  . rw [hdentry]
    exact List.cons_ne_nil _ _
  . exact Or.inl rfl

end ramfs_readdir

end Fs
end Franklin
