import Franklin.Fs.Dir
import Franklin.Fs.Lemmas.Dirent

/-!
This module contains what the number of a dentry means to `ramfs_readdir` as long as the numbers do not begin again.
-/

namespace Franklin
namespace Fs

open ramfs_readdir (Proper acquireNode_held dotRecords dotted dotted_eq entriesFrom getNode_eq held held_nodes output
  output_eq_scan readdir_ok records records_of_proper scan scan_all size spans_dotted total_eq)

namespace Dir

variable {dir dir' dir₁ : Dir} {ops ops₁ ops₂ : List Op} {de de' : Dentry} {addr : Nat}
  {entries entries' before behind : List Dentry}

structure Ordered (dir : Dir) : Prop where
  decreasing : dir.dentry.Pairwise fun de de' => de'.seq < de.seq
  range : ∀ de ∈ dir.dentry, SEQ_START ≤ de.seq.toNat ∧ de.seq < dir.lastseq
  start : SEQ_START ≤ dir.lastseq.toNat

/--
A dentry that has been attached, and is not detached since, is in the list with the same number, and behind it is
nothing but what has been behind it then.
-/
def Fixed (ops : List Op) (dir : Dir) : Prop :=
  ∀ ops₁ ops₂ dir₁ before de behind, ops = ops₁ ++ ops₂ → run new ops₁ = some dir₁ →
    dir₁.dentry = before ++ de :: behind → Op.detach de.addr ∉ ops₂ →
    ∃ before' behind', dir.dentry = before' ++ de :: behind' ∧ behind'.Sublist behind

def Resumes (dir : Dir) : Prop :=
  ∀ before de behind, dir.dentry = before ++ de :: behind →
    ∀ (pos : Nat) (s : St) (v : Nat) (nbytes : BitVec 64), pos + 256 < 2 ^ 16 →
      (s.vnodes v).freed = false → (s.vnodes v).lock = false → (s.vnodes v).type = .VDIR →
      (s.nodes (s.vnodes v).data).ramlock = false → dir.Of (s.nodes (s.vnodes v).data) →
      (∀ e ∈ de :: behind, Proper (fun m => (s.nodes m).type) e.ram) →
      ((de :: behind).map fun e => get_reclen pos e.name).sum ≤ nbytes.toNat →
      ∃ k r, vfs_readdir pos v nbytes de.seq.toNat s = .ok (none, k, r) s ∧
        r.records.map (fun d => (d.ino, d.name)) = (de :: behind).map fun e => (e.node, e.name)

/--
What is expected of the numbers after a sequence of operations.
-/
structure Offsets (ops : List Op) (dir : Dir) : Prop where
  ordered : dir.Ordered
  fixed : dir.Fixed ops
  unique : ∀ de ∈ dir.dentry, ∀ de' ∈ dir.dentry, de.seq = de'.seq → de = de'
  resumes : dir.Resumes

theorem ordered_new : Ordered new where
  decreasing := List.Pairwise.nil
  range de hde := by cases hde
  start := by decide

theorem Ordered.attach (h : dir.Ordered) (hlast : dir.lastseq.toNat + 1 < 2 ^ 64)
    : (dir.ramfs_dir_attach de).Ordered := by
  have hnext : (dir.lastseq + 1#64).toNat = dir.lastseq.toNat + 1 := BitVec.toNat_add_of_lt hlast
  constructor
  . exact List.pairwise_cons.mpr ⟨fun e he => (h.range e he).2, h.decreasing⟩
  . intro e he
    unfold ramfs_dir_attach
    dsimp only
    rw [BitVec.lt_def, hnext]
    rcases List.mem_cons.mp he with rfl | he
    . exact ⟨h.start, Nat.lt_succ_self _⟩
    . have hrange := h.range e he
      exact ⟨hrange.1, Nat.lt_succ_of_lt (BitVec.lt_def.mp hrange.2)⟩
  . have hstart := h.start
    unfold ramfs_dir_attach
    dsimp only
    omega

theorem remove_sublist (h : ramfs_dir_detach.remove addr entries = some entries') : entries'.Sublist entries := by
  induction entries generalizing entries' with
  | nil => cases h
  | cons de entries ih =>
    unfold ramfs_dir_detach.remove at h
    split at h
    . obtain rfl := Option.some.inj h
      exact List.sublist_cons_self ..
    . rcases Option.map_eq_some_iff.mp h with ⟨entries'', hremove, rfl⟩
      exact (ih hremove).cons_cons de

theorem remove_split (h : ramfs_dir_detach.remove addr (before ++ de :: behind) = some entries')
    (hne : de.addr ≠ addr)
    : ∃ before' behind', entries' = before' ++ de :: behind' ∧ behind'.Sublist behind := by
  induction before generalizing entries' with
  | nil =>
    rw [List.nil_append] at h
    unfold ramfs_dir_detach.remove at h
    rw [if_neg hne] at h
    rcases Option.map_eq_some_iff.mp h with ⟨behind', hremove, rfl⟩
    exact ⟨[], behind', rfl, remove_sublist hremove⟩
  | cons e before ih =>
    rw [List.cons_append] at h
    unfold ramfs_dir_detach.remove at h
    split at h
    . obtain rfl := Option.some.inj h
      exact ⟨before, behind, rfl, List.Sublist.refl behind⟩
    . rcases Option.map_eq_some_iff.mp h with ⟨entries'', hremove, rfl⟩
      rcases ih hremove with ⟨before', behind', rfl, hsub⟩
      exact ⟨e :: before', behind', rfl, hsub⟩

theorem detach_eq_some (h : dir.ramfs_dir_detach addr = some dir')
    : ramfs_dir_detach.remove addr dir.dentry = some dir'.dentry ∧ dir'.lastseq = dir.lastseq := by
  unfold ramfs_dir_detach at h
  rcases Option.map_eq_some_iff.mp h with ⟨entries, hremove, rfl⟩
  exact ⟨hremove, rfl⟩

theorem Ordered.detach (h : dir.Ordered) (hdetach : dir.ramfs_dir_detach addr = some dir') : dir'.Ordered := by
  rcases detach_eq_some hdetach with ⟨hremove, hlast⟩
  have hsub := remove_sublist hremove
  constructor
  . exact h.decreasing.sublist hsub
  . intro e he
    rw [hlast]
    exact h.range e (hsub.subset he)
  . rw [hlast]
    exact h.start

theorem run_attach (h : run dir (.attach de :: ops) = some dir') : run (dir.ramfs_dir_attach de) ops = some dir' := by
  unfold run at h
  split at h
  . exact h
  . cases h

theorem run_detach (h : run dir (.detach addr :: ops) = some dir')
    : ∃ dir₁, dir.ramfs_dir_detach addr = some dir₁ ∧ run dir₁ ops = some dir' := by
  unfold run at h
  exact Option.bind_eq_some_iff.mp h

theorem Ordered.run (h : dir.Ordered) (hcount : dir.lastseq.toNat + attaches ops < 2 ^ 64)
    (hrun : run dir ops = some dir') : dir'.Ordered := by
  induction ops generalizing dir with
  | nil =>
    obtain rfl := Option.some.inj hrun
    exact h
  | cons op ops ih =>
    cases op with
    | attach de =>
      unfold attaches at hcount
      have hlast : dir.lastseq.toNat + 1 < 2 ^ 64 := by omega
      have hnext : (dir.lastseq + 1#64).toNat = dir.lastseq.toNat + 1 := BitVec.toNat_add_of_lt hlast
      apply ih (h.attach hlast) _ (run_attach hrun)
      unfold ramfs_dir_attach
      dsimp only
      omega
    | detach addr =>
      unfold attaches at hcount
      rcases run_detach hrun with ⟨dir₁, hdetach, hrun⟩
      apply ih (h.detach hdetach) _ hrun
      rw [(detach_eq_some hdetach).2]
      exact hcount

theorem run_split (hrun : run dir ops = some dir') (hdentry : dir.dentry = before ++ de :: behind)
    (hde : Op.detach de.addr ∉ ops)
    : ∃ before' behind', dir'.dentry = before' ++ de :: behind' ∧ behind'.Sublist behind := by
  induction ops generalizing dir before behind with
  | nil =>
    obtain rfl := Option.some.inj hrun
    exact ⟨before, behind, hdentry, List.Sublist.refl behind⟩
  | cons op ops ih =>
    rw [List.mem_cons, not_or] at hde
    cases op with
    | attach de' =>
      apply ih (run_attach hrun) _ hde.2
      . exact { de' with seq := dir.lastseq } :: before
      . unfold ramfs_dir_attach
        rw [hdentry]
        rfl
    | detach addr =>
      rcases run_detach hrun with ⟨dir₁, hdetach, hrun⟩
      have hne : de.addr ≠ addr := by
        rintro rfl
        exact hde.1 rfl
      have hremove := (detach_eq_some hdetach).1
      rw [hdentry] at hremove
      rcases remove_split hremove hne with ⟨before₁, behind₁, hdentry₁, hsub₁⟩
      rcases ih hrun hdentry₁ hde.2 with ⟨before', behind', hdentry', hsub'⟩
      exact ⟨before', behind', hdentry', hsub'.trans hsub₁⟩

theorem run_append (ops₁ ops₂ : List Op) : run dir (ops₁ ++ ops₂) = (run dir ops₁).bind fun dir => run dir ops₂ := by
  induction ops₁ generalizing dir with
  | nil => rfl
  | cons op ops₁ ih =>
    cases op with
    | attach de =>
      rw [List.cons_append, run, run]
      split
      . exact ih
      . rfl
    | detach addr =>
      rw [List.cons_append, run, run, Option.bind_assoc]
      congr 1
      funext dir
      exact ih

theorem fixed_of_run (hrun : run new ops = some dir) : dir.Fixed ops := by
  intro ops₁ ops₂ dir₁ before de behind hops hrun₁ hdentry hde
  rw [hops, run_append, hrun₁, Option.bind_some] at hrun
  exact run_split hrun hdentry hde

theorem Ordered.unique (h : dir.Ordered) (hde : de ∈ dir.dentry) (hde' : de' ∈ dir.dentry) (hseq : de.seq = de'.seq)
    : de = de' := by
  by_contra hne
  rcases List.mem_iff_append.mp hde with ⟨before, behind, hdentry⟩
  have hdecreasing := h.decreasing
  rw [hdentry] at hde' hdecreasing
  rw [List.pairwise_append, List.pairwise_cons] at hdecreasing
  rcases hdecreasing with ⟨_, ⟨hbehind, _⟩, hbefore⟩
  rcases List.mem_append.mp hde' with hmem | hmem
  . have hlt := hbefore de' hmem de (List.mem_cons_self ..)
    rw [hseq] at hlt
    exact absurd hlt (BitVec.lt_irrefl _)
  . rcases List.mem_cons.mp hmem with rfl | hmem
    . exact hne rfl
    . have hlt := hbehind de' hmem
      rw [hseq] at hlt
      exact absurd hlt (BitVec.lt_irrefl _)

theorem Ordered.dropWhile (h : dir.Ordered) (hdentry : dir.dentry = before ++ de :: behind)
    : (dir.dentry.map Dentry.ram).dropWhile (fun e => e.seq ≠ de.seq.toNat) = (de :: behind).map Dentry.ram := by
  have hdecreasing := h.decreasing
  rw [hdentry, List.pairwise_append] at hdecreasing
  rw [hdentry, List.map_append, List.dropWhile_append_of_pos]
  . rw [List.map_cons, List.dropWhile_cons_of_neg]
    unfold Dentry.ram
    simp
  . intro e he
    rcases List.mem_map.mp he with ⟨e', he', rfl⟩
    have hlt := BitVec.lt_def.mp (hdecreasing.2.2 e' he' de (List.mem_cons_self ..))
    have hne : e'.seq.toNat ≠ de.seq.toNat := by omega
    unfold Dentry.ram
    simpa using hne

theorem Ordered.nodup (h : dir.Ordered) : ((dir.dentry.map Dentry.ram).map (·.seq)).Nodup := by
  rw [List.map_map, List.nodup_iff_pairwise_ne, List.pairwise_map]
  apply h.decreasing.imp
  intro e e' hlt
  have hlt := BitVec.lt_def.mp hlt
  unfold Dentry.ram
  dsimp only [Function.comp_apply]
  omega

theorem Ordered.listable {s : St} {v : Nat} (h : dir.Ordered) (hof : dir.Of (s.nodes (s.vnodes v).data))
    (hfreed : (s.vnodes v).freed = false)
    (hramlock : (s.nodes (s.vnodes v).data).ramlock = false) : Listable s v where
  freed := hfreed
  ramlock := hramlock
  seq e he := by
    rw [hof.dentry] at he
    rcases List.mem_map.mp he with ⟨e', he', rfl⟩
    exact (h.range e' he').1
  nodup := by
    rw [hof.dentry]
    exact h.nodup

theorem Ordered.resumes (h : dir.Ordered) : dir.Resumes := by
  intro before de behind hdentry pos s v nbytes hpos hfreed hlock htype hramlock hof hproper hspace
  have hlistable := h.listable hof hfreed hramlock
  have hstart := (h.range de (by rw [hdentry]; exact List.mem_append_right _ (List.mem_cons_self ..))).1
  unfold SEQ_START at hstart
  have hdots : ¬ (de.seq.toNat = SEQ_DOT ∨ de.seq.toNat = SEQ_DOTDOT) := by
    unfold SEQ_DOT SEQ_DOTDOT
    omega
  have hfrom : entriesFrom (s.nodes (s.vnodes v).data).dentry de.seq.toNat =
      (de :: behind).map Dentry.ram := by
    unfold entriesFrom
    rw [if_neg hdots, hof.dentry]
    exact h.dropWhile hdentry
  -- nothing is written for `.` and `..`
  have hdotted : (dotted pos s (s.vnodes v).data ⟨nbytes, de.seq.toNat, []⟩).records = [] := by
    rw [(@dotted_eq pos s ⟨nbytes, de.seq.toNat, []⟩ (s.vnodes v).data rfl).1]
    unfold dotRecords
    rw [if_neg (fun hdot => hdots (.inl hdot)), if_neg hdots]
    rfl
  have hproper' : ∀ e ∈ (de :: behind).map Dentry.ram, Proper (fun m => (s.nodes m).type) e := by
    intro e he
    rcases List.mem_map.mp he with ⟨e', he', rfl⟩
    exact hproper e' he'
  rcases records_of_proper hpos hproper' with ⟨hmap, hsize, _⟩
  rw [List.map_map] at hmap hsize
  have hall := @scan_all pos nbytes (fun m => (s.nodes m).type) ((de :: behind).map Dentry.ram)
    (dotted pos s (s.vnodes v).data ⟨nbytes, de.seq.toNat, []⟩) hpos hproper' spans_dotted
    (by rw [total_eq, hdotted, hsize]; exact (Nat.zero_add _).trans_le hspace)
  rcases @output_eq_scan pos s ⟨nbytes, de.seq.toNat, []⟩ (s.vnodes v).data hlistable.seq rfl with ⟨hlisting, hstop⟩
  have hstop := hstop fun _ => hof.wild
  rw [hfrom, hof.wild] at hlisting hstop
  rw [hall.2] at hstop
  refine ⟨_, _, readdir_ok hlistable hlock htype hstop, ?_⟩
  rw [hlisting, hall.1, hdotted, List.nil_append, hmap]
  rfl

section Ram

variable {s : St} {n : Nat}

theorem Of.attach (h : dir.Of (s.nodes n)) (htype : (s.nodes n).type = .VDIR) (hlock : (s.nodes n).ramlock = false)
    (hlast : dir.lastseq.toNat + 1 < 2 ^ 64)
    : ∃ s', Fs.ramfs_dir_attach n de.ram s = .ok none s' ∧ (dir.ramfs_dir_attach de).Of (s'.nodes n) := by
  have htype' : ¬ ((held s n).nodes n).type ≠ .VDIR := by
    rw [held_nodes]
    exact fun hne => hne htype
  unfold Fs.ramfs_dir_attach
  rw [bind_of_ok (acquireNode_held hlock), bind_of_ok (getNode_eq n), if_neg htype']
  let f : RamNode → RamNode := fun node =>
    { node with
      dentry := { de.ram with seq := node.lastseq } :: node.dentry
      lastseq := node.lastseq + 1
      linkcount := node.linkcount + 1 }
  refine ⟨((held s n).updNode n f).updNode n fun node => { node with ramlock := false }, rfl, ?_⟩
  rw [St.updNode_nodes_self, St.updNode_nodes_self, held_nodes]
  constructor
  . change { de.ram with seq := (s.nodes n).lastseq } :: (s.nodes n).dentry = _
    rw [h.dentry, h.lastseq]
    rfl
  . change (s.nodes n).lastseq + 1 = (dir.lastseq + 1#64).toNat
    rw [h.lastseq, BitVec.toNat_add_of_lt hlast]
    rfl
  . exact h.wild

theorem ram_injective (h : dir.Ordered) (hde : de ∈ dir.dentry) (hde' : de' ∈ dir.dentry) (hram : de.ram = de'.ram)
    : de = de' := by
  apply h.unique hde hde'
  exact BitVec.eq_of_toNat_eq (congrArg RamDentry.seq hram)

theorem remove_erase (hinj : ∀ e ∈ entries, e.ram = de.ram → e = de)
    (haddr : ∀ e ∈ entries, e.addr = de.addr → e = de)
    (h : ramfs_dir_detach.remove de.addr entries = some entries')
    : (entries.map Dentry.ram).erase de.ram = entries'.map Dentry.ram := by
  induction entries generalizing entries' with
  | nil => cases h
  | cons e entries ih =>
    have hinj' := fun e' he' => hinj e' (List.mem_cons_of_mem e he')
    have haddr' := fun e' he' => haddr e' (List.mem_cons_of_mem e he')
    unfold ramfs_dir_detach.remove at h
    split at h
    . next hhere =>
      obtain rfl := haddr e (List.mem_cons_self ..) hhere
      obtain rfl := Option.some.inj h
      rw [List.map_cons, List.erase_cons_head]
    . next hne =>
      rcases Option.map_eq_some_iff.mp h with ⟨entries'', hremove, rfl⟩
      have hram : ¬ (e.ram == de.ram) = true := by
        intro heq
        exact hne (congrArg Dentry.addr (hinj e (List.mem_cons_self ..) (eq_of_beq heq)))
      rw [List.map_cons, List.erase_cons_tail hram, ih hinj' haddr' hremove, List.map_cons]

theorem Of.detach (h : dir.Of (s.nodes n)) (hordered : dir.Ordered) (hlock : (s.nodes n).ramlock = false)
    (haddr : (dir.dentry.map Dentry.addr).Nodup) (hde : de ∈ dir.dentry)
    (hdetach : dir.ramfs_dir_detach de.addr = some dir')
    : ∃ s', Fs.ramfs_dir_detach n de.ram s = .ok () s' ∧ dir'.Of (s'.nodes n) := by
  rcases detach_eq_some hdetach with ⟨hremove, hlast⟩
  have herase := remove_erase (fun e he hram => ram_injective hordered he hde hram)
    (fun e he heq => List.inj_on_of_nodup_map haddr he hde heq) hremove
  unfold Fs.ramfs_dir_detach
  rw [bind_of_ok (acquireNode_held hlock)]
  let f : RamNode → RamNode := fun node =>
    { node with linkcount := node.linkcount - 1, dentry := node.dentry.erase de.ram }
  refine ⟨((held s n).updNode n f).updNode n fun node => { node with ramlock := false }, rfl, ?_⟩
  rw [St.updNode_nodes_self, St.updNode_nodes_self, held_nodes]
  constructor
  . change (s.nodes n).dentry.erase de.ram = _
    rw [h.dentry, herase]
  . change (s.nodes n).lastseq = _
    rw [h.lastseq, hlast]
  . exact h.wild

end Ram

theorem offsets (ops : List Op) (dir : Dir) (hrun : run new ops = some dir)
    (hcount : attaches ops < 2 ^ 64 - SEQ_START)
    : Offsets ops dir := by
  have hnew : new.lastseq.toNat = SEQ_START := by decide
  have hordered : dir.Ordered := by
    apply ordered_new.run _ hrun
    rw [hnew]
    omega
  exact ⟨hordered, fixed_of_run hrun, fun de hde de' hde' hseq => hordered.unique hde hde' hseq, hordered.resumes⟩

theorem offsets_detached
    : Offsets [.attach ⟨64, ['a'], 1, 0#64⟩, .attach ⟨128, ['b'], 2, 0#64⟩, .detach 64]
        ⟨[⟨128, ['b'], 2, 4#64⟩], 5#64⟩ :=
  offsets _ _ (by decide) (by decide)

def churn : Nat → List Op
  | 0 => []
  | k + 1 => .attach ⟨64, ['a'], 1, 0#64⟩ :: .detach 64 :: churn k

theorem run_churn (k : Nat) (lastseq : BitVec 64)
    : run ⟨[], lastseq⟩ (churn k) = some ⟨[], lastseq + BitVec.ofNat 64 k⟩ := by
  induction k generalizing lastseq with
  | zero => exact congrArg (fun n => some (Dir.mk [] n)) (BitVec.add_zero lastseq).symm
  | succ k ih =>
    have hnext : lastseq + 1#64 + BitVec.ofNat 64 k = lastseq + BitVec.ofNat 64 (k + 1) := by
      rw [BitVec.add_assoc, BitVec.ofNat_add, BitVec.add_comm 1#64]
    rw [← hnext, ← ih]
    rfl

theorem exists_run_last : ∃ ops, run new ops = some ⟨[], BitVec.allOnes 64⟩ := by
  refine ⟨churn (2 ^ 64 - 4), ?_⟩
  unfold new
  rw [run_churn]
  rfl

theorem not_offsets
    : (∃ ops dir, run new ops = some dir ∧ ¬ dir.Ordered) ∧
      (∃ dir, run new [.attach ⟨64, ['x'], 1, 0#64⟩] = some dir ∧
        dir.Of (ramfs_readdir.oneNone.nodes (ramfs_readdir.oneNone.vnodes 0).data) ∧
        stops (vfs_readdir 13 0 4096 SEQ_START) ramfs_readdir.oneNone (.panic "ramfs_readdir: unknown type")) := by
  constructor
  . rcases exists_run_last with ⟨ops, hops⟩
    refine ⟨ops ++ [.attach ⟨64, ['a'], 1, 0#64⟩], ⟨[⟨64, ['a'], 1, BitVec.allOnes 64⟩], 0#64⟩, ?_, ?_⟩
    . rw [run_append, hops]
      rfl
    . intro h
      have hlt := (h.range _ (List.mem_cons_self ..)).2
      exact absurd hlt (by decide)
  . refine ⟨⟨[⟨64, ['x'], 1, 3#64⟩], 4#64⟩, by decide, ⟨?_, ?_, ?_⟩, ?_⟩
    . decide +kernel
    . decide +kernel
    . decide +kernel
    . decide +kernel

end Dir
end Fs
end Franklin
