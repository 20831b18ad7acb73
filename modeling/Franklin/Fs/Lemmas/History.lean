import Franklin.Lib.Journal
import Franklin.Fs.Lemmas.Outcome

/-!
This module contains what is in the directories after any sequence of calls: the names that calls have put there and
that no later call has taken away.
-/

namespace Franklin
namespace Fs

def View.lookup (w : View) (key : Nat × Name) : Option Nat :=
  ((w.file key.1).entries.find? fun entry => entry.1 = key.2).map Prod.snd

/--
What a change does to a name in a directory. A new directory has no names.
-/
def Edit.effect : Edit → Nat × Name → Option (Option Nat)
  | create d name n _ _, key => if key = (d, name) then some (some n) else if key.1 = n then some none else none
  | link d name n, key => if key = (d, name) then some (some n) else none
  | remove d name, key => if key = (d, name) then some none else none
  | mount n, key => if key.1 = n then some none else none
  | unmount ns, key => if key.1 ∈ ns then some none else none

def Call.edit (st : St) (fuel : Nat) (call : Call) : Option Edit :=
  (call.outcome st fuel).bind Outcome.edit

/--
The states that calls lead to after the boot, with the changes that they have made.
-/
inductive Call.Logged (junk : Junk) : List Edit → St → Prop where
  | boot {s : St} (h : boot (.empty junk) = .ok () s) : Logged junk [] s
  | memory {s : St} {log : List Edit} (h : Logged junk log s) (junk' : Junk) : Logged junk log { s with junk := junk' }
  | step {s s' : St} {log : List Edit} {fuel : Nat} {call : Call} {r : Code × Option Nat}
    (h : Logged junk log s) (hcond : KCall.Orderly s fuel (.call call)) (hrun : call.run fuel s = .ok r s')
    : Logged junk (log ++ (call.edit s fuel).toList) s'

namespace View

variable {w : View} {d n : Nat} {name : Name} {key : Nat × Name}

theorem lookup_congr {w' : View} (h : (w'.file key.1).entries = (w.file key.1).entries) : w'.lookup key = w.lookup key := by
  unfold lookup
  rw [h]

theorem lookup_of_nil (h : (w.file key.1).entries = []) : w.lookup key = none := by
  unfold lookup
  rw [h]
  rfl

theorem lookup_bind (w : View) (d : Nat) (name : Name) (n : Nat) (key : Nat × Name)
    : (w.bind d name n).lookup key = if key = (d, name) then some n else w.lookup key := by
  rcases key with ⟨m, c⟩
  unfold bind
  by_cases hm : m = d
  . subst hm
    unfold lookup
    rw [setEntries_file_self]
    dsimp only
    by_cases hc : c = name
    . rw [List.find?_cons_of_pos (by simp [hc]), if_pos (by rw [hc])]
      rfl
    . rw [List.find?_cons_of_neg (by simpa using fun h => hc h.symm), if_neg (by simpa using hc)]
  . rw [if_neg (by simp [hm]), lookup_congr]
    rw [setEntries_file_of_ne _ _ hm]

theorem lookup_add (w : View) (n : Nat) {file : FileView} (hfile : file.entries = []) (key : Nat × Name)
    : (w.add n file).lookup key = if key.1 = n then none else w.lookup key := by
  unfold add
  by_cases hn : key.1 = n
  . rw [if_pos hn, lookup_of_nil]
    dsimp only
    rw [hn, Function.update_self, hfile]
  . rw [if_neg hn, lookup_congr]
    dsimp only
    rw [Function.update_of_ne hn]

theorem find_eraseP_self {entries : List (Name × Nat)} (h : (entries.map Prod.fst).Nodup)
    : (entries.eraseP fun entry => entry.1 = name).find? (fun entry => entry.1 = name) = none := by
  induction entries with
  | nil => rfl
  | cons entry entries ih =>
    rw [List.map_cons, List.nodup_cons] at h
    by_cases hname : entry.1 = name
    . rw [List.eraseP_cons_of_pos (by simpa using hname), List.find?_eq_none]
      intro entry' hmem heq
      apply h.1
      rw [hname, ← of_decide_eq_true heq]
      exact List.mem_map_of_mem hmem
    . rw [List.eraseP_cons_of_neg (by simpa using hname), List.find?_cons_of_neg (by simpa using hname), ih h.2]

theorem find_eraseP_of_ne {entries : List (Name × Nat)} {c : Name} (h : c ≠ name)
    : (entries.eraseP fun entry => entry.1 = name).find? (fun entry => entry.1 = c) =
        entries.find? fun entry => entry.1 = c := by
  induction entries with
  | nil => rfl
  | cons entry entries ih =>
    by_cases hname : entry.1 = name
    . have hne : ¬ entry.1 = c := fun hc => h (hc.symm.trans hname)
      rw [List.eraseP_cons_of_pos (by simpa using hname), List.find?_cons_of_neg (by simpa using hne)]
    . rw [List.eraseP_cons_of_neg (by simpa using hname), List.find?_cons, List.find?_cons, ih]

theorem lookup_remove (hunique : ((w.file d).entries.map Prod.fst).Nodup)
    : (w.apply (.remove d name)).lookup key = if key = (d, name) then none else w.lookup key := by
  rcases key with ⟨m, c⟩
  unfold apply
  dsimp only
  by_cases hm : m = d
  . subst hm
    unfold lookup
    rw [setEntries_file_self]
    dsimp only
    by_cases hc : c = name
    . subst hc
      rw [if_pos rfl, find_eraseP_self hunique]
      rfl
    . rw [find_eraseP_of_ne hc, if_neg (by simpa using hc)]
  . rw [if_neg (by simp [hm]), lookup_congr]
    rw [setEntries_file_of_ne _ _ hm]

theorem lookup_unmount (hleaf : ∀ n, (w.file n).type ≠ .VDIR → (w.file n).entries = []) (ns : List Nat)
    : (w.apply (.unmount ns)).lookup key = if key.1 ∈ ns then none else w.lookup key := by
  by_cases hmem : key.1 ∈ ns
  . rw [if_pos hmem, lookup_of_nil]
    rw [unmount_file]
    split
    . rfl
    . next hnot => exact hleaf _ fun hdir => hnot ⟨hmem, hdir⟩
  . rw [if_neg hmem, lookup_congr]
    rw [unmount_file, if_neg fun h => hmem h.1]

theorem lookup_apply (hunique : ∀ d, ((w.file d).entries.map Prod.fst).Nodup)
    (hleaf : ∀ n, (w.file n).type ≠ .VDIR → (w.file n).entries = []) (edit : Edit) (key : Nat × Name)
    : (w.apply edit).lookup key = (edit.effect key).getD (w.lookup key) := by
  unfold Edit.effect
  cases edit with
  | create d name n type link =>
    show ((w.add n _).bind d name n).lookup key = _
    rw [lookup_bind, lookup_add _ _ rfl]
    dsimp only
    split
    . rfl
    . split <;> rfl
  | link d name n =>
    show (w.bind d name n).lookup key = _
    rw [lookup_bind]
    dsimp only
    split <;> rfl
  | remove d name =>
    rw [lookup_remove (hunique d)]
    dsimp only
    split <;> rfl
  | mount n =>
    show (w.add n _).lookup key = _
    rw [lookup_add _ _ rfl]
    dsimp only
    split <;> rfl
  | unmount ns =>
    rw [lookup_unmount hleaf]
    dsimp only
    split <;> rfl

end View

theorem Grown.of_boot {junk : Junk} {s : St} (h : boot (.empty junk) = .ok () s) : Grown s := by
  rcases ok_of_bind h with ⟨error, s1, hmount, hinit⟩
  have hempty : Grown (.empty junk) := ⟨fun _ => 0, Sown.empty _ junk⟩
  have hgrown : Grown s1 := by
    have hcond : KCall.Orderly (.empty junk) 0 (.vfs_mount_root ['r', 'a', 'm', 'f', 's']) := trivial
    have hwp := KCall.wp_grown hempty hcond
    unfold KCall.run at hwp
    rw [wp_bind] at hwp
    exact (wp_of_ok hmount).mp hwp
  have hcond : KCall.Orderly s1 0 .init_rootvn := trivial
  have hwp := KCall.wp_grown hgrown hcond
  unfold KCall.run at hwp
  rw [wp_bind] at hwp
  exact (wp_of_ok hinit).mp hwp

namespace Call.Logged

variable {junk : Junk} {log : List Edit} {s : St}

theorem sound (h : Logged junk log s) : Grown s ∧ UniqueNames s := by
  induction h with
  | boot h =>
    refine ⟨.of_boot h, ?_⟩
    rw [(wp_of_ok h).mp (wp_boot junk)]
    intro n
    rw [booted_dentry]
    apply List.nodup_nil
  | memory _ junk' ih => exact ⟨ih.1.memory junk', ih.2⟩
  | @step s s' log fuel call r h hcond hrun ih =>
    rcases ih with ⟨hgrown, hunique⟩
    refine ⟨(wp_of_ok hrun).mp (KCall.wp_grown hgrown hcond), ?_⟩
    rcases hgrown with ⟨own, hgrown⟩
    have hnames : wp (call.run fuel) (fun _ s' => Inv s' ∧ UniqueNames s') (fun _ _ => True) s := by
      apply Call.wp_run UniqueNames.of_shrinks hgrown.grove.forest.inv hunique
      intro s1 d new hcreates hs1 s' hedits
      exact hs1.of_edits hcreates.fresh hedits
    exact ((wp_of_ok hrun).mp hnames).2

theorem lookup_eq (h : Logged junk log s) (key : Nat × Name)
    : s.view.lookup key = Journal.replay Edit.effect none log key := by
  induction h with
  | boot h =>
    rw [(wp_of_ok h).mp (wp_boot junk)]
    apply View.lookup_of_nil
    show ((booted junk).nodes key.1).dentry.map _ = []
    rw [booted_dentry, List.map_nil]
  | memory _ _ ih => exact ih
  | @step s s' log fuel call r h hcond hrun ih =>
    rcases h.sound with ⟨hgrown, hunique⟩
    have hedit : ∃ o, call.edit s fuel = o ∧ s'.view = s.view.edited o := by
      rcases hgrown.agrees hrun with ⟨o, houtcome, hof⟩
      refine ⟨o.edit, ?_, hof.view⟩
      unfold Call.edit
      rw [houtcome, Option.bind_some]
    rcases hedit with ⟨o, heq, hview⟩
    rw [heq, hview]
    cases o with
    | none =>
      rw [Option.toList_none, List.append_nil]
      exact ih
    | some edit =>
      rw [Option.toList_some, Journal.replay_concat, ← ih]
      apply View.lookup_apply
      . intro d
        show (((s.nodes d).dentry.map fun de => (de.name, de.node)).map Prod.fst).Nodup
        rw [List.map_map]
        exact hunique d
      . intro n hdir
        rcases hgrown with ⟨own, hgrown⟩
        have hentries : ((s.nodes n).dentry.map (·.node) : Multiset Nat) = 0 :=
          hgrown.grove.forest.wf.leaf n (decide_eq_false hdir)
        rw [Multiset.coe_eq_zero, List.map_eq_nil_iff] at hentries
        show (s.nodes n).dentry.map _ = []
        rw [hentries, List.map_nil]

/--
A directory has a name for a file exactly if a call has put it there and no later call has changed it.
-/
theorem lookup_iff (h : Logged junk log s) {d n : Nat} {name : Name}
    : s.view.lookup (d, name) = some n ↔
        ∃ before edit later, log = before ++ edit :: later ∧ edit.effect (d, name) = some (some n) ∧
          ∀ edit' ∈ later, edit'.effect (d, name) = none := by
  rw [h.lookup_eq]
  exact Journal.replay_eq_some_iff

theorem nestedDirs
    : Logged zeroed [.create 0 "a".toList 1 .VDIR [], .create 1 "b".toList 2 .VDIR []] nestedDirs := by
  have hboot : Logged zeroed [] (after Fs.boot (.empty zeroed)) := by
    rcases ok_of_returns (x := Fs.boot) (s := .empty zeroed) (by decide +kernel) with ⟨_, hrun⟩
    exact .boot hrun
  rcases ok_of_returns (x := (Call.vfs_mkdir "/a".toList).run 1) (s := after Fs.boot (.empty zeroed)) (by decide +kernel)
    with ⟨r, hrun⟩
  have hfirst := hboot.step (by trivial) hrun
  rcases ok_of_returns (x := (Call.vfs_mkdir "/a/b".toList).run 1)
    (s := after ((Call.vfs_mkdir "/a".toList).run 1) (after Fs.boot (.empty zeroed))) (by decide +kernel) with ⟨r', hrun'⟩
  have hsecond := hfirst.step (by trivial) hrun'
  have hedit : (Call.vfs_mkdir "/a".toList).edit (after Fs.boot (.empty zeroed)) 1 =
      some (.create 0 "a".toList 1 .VDIR []) := by
    decide +kernel
  have hedit' : (Call.vfs_mkdir "/a/b".toList).edit
      (after ((Call.vfs_mkdir "/a".toList).run 1) (after Fs.boot (.empty zeroed))) 1 =
      some (.create 1 "b".toList 2 .VDIR []) := by
    decide +kernel
  rw [hedit, hedit'] at hsecond
  unfold Fs.nestedDirs
  exact hsecond

theorem lookup_iff_nestedDirs : Fs.nestedDirs.view.lookup (0, "a".toList) = some 1 := by
  apply Call.Logged.lookup_iff nestedDirs |>.mpr
  exact ⟨[], _, _, rfl, rfl, by decide⟩

end Call.Logged

end Fs
end Franklin
