import Franklin.Fs.Readdir
import Franklin.Fs.Lemmas.Update
import Mathlib.Algebra.GroupWithZero.Nat

/-!
This module contains what `ramfs_readdir` writes until it returns or stops.
-/

namespace Franklin
namespace Fs

/--
A vnode whose ramnode is no call in, and has only entries that `ramfs_dir_attach` has numbered.
-/
structure Listable (s : St) (v : Nat) : Prop where
  freed : (s.vnodes v).freed = false
  ramlock : (s.nodes (s.vnodes v).data).ramlock = false
  seq : ∀ de ∈ (s.nodes (s.vnodes v).data).dentry, SEQ_START ≤ de.seq
  nodup : ((s.nodes (s.vnodes v).data).dentry.map (·.seq)).Nodup

namespace Listing

def total (r : Listing) : Nat :=
  (r.records.map (·.reclen)).sum

theorem total_write (r : Listing) (d : Dirent) (offset : Nat) : (r.write d offset).total = r.total + d.reclen := by
  unfold total write
  simp

end Listing

namespace ramfs_readdir

def record (pos : Nat) (type : Nat → VType) (de : RamDentry) : Except Stop Dirent :=
  if de.name = [] ∨ 256 ≤ de.name.length then
    .error .fault
  else
    match dtype (type de.node) with
    | none => .error (.panic "ramfs_readdir: unknown type")
    | some t => .ok { ino := de.node, reclen := get_reclen pos de.name, type := t, name := de.name }

structure Output where
  listing : Listing
  stop : Option Stop

def scan (pos : Nat) (type : Nat → VType) (wild : Bool) : List RamDentry → Listing → Output
  | [], r => { listing := r, stop := if wild then some .fault else none }
  | de :: entries, r =>
    match record pos type de with
    | .error e => { listing := r, stop := some e }
    | .ok d =>
      let r := r.write d de.seq
      if r.resid = 0 then { listing := r, stop := none } else scan pos type wild entries r

def dotted (pos : Nat) (s : St) (n : Nat) (r : Listing) : Listing :=
  let r :=
    if r.offset = SEQ_DOT then
      r.write { ino := n, reclen := get_reclen pos ['.'], type := s.junk.dtype, name := ['.'] } SEQ_DOTDOT
    else
      r
  if r.offset = SEQ_DOTDOT then
    r.write
      { ino := (s.nodes n).parent, reclen := get_reclen pos ['.', '.'], type := s.junk.dtype, name := ['.', '.'] }
      ((s.nodes n).dentry.head?.elim SEQ_EOF (·.seq))
  else
    r

def output (pos : Nat) (s : St) (n : Nat) (r : Listing) : Output :=
  let node := s.nodes n
  let r' := dotted pos s n r
  if (r.offset = SEQ_DOT ∨ r.offset = SEQ_DOTDOT) ∧ node.dentry = [] ∧ node.wild then
    { listing := r', stop := some .fault }
  else if r'.offset = SEQ_EOF then
    { listing := r', stop := none }
  else
    scan pos (fun m => (s.nodes m).type) node.wild (node.dentry.dropWhile (·.seq ≠ r'.offset)) r'

section Run

variable {pos : Nat} {s : St} {parent : RamNode} {r : Listing}

theorem getNode_eq (n : Nat) : getNode n s = .ok (s.nodes n) s := by
  rfl

theorem first_nil : first parent [] s = if parent.wild then .error .fault s else .ok none s := by
  unfold first
  split
  . rfl
  . rfl

theorem make_dirent_eq (n type : Nat) (name : Name)
    : ramfs_make_dirent pos n type name s =
        if name = [] ∨ 256 ≤ name.length then
          .error .fault s
        else
          .ok { ino := n, reclen := get_reclen pos name, type, name } s := by
  unfold ramfs_make_dirent
  split
  . rfl
  . rfl

def Output.result {α : Type} (o : Output) (a : α) (s s' : St) : EStateM.Result Stop St α :=
  match o.stop with
  | none => .ok a s
  | some e => .error e s'

theorem loop_eq (entries : List RamDentry)
    : loop pos parent entries r s =
        (scan pos (fun m => (s.nodes m).type) parent.wild entries r).result
          (scan pos (fun m => (s.nodes m).type) parent.wild entries r).listing s s := by
  induction entries generalizing r with
  | nil =>
    have hfirst := @first_nil s parent
    unfold loop scan Output.result
    cases hwild : parent.wild with
    | true =>
      rw [hwild, if_pos rfl] at hfirst
      rw [bind_of_error hfirst]
      rfl
    | false =>
      rw [hwild, if_neg (by simp)] at hfirst
      rw [bind_of_ok hfirst]
      rfl
  | cons de entries ih =>
    have hmake := @make_dirent_eq pos s de.node 0 de.name
    unfold loop scan record
    by_cases hname : de.name = [] ∨ 256 ≤ de.name.length
    . rw [if_pos hname] at hmake ⊢
      rw [bind_of_error hmake]
      rfl
    . rw [if_neg hname] at hmake ⊢
      rw [bind_of_ok hmake, bind_of_ok (getNode_eq de.node)]
      cases htype : dtype (s.nodes de.node).type with
      | none => rfl
      | some t =>
        dsimp only
        split
        . rfl
        . apply ih

theorem first_eq (entries : List RamDentry)
    : first parent entries s = if entries = [] ∧ parent.wild then .error .fault s else .ok entries.head? s := by
  cases entries with
  | nil =>
    rw [first_nil]
    simp
  | cons de entries => rfl

theorem dotdot_eq {n : Nat}
    : (do
        let d ← ramfs_make_dirent pos (s.nodes n).parent s.junk.dtype ['.', '.']
        let de ← first (s.nodes n) (s.nodes n).dentry
        pure (r.write d (de.elim SEQ_EOF (·.seq))) : Prog Listing) s =
          if (s.nodes n).dentry = [] ∧ (s.nodes n).wild then
            .error .fault s
          else
            .ok (r.write
              { ino := (s.nodes n).parent, reclen := get_reclen pos ['.', '.'], type := s.junk.dtype,
                name := ['.', '.'] }
              ((s.nodes n).dentry.head?.elim SEQ_EOF (·.seq))) s := by
  have hmake := @make_dirent_eq pos s (s.nodes n).parent s.junk.dtype ['.', '.']
  rw [if_neg (by simp)] at hmake
  rw [bind_of_ok hmake]
  have hfirst := @first_eq s (s.nodes n) (s.nodes n).dentry
  split at hfirst
  . next hwild => rw [bind_of_error hfirst, if_pos hwild]
  . next hwild =>
    rw [bind_of_ok hfirst, if_neg hwild]
    rfl

theorem dots_eq {n : Nat}
    : dots pos n (s.nodes n) r s =
        if (r.offset = SEQ_DOT ∨ r.offset = SEQ_DOTDOT) ∧ (s.nodes n).dentry = [] ∧ (s.nodes n).wild then
          .error .fault s
        else
          .ok (dotted pos s n r) s := by
  have hst : getSt s = .ok s s := rfl
  have hmake := @make_dirent_eq pos s n s.junk.dtype ['.']
  rw [if_neg (by simp)] at hmake
  unfold dots dotted
  rw [bind_of_ok hst]
  by_cases hdot : r.offset = SEQ_DOT
  . rw [if_pos hdot, if_pos hdot, bind_of_ok hmake, pure_bind]
    beta_reduce
    dsimp only
    have hoffset : ∀ d, (r.write d SEQ_DOTDOT).offset = SEQ_DOTDOT := fun _ => rfl
    rw [if_pos (hoffset _), dotdot_eq, if_pos (hoffset _)]
    simp only [hdot, true_or, true_and]
  . rw [if_neg hdot, if_neg hdot, pure_bind]
    beta_reduce
    dsimp only
    by_cases hdotdot : r.offset = SEQ_DOTDOT
    . rw [if_pos hdotdot, if_pos hdotdot, dotdot_eq]
      simp only [hdotdot, or_true, true_and]
    . rw [if_neg hdotdot, if_neg hdotdot]
      simp only [hdot, hdotdot, or_self, false_and, if_false]
      rfl

end Run

section Call

variable {pos : Nat} {s : St} {v : Nat} {count nbytes : BitVec 64} {offset : Nat}

theorem output_congr {s' : St} {n : Nat} {r : Listing} (hjunk : s'.junk = s.junk)
    (hdentry : (s'.nodes n).dentry = (s.nodes n).dentry) (hwild : (s'.nodes n).wild = (s.nodes n).wild)
    (hparent : (s'.nodes n).parent = (s.nodes n).parent) (htype : ∀ m, (s'.nodes m).type = (s.nodes m).type)
    : output pos s' n r = output pos s n r := by
  unfold output dotted
  simp only [hjunk, hdentry, hwild, hparent, htype]

/--
The state in which `ramfs_readdir` has taken the lock of the directory.
-/
def held (s : St) (n : Nat) : St :=
  s.updNode n fun node => { node with ramlock := true }

theorem held_nodes (s : St) (n : Nat) : (held s n).nodes n = { s.nodes n with ramlock := true } := by
  unfold held
  rw [St.updNode_nodes_self]

theorem output_held (n : Nat) (r : Listing) : output pos (held s n) n r = output pos s n r := by
  apply output_congr
  . rfl
  . rw [held_nodes]
  . rw [held_nodes]
  . rw [held_nodes]
  . intro m
    unfold held
    by_cases hm : m = n
    . subst hm
      rw [St.updNode_nodes_self]
    . rw [St.updNode_nodes_of_ne hm]

theorem acquireNode_held {n : Nat} (h : (s.nodes n).ramlock = false) : acquireNode n s = .ok () (held s n) := by
  unfold acquireNode
  rw [bind_of_ok (getNode_eq n), h]
  rfl

theorem releaseNode_held {n : Nat} (h : (s.nodes n).ramlock = false) : releaseNode n (held s n) = .ok () s := by
  have hback : releaseNode n (held s n) =
      .ok () ((held s n).updNode n fun node => { node with ramlock := false }) := rfl
  rw [hback, held, St.updNode_updNode, St.updNode_eq_self]
  dsimp only [Function.comp_apply]
  rw [← h]

theorem getVnode_eq (h : (s.vnodes v).freed = false) : getVnode v s = .ok (s.vnodes v) s := by
  unfold getVnode
  rw [h]
  rfl

theorem ramfs_readdir_eq (hfreed : (s.vnodes v).freed = false)
    (hramlock : (s.nodes (s.vnodes v).data).ramlock = false)
    : ∃ code, ramfs_readdir pos v count offset s =
        (output pos s (s.vnodes v).data ⟨count, offset, []⟩).result
          (code, (output pos s (s.vnodes v).data ⟨count, offset, []⟩).listing) s (held s (s.vnodes v).data) := by
  have hdots := @dots_eq pos (held s (s.vnodes v).data) ⟨count, offset, []⟩ (s.vnodes v).data
  have hback := releaseNode_held hramlock
  rw [← output_held]
  unfold ramfs_readdir
  rw [bind_of_ok (getVnode_eq hfreed), bind_of_ok (acquireNode_held hramlock),
    bind_of_ok (getNode_eq (s.vnodes v).data)]
  generalize held s (s.vnodes v).data = s1 at *
  generalize (s.vnodes v).data = n at *
  unfold output
  dsimp only
  split at hdots
  . next hwild =>
    rw [bind_of_error hdots, if_pos hwild]
    exact ⟨none, rfl⟩
  . next hwild =>
    rw [bind_of_ok hdots, if_neg hwild]
    split
    . rw [bind_of_ok hback]
      exact ⟨none, rfl⟩
    . have hfirst := @first_eq s1 (s1.nodes n)
        ((s1.nodes n).dentry.dropWhile (·.seq ≠ (dotted pos s1 n ⟨count, offset, []⟩).offset))
      generalize (s1.nodes n).dentry.dropWhile (·.seq ≠ (dotted pos s1 n ⟨count, offset, []⟩).offset) = entries at *
      cases entries with
      | nil =>
        unfold scan Output.result
        cases hwild' : (s1.nodes n).wild with
        | true =>
          rw [if_pos ⟨rfl, hwild'⟩] at hfirst
          rw [bind_of_error hfirst]
          exact ⟨none, rfl⟩
        | false =>
          rw [if_neg (by simp [hwild'])] at hfirst
          rw [bind_of_ok hfirst]
          dsimp only [List.head?_nil]
          rw [bind_of_ok hback]
          exact ⟨some .EINVAL, rfl⟩
      | cons de entries =>
        have hloop := @loop_eq pos s1 (s1.nodes n) (dotted pos s1 n ⟨count, offset, []⟩) (de :: entries)
        rw [if_neg (by simp)] at hfirst
        rw [bind_of_ok hfirst]
        dsimp only [List.head?_cons]
        generalize scan pos (fun m => (s1.nodes m).type) (s1.nodes n).wild (de :: entries)
          (dotted pos s1 n ⟨count, offset, []⟩) = o at *
        unfold Output.result at hloop ⊢
        cases hstop : o.stop with
        | none =>
          rw [hstop] at hloop
          rw [bind_of_ok hloop, bind_of_ok hback]
          exact ⟨none, rfl⟩
        | some e =>
          rw [hstop] at hloop
          rw [bind_of_error hloop]
          exact ⟨none, rfl⟩

/--
The state in which `vfs_readdir` has taken the lock of the vnode.
-/
def taken (s : St) (v : Nat) : St :=
  { s with vnodes := Function.update s.vnodes v { s.vnodes v with lock := true } }

theorem taken_vnodes : (taken s v).vnodes v = { s.vnodes v with lock := true } := by
  unfold taken
  dsimp only
  rw [Function.update_self]

theorem release_taken (hfreed : (s.vnodes v).freed = false) (hlock : (s.vnodes v).lock = false)
    : release v (taken s v) = .ok () s := by
  have hget : getVnode v (taken s v) = .ok ((taken s v).vnodes v) (taken s v) := by
    apply getVnode_eq
    rw [taken_vnodes]
    exact hfreed
  have hset : setVnode v (fun vn => { vn with lock := false }) (taken s v) =
      .ok () { taken s v with
        vnodes := Function.update (taken s v).vnodes v { (taken s v).vnodes v with lock := false } } := rfl
  unfold release
  rw [bind_of_ok hget, hset, taken_vnodes]
  dsimp only
  rw [← hlock]
  unfold taken
  rw [Function.update_idem, Function.update_eq_self]

theorem vfs_readdir_eq (h : Listable s v) (hlock : (s.vnodes v).lock = false) (hdir : (s.vnodes v).type = .VDIR)
    : ∃ s', vfs_readdir pos v nbytes offset s =
        (output pos s (s.vnodes v).data ⟨nbytes, offset, []⟩).result
          (none, nbytes - (output pos s (s.vnodes v).data ⟨nbytes, offset, []⟩).listing.resid,
            (output pos s (s.vnodes v).data ⟨nbytes, offset, []⟩).listing) s s' := by
  have hacquire : acquire v s = .ok () (taken s v) := by
    unfold acquire
    rw [bind_of_ok (getVnode_eq h.freed), hlock]
    rfl
  have hfreed : ((taken s v).vnodes v).freed = false := by
    rw [taken_vnodes]
    exact h.freed
  have hdata : ((taken s v).vnodes v).data = (s.vnodes v).data := by
    rw [taken_vnodes]
  have htype : ((taken s v).vnodes v).type = .VDIR := by
    rw [taken_vnodes]
    exact hdir
  have hramlock : ((taken s v).nodes ((taken s v).vnodes v).data).ramlock = false := by
    rw [hdata]
    exact h.ramlock
  have houtput : output pos (taken s v) (s.vnodes v).data ⟨nbytes, offset, []⟩ =
      output pos s (s.vnodes v).data ⟨nbytes, offset, []⟩ := output_congr rfl rfl rfl rfl fun _ => rfl
  rcases @ramfs_readdir_eq pos (taken s v) v nbytes offset hfreed hramlock with ⟨code, hreaddir⟩
  rw [hdata, houtput] at hreaddir
  unfold vfs_readdir
  rw [bind_of_ok hacquire, bind_of_ok (getVnode_eq hfreed), if_neg (by simp [htype])]
  unfold Output.result at hreaddir ⊢
  cases hstop : (output pos s (s.vnodes v).data ⟨nbytes, offset, []⟩).stop with
  | none =>
    rw [hstop] at hreaddir
    rw [bind_of_ok hreaddir]
    dsimp only
    rw [bind_of_ok (release_taken h.freed hlock)]
    exact ⟨s, rfl⟩
  | some e =>
    rw [hstop] at hreaddir
    rw [bind_of_error hreaddir]
    exact ⟨_, rfl⟩

end Call

end ramfs_readdir

end Fs
end Franklin
