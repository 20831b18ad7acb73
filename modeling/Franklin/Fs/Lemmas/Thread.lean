import Franklin.Fs.Thread
import Franklin.Fs.Lemmas.Walked

/-!
This module contains that a thread which runs alone is the call of the same name.
-/

namespace Franklin
namespace Fs

namespace Thread

variable {α β : Type}

theorem bind_eq (x : Thread α) (f : α → Thread β) : x >>= f = x.bind f := by
  rfl

section Steps

variable (f : α → Thread β) (l : Lock) (v : Nat) (d : Int) (k : Thread α)

theorem bind_lock : (lock l k).bind f = lock l (k.bind f) := by
  rfl

theorem bind_unlock : (unlock l k).bind f = unlock l (k.bind f) := by
  rfl

theorem bind_nextname : (nextname v k).bind f = nextname v (k.bind f) := by
  rfl

theorem bind_trylock (k : Bool → Thread α) : (trylock v k).bind f = trylock v fun r => (k r).bind f := by
  rfl

theorem bind_count (k : Int → Thread α) : (count v d k).bind f = count v d fun r => (k r).bind f := by
  rfl

theorem bind_atom {γ : Type} (p : Prog γ) (k : γ → Thread α)
    : (atom p k).bind f = atom p fun r => (k r).bind f := by
  rfl

theorem run_lock : (lock l k).run = l.acquire >>= fun _ => k.run := by
  rfl

theorem run_unlock : (unlock l k).run = l.release >>= fun _ => k.run := by
  rfl

theorem run_nextname : (nextname v k).run = Fs.release v >>= fun _ => k.run := by
  rfl

theorem run_trylock (k : Bool → Thread α) : (trylock v k).run = getVnode v >>= fun vn => (k vn.lock).run := by
  rfl

theorem run_count (k : Int → Thread α) : (count v d k).run = addRefs v d >>= fun refcount => (k refcount).run := by
  rfl

theorem run_atom (p : Prog β) (k : β → Thread α) : (atom p k).run = p >>= fun r => (k r).run := by
  rfl

end Steps

theorem bind_ret (x : Thread α) : x.bind ret = x := by
  induction x with
  | ret a => rfl
  | stop e => rfl
  | lock l k ih => rw [bind_lock, ih]
  | unlock l k ih => rw [bind_unlock, ih]
  | nextname v k ih => rw [bind_nextname, ih]
  | trylock v k ih => simp only [bind_trylock, ih]
  | count v d k ih => simp only [bind_count, ih]
  | atom p k ih => simp only [bind_atom, ih]

theorem bind_bind {γ : Type} (x : Thread α) (f : α → Thread β) (g : β → Thread γ)
    : (x.bind f).bind g = x.bind fun a => (f a).bind g := by
  induction x with
  | ret a => rfl
  | stop e => rfl
  | lock l k ih => simp only [bind_lock, ih]
  | unlock l k ih => simp only [bind_unlock, ih]
  | nextname v k ih => simp only [bind_nextname, ih]
  | trylock v k ih => simp only [bind_trylock, ih]
  | count v d k ih => simp only [bind_count, ih]
  | atom p k ih => simp only [bind_atom, ih]

@[simp]
theorem run_pure (a : α) : (pure a : Thread α).run = pure a := by
  rfl

@[simp]
theorem run_ret (a : α) : (ret a).run = pure a := by
  rfl

@[simp]
theorem run_fail (e : Stop) : (fail e : Thread α).run = throw e := by
  rfl

theorem throw_bind (e : Stop) (f : α → Prog β) : (throw e >>= f : Prog β) = throw e := by
  rfl

@[simp]
theorem run_bind (x : Thread α) (f : α → Thread β)
    : (x >>= f).run = x.run >>= fun a => (f a).run := by
  rw [bind_eq]
  induction x with
  | ret a =>
    rw [run_ret, pure_bind]
    rfl
  | stop e =>
    symm
    apply throw_bind
  | lock l k ih => simp [bind_lock, run_lock, ih]
  | unlock l k ih => simp [bind_unlock, run_unlock, ih]
  | nextname v k ih => simp [bind_nextname, run_nextname, ih]
  | trylock v k ih => simp [bind_trylock, run_trylock, ih]
  | count v d k ih => simp [bind_count, run_count, ih]
  | atom p k ih => simp [bind_atom, run_atom, ih]

@[simp]
theorem run_ite (c : Prop) [Decidable c] (x y : Thread α)
    : (if c then x else y).run = if c then x.run else y.run := by
  split
  . rfl
  . rfl

@[simp]
theorem run_access (p : Prog β) : (access p).run = p := by
  simp [access, run_atom]

@[simp]
theorem run_acquire (v : Nat) : (acquire v).run = Fs.acquire v := by
  simp [acquire, run_lock, Lock.acquire]

@[simp]
theorem run_release (v : Nat) : (release v).run = Fs.release v := by
  simp [release, run_unlock, Lock.release]

@[simp]
theorem run_acquireNode (n : Nat) : (acquireNode n).run = Fs.acquireNode n := by
  simp [acquireNode, run_lock, Lock.acquire]

@[simp]
theorem run_releaseNode (n : Nat) : (releaseNode n).run = Fs.releaseNode n := by
  simp [releaseNode, run_unlock, Lock.release]

@[simp]
theorem run_vref_locked (v : Nat) : (vref_locked v).run = Fs.vref_locked v := by
  unfold vref_locked Fs.vref_locked
  simp only [run_count, run_ret, addRefs, bind_assoc]
  congr
  funext vn
  by_cases hmax : vn.refcount = 2 ^ 31 - 1
  . rw [if_pos hmax, if_pos ⟨trivial, hmax⟩]
    rfl
  . rw [if_neg hmax, if_neg (fun h => hmax h.2), bind_assoc]
    rfl

@[simp]
theorem run_vref (v : Nat) : (vref v).run = Fs.vref v := by
  simp [vref, Fs.vref]

@[simp]
theorem run_ramfs_inactive (n : Nat) : (ramfs_inactive n).run = Fs.ramfs_inactive n := by
  simp [ramfs_inactive, Fs.ramfs_inactive, ramfs_free_node]

theorem getVnode_bind_freed {s : St} {v : Nat} (hfreed : (s.vnodes v).freed = true)
    (f : Vnode → Prog β) : (getVnode v >>= f) s = .error .fault s := by
  show EStateM.bind (getVnode v) f s = _
  unfold EStateM.bind getVnode
  rw [if_pos hfreed]

theorem getVnode_bind {s : St} {v : Nat} (hfreed : (s.vnodes v).freed = false) (f : Vnode → Prog β)
    : (getVnode v >>= f) s = f (s.vnodes v) s := by
  show EStateM.bind (getVnode v) f s = _
  unfold EStateM.bind getVnode
  rw [if_neg (by simp [hfreed])]

@[simp]
theorem run_vfs_close (v : Nat) : (vfs_close v).run = Fs.vfs_close v := by
  funext s
  unfold vfs_close Fs.vfs_close
  simp only [run_bind, run_trylock, run_count, run_ret, run_ite, run_access, run_acquire, run_release, run_ramfs_inactive,
    bind_assoc, pure_bind]
  by_cases hfreed : (s.vnodes v).freed = true
  . rw [getVnode_bind_freed hfreed, getVnode_bind_freed hfreed]
  . rw [Bool.not_eq_true] at hfreed
    have hcount : addRefs v (-1) { s with
          vnodes := Function.update s.vnodes v { s.vnodes v with lock := true } }
        = .ok ((s.vnodes v).refcount - 1) { s with
          vnodes := Function.update s.vnodes v
            { s.vnodes v with lock := true, refcount := (s.vnodes v).refcount - 1 } } := by
      unfold addRefs
      rw [getVnode_bind (by simpa using hfreed), if_neg (by simp)]
      simp only [Function.update_self]
      show EStateM.Result.ok _ _ = _
      simp [Int.sub_eq_add_neg]
    -- what follows once the lock is held
    have hrest : ∀ s1, s1 = { s with
          vnodes := Function.update s.vnodes v { s.vnodes v with lock := true } } →
        (do
          let a ← getVnode v
          let refcount ← addRefs v (-1)
          if refcount = 0 then do
            Fs.ramfs_inactive a.data
            setVnode v fun vn => { vn with freed := true }
          else Fs.release v) s1
        = (do
          setVnode v fun vn => { vn with lock := true, refcount := vn.refcount - 1 }
          if (s.vnodes v).refcount - 1 = 0 then do
            Fs.ramfs_inactive (s.vnodes v).data
            setVnode v fun vn => { vn with freed := true }
          else Fs.release v) s := by
      intro s1 hs1
      subst hs1
      rw [getVnode_bind (by simpa using hfreed), bind_of_ok hcount]
      simp only [Function.update_self]
      rfl
    cases hlock : (s.vnodes v).lock with
    | true =>
      rw [getVnode_bind hfreed, getVnode_bind hfreed, if_pos hlock]
      apply hrest
      rw [← hlock, Function.update_eq_self]
    | false =>
      rw [getVnode_bind hfreed, getVnode_bind hfreed, if_neg (by simp [hlock])]
      have hacquire : Fs.acquire v s = .ok () { s with
          vnodes := Function.update s.vnodes v { s.vnodes v with lock := true } } := by
        unfold Fs.acquire
        rw [getVnode_bind hfreed, hlock]
        rfl
      rw [bind_of_ok hacquire]
      apply hrest _ rfl

@[simp]
theorem run_vputOpt (v : Option Nat) : (vputOpt v).run = Fs.vputOpt v := by
  cases v with
  | none => simp [vputOpt, Fs.vputOpt]
  | some v => simp [vputOpt, Fs.vputOpt, vput, Fs.vput]

@[simp]
theorem run_vrele (v : Nat) : (vrele v).run = Fs.vrele v := by
  simp [vrele, Fs.vrele, vput, Fs.vput]

@[simp]
theorem run_vput (v : Nat) : (vput v).run = Fs.vput v := by
  simp [vput, Fs.vput]

@[simp]
theorem run_ramfs_vget (vfs n : Nat) : (ramfs_vget vfs n).run = Fs.ramfs_vget vfs n := by
  unfold ramfs_vget Fs.ramfs_vget
  simp only [run_bind, run_acquireNode, run_access]
  congr
  funext _
  congr
  funext _
  congr
  funext node
  cases node.vnode with
  | none => simp
  | some v => simp

@[simp]
theorem run_ramfs_root (vfs : Nat) : (ramfs_root vfs).run = Fs.ramfs_root vfs := by
  simp [ramfs_root, Fs.ramfs_root]

@[simp]
theorem run_ramfs_lookup (vdir : Nat) (vpp : Option Nat) (name : Name) (len : Nat)
    : (ramfs_lookup vdir vpp name len).run = Fs.ramfs_lookup vdir vpp name len := by
  unfold ramfs_lookup Fs.ramfs_lookup
  simp only [run_bind, run_acquireNode, run_access, run_ite, run_releaseNode, run_vref_locked, run_pure,
    run_ramfs_vget]
  congr
  funext vd
  congr
  funext _
  congr
  funext _
  congr
  funext node
  cases Fs.ramfs_lookup.find name len node.dentry with
  | none => simp
  | some entry => simp

namespace lookup

@[simp]
theorem run_climb (fuel vdir : Nat) : (climb fuel vdir).run = Fs.lookup.climb fuel vdir := by
  induction fuel generalizing vdir with
  | zero => rfl
  | succ fuel ih =>
    unfold climb Fs.lookup.climb
    simp only [run_bind, run_access, run_ite, run_vref, run_pure, run_acquire, run_release, run_vrele]
    congr
    funext st
    congr
    funext _
    congr
    funext vd
    congr
    funext vfs
    congr
    funext _
    cases vfs.mountpoint with
    | null => rfl
    | wild => rfl
    | ref v => simp [ih]

@[simp]
theorem run_cross (fuel vdir : Nat) : (cross fuel vdir).run = Fs.lookup.cross fuel vdir := by
  induction fuel generalizing vdir with
  | zero => rfl
  | succ fuel ih =>
    unfold cross Fs.lookup.cross
    simp only [run_bind, run_access]
    congr
    funext vd
    cases (if vd.type = .VDIR then vd.mountedhere else none) with
    | none => rfl
    | some vfs => simp [ih]

@[simp]
theorem run_nextname (vdir : Nat) (nd : Nameidata)
    : (nextname vdir nd).run = Fs.lookup.nextname vdir nd := by
  simp [nextname, Fs.lookup.nextname, Thread.run_nextname]

@[simp]
theorem run_component (follow : Bool) (vdir : Nat) (nd : Nameidata)
    : (component follow vdir nd).run = Fs.lookup.component follow vdir nd := by
  unfold component Fs.lookup.component
  simp only [run_bind, run_acquire, run_release, run_ramfs_lookup]
  congr
  funext _
  congr
  funext r
  congr
  funext _
  rcases r with ⟨error, vn⟩
  cases error with
  | some e => rfl
  | none =>
    cases vn with
    | none => rfl
    | some v => simp

@[simp]
theorem run_round (follow : Bool) (vdir : Nat) (nd : Nameidata)
    : (round follow vdir nd).run = Fs.lookup.round follow vdir nd := by
  unfold round Fs.lookup.round
  simp only [run_bind, run_ite, run_vref, run_pure, run_access, run_climb, run_component]
  congr
  funext st
  congr
  funext up
  cases up with
  | root v => simp
  | dir v => simp

@[simp]
theorem run_loop (follow : Bool) (fuel vdir : Nat) (nd : Nameidata)
    : (loop follow fuel vdir nd).run = Fs.lookup.loop follow fuel vdir nd := by
  induction fuel generalizing vdir nd with
  | zero => rfl
  | succ fuel ih =>
    unfold loop Fs.lookup.loop
    simp only [run_bind, run_round]
    congr
    funext r
    cases r with
    | done error nd => rfl
    | next vdir nd => simp [ih]

end lookup

@[simp]
theorem run_lookup (nd : Nameidata) : (lookup nd).run = Fs.lookup nd := by
  simp [lookup, Fs.lookup]

@[simp]
theorem run_ramfs_readlink (vn : Nat) : (ramfs_readlink vn).run = Fs.ramfs_readlink vn := by
  simp [ramfs_readlink, Fs.ramfs_readlink]

@[simp]
theorem run_start (name : Name) (vn : Option Nat)
    : (namei.start name vn).run = Fs.namei.start name vn := by
  unfold namei.start Fs.namei.start
  rw [run_ite]
  congr
  . simp only [run_bind, run_vputOpt, run_access]
    congr
    funext _
    congr
    funext st
    cases st.rootfs with
    | none => rfl
    | some vfs => simp
  . cases vn with
    | none => rfl
    | some v => rfl

@[simp]
theorem run_namei_loop (fuel : Nat) (name : Name) (vn : Option Nat) (nd : Nameidata)
    : (namei.loop fuel name vn nd).run = Fs.namei.loop fuel name vn nd := by
  induction fuel generalizing name vn nd with
  | zero => rfl
  | succ fuel ih =>
    unfold namei.loop Fs.namei.loop
    simp only [run_bind, run_start, run_lookup]
    congr
    funext vdir
    congr
    funext r
    rcases r with ⟨error, ⟨vdir, vn, name, len, issymlink⟩⟩
    cases error with
    | some e => rfl
    | none =>
      cases issymlink with
      | false => rfl
      | true =>
        cases vn with
        | none => rfl
        | some vn => simp [ih]

@[simp]
theorem run_namei (name : Name) (fuel : Nat) : (namei name fuel).run = Fs.namei name fuel := by
  simp [namei, Fs.namei]

@[simp]
theorem run_ramfs_dir_lookup (dir : Nat) (name : Name)
    : (ramfs_dir_lookup dir name).run = Fs.ramfs_dir_lookup dir name := by
  unfold ramfs_dir_lookup Fs.ramfs_dir_lookup
  simp only [run_bind, run_acquireNode, run_access]
  congr
  funext _
  congr
  funext node
  cases node.dentry.find? fun de => strcmp de.name name = 0 with
  | none => simp
  | some de => simp

@[simp]
theorem run_ramfs_alloc_dentry (n : Nat) (name : Name)
    : (ramfs_alloc_dentry n name).run = Fs.ramfs_alloc_dentry n name := by
  simp [ramfs_alloc_dentry, Fs.ramfs_alloc_dentry]

@[simp]
theorem run_ramfs_dir_attach (parent : Nat) (de : RamDentry)
    : (ramfs_dir_attach parent de).run = Fs.ramfs_dir_attach parent de := by
  simp [ramfs_dir_attach, Fs.ramfs_dir_attach]

@[simp]
theorem run_ramfs_alloc_file (vdir : Nat) (name : Name) (len : Nat) (type : VType)
    (target : Option Name)
    : (ramfs_alloc_file vdir name len type target).run
        = Fs.ramfs_alloc_file vdir name len type target := by
  simp [ramfs_alloc_file, Fs.ramfs_alloc_file]

@[simp]
theorem run_ramfs_symlink (vdir : Nat) (target name : Name) (len : Nat)
    : (ramfs_symlink vdir target name len).run = Fs.ramfs_symlink vdir target name len := by
  simp [ramfs_symlink, Fs.ramfs_symlink]

@[simp]
theorem run_ramfs_link (vdir vn : Nat) (name : Name)
    : (ramfs_link vdir vn name).run = Fs.ramfs_link vdir vn name := by
  simp [ramfs_link, Fs.ramfs_link]

@[simp]
theorem run_ramfs_free_dentry (de : RamDentry)
    : (ramfs_free_dentry de).run = Fs.ramfs_free_dentry de := by
  simp [ramfs_free_dentry, Fs.ramfs_free_dentry]

@[simp]
theorem run_ramfs_dir_detach (parent : Nat) (de : RamDentry)
    : (ramfs_dir_detach parent de).run = Fs.ramfs_dir_detach parent de := by
  simp [ramfs_dir_detach, Fs.ramfs_dir_detach]

@[simp]
theorem run_ramfs_remove (vdir vn : Nat) (name : Name)
    : (ramfs_remove vdir vn name).run = Fs.ramfs_remove vdir vn name := by
  unfold ramfs_remove Fs.ramfs_remove
  simp only [run_bind, run_access, run_ite, run_pure, run_ramfs_dir_lookup]
  congr
  funext vd
  congr
  funext v
  congr
  funext de
  cases de with
  | none => rfl
  | some de => simp

@[simp]
theorem run_ramfs_rmdir (vdir vn : Nat) (name : Name) (len : Nat)
    : (ramfs_rmdir vdir vn name len).run = Fs.ramfs_rmdir vdir vn name len := by
  unfold ramfs_rmdir Fs.ramfs_rmdir
  simp only [run_bind, run_access, run_ite, run_pure, run_ramfs_dir_lookup, run_acquireNode,
    run_releaseNode, run_fail]
  congr
  funext vd
  congr
  funext v
  congr
  funext _
  congr
  funext node
  congr
  funext _
  congr
  funext _
  congr
  funext de
  cases de with
  | none => rfl
  | some de => simp

@[simp]
theorem run_freeDentries (n : Nat) (entries : List RamDentry)
    : (ramfs_unmount.freeDentries n entries).run = Fs.ramfs_unmount.freeDentries n entries := by
  induction entries with
  | nil => simp [ramfs_unmount.freeDentries, Fs.ramfs_unmount.freeDentries]
  | cons de entries ih => simp [ramfs_unmount.freeDentries, Fs.ramfs_unmount.freeDentries, ih]

@[simp]
theorem run_freeAllDentries (fuel : Nat) (p : Ptr)
    : (ramfs_unmount.freeAllDentries fuel p).run = Fs.ramfs_unmount.freeAllDentries fuel p := by
  induction fuel generalizing p with
  | zero =>
    cases p with
    | null => rfl
    | wild => rfl
    | ref n => rfl
  | succ fuel ih =>
    cases p with
    | null => rfl
    | wild => rfl
    | ref n => simp [ramfs_unmount.freeAllDentries, Fs.ramfs_unmount.freeAllDentries, ih]

@[simp]
theorem run_freeAllNodes (fuel : Nat) (p : Ptr)
    : (ramfs_unmount.freeAllNodes fuel p).run = Fs.ramfs_unmount.freeAllNodes fuel p := by
  induction fuel generalizing p with
  | zero =>
    cases p with
    | null => rfl
    | wild => rfl
    | ref n => rfl
  | succ fuel ih =>
    cases p with
    | null => rfl
    | wild => rfl
    | ref n =>
      simp [ramfs_unmount.freeAllNodes, Fs.ramfs_unmount.freeAllNodes, ramfs_free_node, ih]

@[simp]
theorem run_ramfs_unmount (vfs : Nat) : (ramfs_unmount vfs).run = Fs.ramfs_unmount vfs := by
  simp [ramfs_unmount, Fs.ramfs_unmount]

theorem run_vfs_link (name target : Name) (fuel : Nat)
    : (vfs_link name target fuel).run = Fs.vfs_link name target fuel := by
  unfold vfs_link Fs.vfs_link
  simp only [run_bind, run_namei]
  congr
  funext r
  rcases r with ⟨error, ⟨vdir, vn, name, len, issymlink⟩⟩
  cases error with
  | some e => rfl
  | none =>
    cases vn with
    | none => rfl
    | some vn => simp

theorem run_vfs_symlink (name target : Name) (fuel : Nat)
    : (vfs_symlink name target fuel).run = Fs.vfs_symlink name target fuel := by
  simp [vfs_symlink, Fs.vfs_symlink]

@[simp]
theorem run_finish (vfs : Nat) : (vfs_mount.finish vfs).run = Fs.vfs_mount.finish vfs := by
  simp only [vfs_mount.finish, Fs.vfs_mount.finish, run_bind, run_access, run_pure]
  rfl

@[simp]
theorem run_fail2 (error : Errno) (n : Nameidata)
    : (vfs_mount.fail2 error n).run = Fs.vfs_mount.fail2 error n := by
  simp [vfs_mount.fail2, Fs.vfs_mount.fail2]

theorem run_vfs_mount (mntpoint : Option Name) (fstype : Name) (fuel : Nat)
    : (vfs_mount mntpoint fstype fuel).run = Fs.vfs_mount mntpoint fstype fuel := by
  unfold vfs_mount Fs.vfs_mount
  simp only [run_bind, run_ite, run_access, run_pure]
  congr
  funext _
  congr
  funext vfs
  cases mntpoint with
  | none =>
    simp only [run_bind, run_access, run_finish]
    rfl
  | some mntpoint =>
    simp only [run_bind, run_namei]
    congr
    funext r
    rcases r with ⟨error, ⟨vdir, vn, name, len, issymlink⟩⟩
    cases error with
    | some e => simp
    | none =>
      cases vn with
      | none => rfl
      | some vn => simp

theorem run_vfs_unmount (name : Name) (fuel : Nat)
    : (vfs_unmount name fuel).run = Fs.vfs_unmount name fuel := by
  unfold vfs_unmount Fs.vfs_unmount
  simp only [run_bind, run_namei]
  congr
  funext r
  rcases r with ⟨error, ⟨vdir, vn, name, len, issymlink⟩⟩
  cases error with
  | some e => simp
  | none =>
    cases vn with
    | none => rfl
    | some vn =>
      simp only [run_bind, run_access, run_acquire, run_ite, run_vrele, run_pure, run_ramfs_unmount]
      congr
      funext v
      congr
      funext vfs
      congr
      funext _
      congr
      funext _
      congr
      funext _
      cases vfs.mountpoint with
      | null => rfl
      | wild => rfl
      | ref v => simp

theorem run_vfs_unlink (name : Name) (fuel : Nat)
    : (vfs_unlink name fuel).run = Fs.vfs_unlink name fuel := by
  unfold vfs_unlink Fs.vfs_unlink
  simp only [run_bind, run_namei]
  congr
  funext r
  rcases r with ⟨error, ⟨vdir, vn, name, len, issymlink⟩⟩
  cases error with
  | some e => simp
  | none =>
    cases vn with
    | none => rfl
    | some vn => simp

theorem run_vfs_open (name : Name) (type : VType) (create : Bool) (fuel : Nat)
    : (vfs_open name type create fuel).run = Fs.vfs_open name type create fuel := by
  simp [vfs_open, Fs.vfs_open, ramfs_create, Fs.ramfs_create]

theorem run_vfs_mkdir (name : Name) (fuel : Nat)
    : (vfs_mkdir name fuel).run = Fs.vfs_mkdir name fuel := by
  simp [vfs_mkdir, Fs.vfs_mkdir, ramfs_mkdir, Fs.ramfs_mkdir]

theorem run_vfs_rmdir (name : Name) (fuel : Nat)
    : (vfs_rmdir name fuel).run = Fs.vfs_rmdir name fuel := by
  unfold vfs_rmdir Fs.vfs_rmdir
  simp only [run_bind, run_namei]
  congr
  funext r
  rcases r with ⟨error, ⟨vdir, vn, name, len, issymlink⟩⟩
  cases error with
  | some e => simp
  | none =>
    cases vn with
    | none => rfl
    | some vn => simp

end Thread

theorem Call.run_thread (call : Call) (fuel : Nat) : (call.thread fuel).run = call.run fuel := by
  cases call with
  | vfs_open name type create => apply Thread.run_vfs_open
  | vfs_mkdir name => apply Thread.run_vfs_mkdir
  | vfs_rmdir name => simp [thread, run, Thread.run_vfs_rmdir]
  | vfs_unlink name => simp [thread, run, Thread.run_vfs_unlink]
  | vfs_link name target => simp [thread, run, Thread.run_vfs_link]
  | vfs_symlink name target => simp [thread, run, Thread.run_vfs_symlink]
  | vfs_mount mntpoint fstype => simp [thread, run, Thread.run_vfs_mount]
  | vfs_unmount name => simp [thread, run, Thread.run_vfs_unmount]
  | vfs_close v => simp [thread, run]

end Fs
end Franklin
