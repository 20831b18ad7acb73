import Franklin.Fs.Vfs

/-!
This module contains the rules that carry over from the parts of a program to the whole program: what holds
of every access that a walk makes, and of one program behind another, holds of `namei`, and what holds of
the changes to single ramnodes holds of the operations of `ramfs.c` that take files away.
-/

namespace Franklin
namespace Fs

structure WalkRules (K : (α : Type) → Prog α → Prop) : Prop where
  pure : ∀ {α : Type} (a : α), K α (pure a)
  throw : ∀ {α : Type} (e : Stop), (∀ msg, e ≠ .panic msg) → K α (throw e)
  bind : ∀ {α β : Type} {x : Prog α} {f : α → Prog β}, K α x → (∀ a, K β (f a)) → K β (x >>= f)
  getSt : K St getSt
  getVnode : ∀ v, K Vnode (getVnode v)
  getNode : ∀ n, K RamNode (getNode n)
  getVfs : ∀ vfs, K Vfs (getVfs vfs)
  acquire : ∀ v, K Unit (acquire v)
  release : ∀ v, K Unit (release v)
  acquireNode : ∀ n, K Unit (acquireNode n)
  releaseNode : ∀ n, K Unit (releaseNode n)
  vref_locked : ∀ v, K Unit (vref_locked v)
  newVnode : ∀ vfs n, K Nat (newVnode vfs n)
  vfs_close : ∀ v, K Unit (vfs_close v)

namespace WalkRules

variable {K : (α : Type) → Prog α → Prop} (h : WalkRules K)

include h

theorem deref (n : Nat) : K Unit (deref n) := by
  apply h.bind (h.getNode n)
  intro node
  split
  . exact h.throw _ (by simp)
  . apply h.pure

theorem vref (v : Nat) : K Unit (vref v) := by
  apply h.bind (h.acquire v)
  intro _
  apply h.bind (h.vref_locked v)
  intro _
  apply h.release

theorem vputOpt (vn : Option Nat) : K Unit (vputOpt vn) := by
  cases vn with
  | none => apply h.pure
  | some v => apply h.vfs_close

theorem ramfs_vget (vfs n : Nat) : K Nat (ramfs_vget vfs n) := by
  apply h.bind (h.deref n)
  intro _
  apply h.bind (h.acquireNode n)
  intro _
  apply h.bind (h.getNode n)
  intro node
  cases node.vnode with
  | some v =>
    apply h.bind (h.acquire v)
    intro _
    apply h.bind (h.vref_locked v)
    intro _
    apply h.bind (h.release v)
    intro _
    apply h.bind (h.releaseNode n)
    intro _
    apply h.pure
  | none =>
    apply h.bind (h.newVnode vfs n)
    intro v
    apply h.bind (h.release v)
    intro _
    apply h.bind (h.releaseNode n)
    intro _
    apply h.pure

theorem ramfs_root (vfs : Nat) : K Nat (ramfs_root vfs) := by
  apply h.bind (h.getVfs vfs)
  intro vfs'
  apply h.ramfs_vget

theorem ramfs_lookup (vdir : Nat) (vpp : Option Nat) (name : Name) (len : Nat)
    : K (Code × Option Nat) (ramfs_lookup vdir vpp name len) := by
  have hvget : ∀ vfs n m, K (Code × Option Nat) (do
      let v ← Fs.ramfs_vget vfs n
      Fs.releaseNode m
      Pure.pure ((none : Code), some v)) := by
    intro vfs n m
    apply h.bind (h.ramfs_vget vfs n)
    intro v
    apply h.bind (h.releaseNode m)
    intro _
    apply h.pure
  apply h.bind (h.getVnode vdir)
  intro vd
  apply h.bind (h.deref _)
  intro _
  apply h.bind (h.acquireNode _)
  intro _
  apply h.bind (h.getNode _)
  intro node
  split
  . apply h.bind (h.releaseNode _)
    intro _
    apply h.pure
  . split
    . apply h.bind (h.vref_locked vdir)
      intro _
      apply h.bind (h.releaseNode _)
      intro _
      apply h.pure
    . split
      . apply hvget
      . cases ramfs_lookup.find name len node.dentry with
        | some entry => apply hvget
        | none =>
          dsimp only
          split
          . exact h.throw _ (by simp)
          . apply h.bind (h.releaseNode _)
            intro _
            apply h.pure

theorem climb (fuel v : Nat) : K lookup.Climb (lookup.climb fuel v) := by
  induction fuel generalizing v with
  | zero => exact h.throw _ (by simp)
  | succ fuel ih =>
    apply h.bind h.getSt
    intro st
    split
    . apply h.bind (h.vref v)
      intro _
      apply h.pure
    . apply h.bind (h.acquire v)
      intro _
      apply h.bind (h.getVnode v)
      intro vd
      split
      . apply h.bind (h.release v)
        intro _
        apply h.pure
      . apply h.bind (h.getVfs _)
        intro vfs
        apply h.bind (h.vfs_close v)
        intro _
        cases vfs.mountpoint with
        | ref w =>
          apply h.bind (h.vref w)
          intro _
          apply ih
        | null => exact h.throw _ (by simp)
        | wild => exact h.throw _ (by simp)

theorem cross (fuel v : Nat) : K Nat (lookup.cross fuel v) := by
  induction fuel generalizing v with
  | zero => exact h.throw _ (by simp)
  | succ fuel ih =>
    apply h.bind (h.getVnode v)
    intro vd
    cases if vd.type = .VDIR then vd.mountedhere else none with
    | none => apply h.pure
    | some vfs =>
      apply h.bind (h.vfs_close v)
      intro _
      apply h.bind (h.ramfs_root vfs)
      intro w
      apply h.bind (h.acquire w)
      intro _
      apply ih

theorem nextname (v : Nat) (nd : Nameidata) : K lookup.Round (lookup.nextname v nd) := by
  unfold lookup.nextname
  split
  . apply h.bind (h.release v)
    intro _
    apply h.pure
  . apply h.bind (h.vfs_close _)
    intro _
    apply h.bind (h.release v)
    intro _
    apply h.pure

theorem component (follow : Bool) (v : Nat) (nd : Nameidata)
    : K lookup.Round (lookup.component follow v nd) := by
  apply h.bind (h.acquire v)
  intro _
  apply h.bind (h.ramfs_lookup v _ _ _)
  intro r
  apply h.bind (h.release v)
  intro _
  rcases r with ⟨error, vn⟩
  cases error with
  | some e => apply h.pure
  | none =>
    cases vn with
    | none => exact h.throw _ (by simp)
    | some w =>
      apply h.bind (h.acquire w)
      intro _
      apply h.bind h.getSt
      intro st
      apply h.bind (h.cross _ w)
      intro w
      apply h.bind (h.getVnode w)
      intro vd
      split
      . apply h.pure
      . apply h.nextname

theorem round (follow : Bool) (v : Nat) (nd : Nameidata)
    : K lookup.Round (lookup.round follow v nd) := by
  unfold lookup.round
  dsimp only
  split
  . apply h.bind (h.vref _)
    intro _
    apply h.pure
  . split
    . apply h.bind h.getSt
      intro st
      apply h.bind (h.climb _ v)
      intro c
      cases c with
      | root w => apply h.nextname
      | dir w => apply h.component
    . apply h.component

theorem lookupLoop (follow : Bool) (fuel v : Nat) (nd : Nameidata)
    : K (Code × Nameidata) (lookup.loop follow fuel v nd) := by
  induction fuel generalizing v nd with
  | zero => exact h.throw _ (by simp)
  | succ fuel ih =>
    apply h.bind (h.round follow v nd)
    intro r
    cases r with
    | done error nd => apply h.pure
    | next w nd => apply ih

theorem lookup (nd : Nameidata) : K (Code × Nameidata) (lookup nd) := by
  apply h.bind h.getSt
  intro st
  apply h.lookupLoop

theorem start (name : Name) (vn : Option Nat) : K Nat (namei.start name vn) := by
  unfold namei.start
  split
  . apply h.bind (h.vputOpt vn)
    intro _
    apply h.bind h.getSt
    intro st
    cases st.rootfs with
    | none => exact h.throw _ (by simp)
    | some vfs => apply h.ramfs_root
  . cases vn with
    | none => exact h.throw _ (by simp)
    | some v => apply h.pure

theorem ramfs_readlink (v : Nat) : K Name (ramfs_readlink v) := by
  apply h.bind (h.getVnode v)
  intro vn
  apply h.bind (h.acquireNode _)
  intro _
  apply h.bind (h.getNode _)
  intro node
  apply h.bind (h.releaseNode _)
  intro _
  apply h.pure

theorem nameiLoop (fuel : Nat) (name : Name) (vn : Option Nat) (nd : Nameidata)
    : K (Code × Nameidata) (namei.loop fuel name vn nd) := by
  induction fuel generalizing name vn nd with
  | zero => exact h.throw _ (by simp)
  | succ fuel ih =>
    apply h.bind (h.start name vn)
    intro vdir
    apply h.bind (h.lookup _)
    intro r
    dsimp only
    split
    . apply h.bind (h.ramfs_readlink _)
      intro link
      split
      . exact h.throw _ (by simp)
      . apply h.bind (h.vfs_close _)
        intro _
        apply ih
    . apply h.pure

theorem namei (name : Name) (fuel : Nat) : K (Code × Nameidata) (namei name fuel) := by
  apply h.nameiLoop

end WalkRules

def RamNode.Trims (f : RamNode → RamNode) : Prop :=
  ∀ node, ((f node).vnode = none ∨ (f node).vnode = node.vnode) ∧ (f node).type = node.type ∧
    (f node).lastseq = node.lastseq ∧ (f node).dentry.Sublist node.dentry

theorem RamNode.Trims.of_eq {f : RamNode → RamNode}
    (h : ∀ node, (f node).vnode = node.vnode ∧ (f node).type = node.type ∧ (f node).lastseq = node.lastseq ∧
      (f node).dentry = node.dentry) : RamNode.Trims f := by
  intro node
  rcases h node with ⟨hvnode, htype, hlastseq, hdentry⟩
  rw [hdentry]
  exact ⟨Or.inr hvnode, htype, hlastseq, List.Sublist.refl _⟩

theorem RamNode.Trims.forget : RamNode.Trims fun node => { node with vnode := none } :=
  fun _ => ⟨Or.inl rfl, rfl, rfl, List.Sublist.refl _⟩

structure FileRules (K : (α : Type) → Prog α → Prop) : Prop where
  pure : ∀ {α : Type} (a : α), K α (pure a)
  throw : ∀ {α : Type} (e : Stop), K α (throw e)
  bind : ∀ {α β : Type} {x : Prog α} {f : α → Prog β}, K α x → (∀ a, K β (f a)) → K β (x >>= f)
  getSt : K St getSt
  getVnode : ∀ v, K Vnode (getVnode v)
  getNode : ∀ n, K RamNode (getNode n)
  setNode : ∀ n f, RamNode.Trims f → K Unit (setNode n f)

namespace FileRules

variable {K : (α : Type) → Prog α → Prop} (h : FileRules K)

include h

theorem set (n : Nat) {f : RamNode → RamNode}
    (hf : ∀ node, (f node).vnode = node.vnode ∧ (f node).type = node.type ∧ (f node).lastseq = node.lastseq ∧
      (f node).dentry = node.dentry) : K Unit (Fs.setNode n f) :=
  h.setNode n f (RamNode.Trims.of_eq hf)

theorem deref (n : Nat) : K Unit (deref n) := by
  apply h.bind (h.getNode n)
  intro node
  split
  . apply h.throw
  . apply h.pure

theorem acquireNode (n : Nat) : K Unit (acquireNode n) := by
  apply h.bind (h.getNode n)
  intro node
  split
  . apply h.throw
  . apply h.set
    simp

theorem releaseNode (n : Nat) : K Unit (releaseNode n) := by
  apply h.set
  simp

theorem setPrev (p prev : Ptr) : K Unit (setPrev p prev) := by
  unfold Fs.setPrev
  split
  . apply h.pure
  . apply h.bind (h.deref _)
    intro _
    apply h.set
    simp
  . apply h.throw

theorem setNext (p next : Ptr) : K Unit (setNext p next) := by
  unfold Fs.setNext
  split
  . apply h.pure
  . apply h.bind (h.deref _)
    intro _
    apply h.set
    simp
  . apply h.throw

theorem unlinkNode (n : Nat) : K Unit (unlinkNode n) := by
  apply h.bind (h.getNode n)
  intro node
  apply h.bind (h.setNext _ _)
  intro _
  apply h.bind (h.getNode n)
  intro node'
  apply h.setPrev

theorem ramfs_alloc_node (hnew : ∀ vfs dir type link, K Nat (newNode vfs dir type link)) (vfs : Nat)
    (dir : Option Nat) (type : VType) (link : Option Name) : K Nat (ramfs_alloc_node vfs dir type link) := by
  apply h.bind h.getSt
  intro st
  apply h.bind (h.setPrev _ _)
  intro _
  split
  . apply h.throw
  . apply hnew

theorem ramfs_alloc_dentry (n : Nat) (name : Name) : K RamDentry (ramfs_alloc_dentry n name) := by
  apply h.bind (h.acquireNode n)
  intro _
  apply h.bind (h.set n (by simp))
  intro _
  apply h.bind (h.releaseNode n)
  intro _
  apply h.pure

theorem ramfs_free_dentry (de : RamDentry) : K Unit (ramfs_free_dentry de) := by
  apply h.bind (h.acquireNode de.node)
  intro _
  apply h.bind (h.getNode de.node)
  intro node
  split
  . apply h.throw
  . apply h.bind (h.set de.node (by simp))
    intro _
    apply h.releaseNode

theorem ramfs_dir_detach (parent : Nat) (de : RamDentry) : K Unit (ramfs_dir_detach parent de) := by
  apply h.bind (h.acquireNode parent)
  intro _
  refine h.bind (h.setNode parent _ ?_) ?_
  . intro node
    exact ⟨Or.inr rfl, rfl, rfl, List.erase_sublist⟩
  . intro _
    apply h.releaseNode

theorem ramfs_dir_lookup (dir : Nat) (name : Name) : K (Option RamDentry) (ramfs_dir_lookup dir name) := by
  apply h.bind (h.acquireNode dir)
  intro _
  apply h.bind (h.getNode dir)
  intro node
  split
  . apply h.bind (h.releaseNode dir)
    intro _
    apply h.pure
  . split
    . apply h.throw
    . apply h.bind (h.releaseNode dir)
      intro _
      apply h.pure

theorem unlinkDentry (parent n : Nat) (msg : String) (found : Option RamDentry) : K Code (match found with
    | none => MonadExcept.throw (.panic msg)
    | some de =>
      if de.node ≠ n then
        MonadExcept.throw (.panic msg)
      else do
        Fs.unlinkNode n
        Fs.ramfs_dir_detach parent de
        Fs.ramfs_free_dentry de
        Pure.pure (none : Code)) := by
  cases found with
  | none => apply h.throw
  | some de =>
    dsimp only
    split
    . apply h.throw
    . apply h.bind (h.unlinkNode n)
      intro _
      apply h.bind (h.ramfs_dir_detach parent de)
      intro _
      apply h.bind (h.ramfs_free_dentry de)
      intro _
      apply h.pure

theorem ramfs_remove (vdir vn : Nat) (name : Name) : K Code (ramfs_remove vdir vn name) := by
  apply h.bind (h.getVnode vdir)
  intro vd
  apply h.bind (h.getVnode vn)
  intro v
  split
  . apply h.pure
  . split
    . apply h.pure
    . apply h.bind (h.ramfs_dir_lookup _ _)
      intro found
      apply h.unlinkDentry

theorem ramfs_rmdir (vdir vn : Nat) (name : Name) (len : Nat) : K Code (ramfs_rmdir vdir vn name len) := by
  apply h.bind (h.getVnode vdir)
  intro vd
  apply h.bind (h.getVnode vn)
  intro v
  split
  . apply h.pure
  . apply h.bind (h.acquireNode _)
    intro _
    apply h.bind (h.getNode _)
    intro node
    split
    . apply h.throw
    . split
      . apply h.bind (h.releaseNode _)
        intro _
        apply h.pure
      . apply h.bind (h.set _ (by simp))
        intro _
        apply h.bind (h.releaseNode _)
        intro _
        apply h.bind (h.ramfs_dir_lookup _ _)
        intro found
        apply h.unlinkDentry

theorem ramfs_free_node (n : Nat) : K Unit (ramfs_free_node n) := by
  apply h.bind (h.deref n)
  intro _
  apply h.bind (h.getNode n)
  intro node
  apply h.bind (h.setPrev _ _)
  intro _
  apply h.set
  simp

theorem ramfs_inactive (n : Nat) : K Unit (ramfs_inactive n) := by
  apply h.bind (h.deref n)
  intro _
  apply h.bind (h.acquireNode n)
  intro _
  apply h.bind (h.setNode n _ RamNode.Trims.forget)
  intro _
  apply h.bind (h.getNode n)
  intro node
  split
  . apply h.bind (h.ramfs_free_node n)
    intro _
    apply h.releaseNode
  . apply h.releaseNode

theorem freeDentries (n : Nat) (entries : List RamDentry) : K Unit (ramfs_unmount.freeDentries n entries) := by
  induction entries with
  | nil =>
    apply h.bind (h.getNode n)
    intro node
    split
    . apply h.throw
    . apply h.pure
  | cons de entries ih =>
    apply h.bind (h.deref de.node)
    intro _
    apply h.bind (h.setNode _ _ RamNode.Trims.forget)
    intro _
    apply h.bind (h.ramfs_dir_detach n de)
    intro _
    apply h.bind (h.ramfs_free_dentry de)
    intro _
    apply h.bind h.getSt
    intro st
    split
    . apply h.throw
    . apply ih

theorem freeAllDentries (fuel : Nat) (p : Ptr) : K Unit (ramfs_unmount.freeAllDentries fuel p) := by
  induction fuel generalizing p with
  | zero =>
    cases p with
    | null => apply h.pure
    | wild => apply h.throw
    | ref n => apply h.throw
  | succ fuel ih =>
    cases p with
    | null => apply h.pure
    | wild => apply h.throw
    | ref n =>
      apply h.bind (h.deref n)
      intro _
      apply h.bind (h.setNode _ _ RamNode.Trims.forget)
      intro _
      apply h.bind (h.getNode n)
      intro node
      split
      . apply ih
      . apply h.bind (h.freeDentries n _)
        intro _
        apply h.bind (h.getNode n)
        intro node'
        apply ih

theorem freeAllNodes (fuel : Nat) (p : Ptr) : K Unit (ramfs_unmount.freeAllNodes fuel p) := by
  induction fuel generalizing p with
  | zero =>
    cases p with
    | null => apply h.pure
    | wild => apply h.throw
    | ref n => apply h.throw
  | succ fuel ih =>
    cases p with
    | null => apply h.pure
    | wild => apply h.throw
    | ref n =>
      apply h.bind (h.ramfs_free_node n)
      intro _
      apply h.bind (h.getNode n)
      intro node
      apply ih

theorem ramfs_unmount (vfs : Nat) : K Code (ramfs_unmount vfs) := by
  apply h.bind h.getSt
  intro st
  apply h.bind (h.freeAllDentries _ _)
  intro _
  apply h.bind (h.freeAllNodes _ _)
  intro _
  apply h.pure

end FileRules

structure CallRules (K : (α : Type) → Prog α → Prop) : Prop where
  walk : WalkRules K
  files : FileRules K
  ramfs_alloc_file : ∀ vdir name len type target, K (Code × Option Nat) (ramfs_alloc_file vdir name len type target)
  ramfs_link : ∀ vdir vn name, K Code (ramfs_link vdir vn name)

namespace CallRules

variable {K : (α : Type) → Prog α → Prop} {α : Type} (h : CallRules K)

include h

theorem closeRest (v : Nat) (w : Option Nat) (a : α) : K α (do
    vput v
    vputOpt w
    pure a) := by
  apply h.walk.bind (h.walk.vfs_close v)
  intro _
  apply h.walk.bind (h.walk.vputOpt w)
  intro _
  apply h.walk.pure

theorem closeFailed (v : Nat) (w : Option Nat) (a : α) : K α (do
    vputOpt w
    vput v
    pure a) := by
  apply h.walk.bind (h.walk.vputOpt w)
  intro _
  apply h.walk.bind (h.walk.vfs_close v)
  intro _
  apply h.walk.pure

theorem closeBoth (v w : Nat) (a : α) : K α (do
    vput v
    vrele w
    pure a) := by
  apply h.walk.bind (h.walk.vfs_close v)
  intro _
  apply h.walk.bind (h.walk.vfs_close w)
  intro _
  apply h.walk.pure

theorem closeOne (v : Nat) (a : α) : K α (do
    vput v
    pure a) := by
  apply h.walk.bind (h.walk.vfs_close v)
  intro _
  apply h.walk.pure

theorem closePure (v w : Nat) (error : Code) : K Code (do
    let error ← (pure error : Prog Code)
    vput v
    vrele w
    pure error) := by
  apply h.walk.bind (h.walk.pure error)
  intro error
  apply h.closeBoth

theorem vfs_open (name : Name) (type : VType) (create : Bool) (fuel : Nat)
    : K (Code × Option Nat) (vfs_open name type create fuel) := by
  apply h.walk.bind (h.walk.namei name fuel)
  intro r
  dsimp only
  split
  . split
    . apply h.closeRest
    . apply h.walk.bind (h.walk.acquire _)
      intro _
      apply h.walk.bind (h.ramfs_alloc_file _ _ _ _ _)
      intro r'
      apply h.closeOne
  . apply h.closeOne

theorem vfs_mkdir (name : Name) (fuel : Nat) : K (Code × Option Nat) (vfs_mkdir name fuel) := by
  unfold Fs.vfs_mkdir
  split
  . apply h.walk.pure
  . apply h.walk.bind (h.walk.namei name fuel)
    intro r
    dsimp only
    split
    . apply h.closeRest
    . apply h.walk.bind (h.walk.acquire _)
      intro _
      apply h.walk.bind (h.walk.getVnode _)
      intro vd
      split
      . apply h.closeOne
      . apply h.walk.bind (h.ramfs_alloc_file _ _ _ _ _)
        intro r'
        apply h.closeOne

theorem vfs_symlink (name target : Name) (fuel : Nat) : K Code (vfs_symlink name target fuel) := by
  apply h.walk.bind (h.walk.namei name fuel)
  intro r
  dsimp only
  split
  . apply h.closeRest
  . apply h.walk.bind (h.walk.acquire _)
    intro _
    apply h.walk.bind
    . apply h.walk.bind (h.ramfs_alloc_file _ _ _ _ _)
      intro r'
      apply h.walk.pure
    . intro _
      apply h.closeOne

theorem vfs_link (name target : Name) (fuel : Nat) : K Code (vfs_link name target fuel) := by
  apply h.walk.bind (h.walk.namei target fuel)
  intro r
  dsimp only
  split
  . apply h.walk.pure
  . apply h.files.throw
  . apply h.walk.bind (h.walk.acquire _)
    intro _
    apply h.walk.bind (h.walk.getVnode _)
    intro v
    split
    . apply h.closeBoth
    . apply h.walk.bind (h.walk.vfs_close _)
      intro _
      apply h.walk.bind (h.walk.namei name fuel)
      intro r'
      split
      . apply h.walk.pure
      . apply h.walk.bind (h.walk.acquire _)
        intro _
        apply h.walk.bind (h.ramfs_link _ _ _)
        intro error
        apply h.walk.bind (h.walk.release _)
        intro _
        apply h.closeBoth

theorem vfs_unlink (name : Name) (fuel : Nat) : K Code (vfs_unlink name fuel) := by
  have hremove : ∀ vn vdir name, K Code (do
      let v ← getVnode vn
      let error ← if v.vroot then pure (some Errno.EBUSY) else ramfs_remove vdir vn name
      vput vdir
      vrele vn
      pure error) := by
    intro vn vdir name
    apply h.walk.bind (h.walk.getVnode vn)
    intro v
    split
    . apply h.closePure
    . apply h.walk.bind (h.files.ramfs_remove _ _ _)
      intro error
      apply h.closeBoth
  apply h.walk.bind (h.walk.namei name fuel)
  intro r
  dsimp only
  split
  . apply h.closeFailed
  . apply h.files.throw
  . apply h.walk.bind (h.walk.acquire _)
    intro _
    split
    . apply h.walk.bind (h.walk.acquire _)
      intro _
      apply hremove
    . apply hremove

theorem vfs_rmdir (name : Name) (fuel : Nat) : K Code (vfs_rmdir name fuel) := by
  apply h.walk.bind (h.walk.namei name fuel)
  intro r
  dsimp only
  split
  . apply h.closeFailed
  . apply h.files.throw
  . apply h.walk.bind (h.walk.acquire _)
    intro _
    split
    . apply h.closePure
    . apply h.walk.bind (h.walk.acquire _)
      intro _
      apply h.walk.bind (h.walk.getVnode _)
      intro v
      split
      . apply h.closePure
      . split
        . apply h.closePure
        . apply h.walk.bind (h.files.ramfs_rmdir _ _ _ _)
          intro error
          apply h.closeBoth

end CallRules

end Fs
end Franklin
