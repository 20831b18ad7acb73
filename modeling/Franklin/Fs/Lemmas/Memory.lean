import Franklin.Fs.Calls
import Franklin.Fs.Readdir

/-!
This module contains that what a client of the file system sees depends on the contents of the memory
that `kalloc` gives out.
-/

namespace Franklin
namespace Fs

inductive Request where
  | call (fuel : Nat) (call : Call)
  | readdir (pos v : Nat) (nbytes : BitVec 64) (offset : Nat)

inductive Reply where
  | code (error : Code)
  | listing (error : Code) (count : BitVec 64) (offset : Nat) (records : List Dirent)
  deriving DecidableEq

def Request.run : Request → Prog Reply
  | .call fuel c => do
    let r ← c.run fuel
    pure (.code r.1)
  | .readdir pos v nbytes offset => do
    let (error, count, r) ← vfs_readdir pos v nbytes offset
    pure (.listing error count r.offset r.records)

def replies : List Request → St → List Reply
  | [], _ => []
  | request :: requests, s =>
    match request.run s with
    | .ok reply s' => reply :: replies requests s'
    | .error _ _ => []

def rootMount : Prog Reply := do
  let error ← vfs_mount none ['r', 'a', 'm', 'f', 's'] 0
  pure (.code error)

/--
The replies to the root mount and to the requests that follow it, where the memory was `junk`.
-/
def session (junk : Junk) (requests : List Request) : List Reply :=
  match rootMount (.empty junk) with
  | .error _ _ => []
  | .ok reply s =>
    match init_rootvn s with
    | .error _ _ => [reply]
    | .ok _ s' => reply :: replies requests s'

theorem returns_rootMount (junk : Junk) : returns rootMount (.empty junk) = !junk.nodes 0 := by
  cases h : junk.nodes 0 with
  | false =>
    simp [returns, rootMount, vfs_mount, vfs_mount.finish, ramfs_mount, ramfs_alloc_node, acquireList, newVfs,
      newNode, setVfs, setNode, setPrev, releaseList, getSt, St.empty, strcmp, h, bind, EStateM.bind, pure,
      EStateM.pure]
  | true =>
    simp [returns, rootMount, vfs_mount, vfs_mount.finish, ramfs_mount, ramfs_alloc_node, acquireList, newVfs,
      newNode, setVfs, setNode, setPrev, releaseList, getSt, St.empty, strcmp, h, bind, EStateM.bind, pure,
      EStateM.pure]
    rfl

theorem session_eq_nil_iff (junk : Junk) (requests : List Request)
    : session junk requests = [] ↔ junk.nodes 0 = true := by
  have h := returns_rootMount junk
  unfold returns at h
  unfold session
  cases hrun : rootMount (.empty junk) with
  | error e s =>
    rw [hrun] at h
    cases hnodes : junk.nodes 0 with
    | false => simp [hnodes] at h
    | true => simp
  | ok reply s =>
    rw [hrun] at h
    cases hnodes : junk.nodes 0 with
    | true => simp [hnodes] at h
    | false =>
      dsimp only
      split
      . simp
      . simp

theorem session_depends_on_memory (requests : List Request)
    : ¬ ∀ junk junk', session junk requests = session junk' requests := by
  intro h
  have hnil : session { zeroed with nodes := fun _ => true } requests = [] := by
    rw [session_eq_nil_iff]
  rw [h _ zeroed, session_eq_nil_iff] at hnil
  cases hnil

theorem session_depends_on_memory_mkdir
    : session zeroed [.call 1 (.vfs_mkdir "/a".toList)] = [.code none, .code none] ∧
        session { zeroed with nodes := fun _ => true } [.call 1 (.vfs_mkdir "/a".toList)] = [] := by
  constructor
  . decide +kernel
  . decide +kernel

end Fs
end Franklin
