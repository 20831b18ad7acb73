import Franklin.Fs.Lemmas.Leaks

/-!
This module contains the references that callers of `vfs.c` rely on: every vnode that was handed out, and
`rootvn`, keeps a reference for each time that it was, unless a call gives back one that it does not hold.
-/

namespace Franklin
namespace Fs

/--
The vnodes that the caller has, and `rootvn`, still have a reference.
-/
def Call.Held (own : List Nat) (s : St) : Prop :=
  ∀ v, v ∈ own ∨ s.rootvn = some v → (s.vnodes v).freed = false ∧ 0 < (s.vnodes v).refcount

/--
The path runs on behind something that is no directory: the walk ends there with `vn` still the same as
`vdir`, for which it holds only one reference.
-/
def RunsOn (st : St) (path : Name) (fuel : Nat) : Prop :=
  ∃ D, resolve st path fuel = some (.notdir D)

def Call.Overdraws (st : St) (fuel : Nat) : Call → Prop
  | vfs_open path _ create => Strays st path fuel ∨ create = true ∧ RunsOn st path fuel
  | vfs_mkdir path | vfs_rmdir path | vfs_unlink path | vfs_symlink path _ =>
    Strays st path fuel ∨ RunsOn st path fuel
  | vfs_link _ target => Strays st target fuel
  | vfs_mount path fstype => st.vfslistLock = false ∧ strcmp ['r', 'a', 'm', 'f', 's'] fstype = 0 ∧
    (Strays st.mounting path fuel ∨ RunsOn st.mounting path fuel)
  | vfs_unmount path => Strays st path fuel ∧ KCall.Unmounts st fuel path ∨ RunsOn st path fuel
  | vfs_close _ => False

structure Backed (root : Option Nat) (held : List Nat) (s : St) : Prop where
  rootvn : s.rootvn = root
  linked : ∀ n v, (s.nodes n).vnode = some v → v < s.nextVnode
  alive : ∀ v ∈ held, v < s.nextVnode ∧ (s.vnodes v).freed = false
  count : ∀ v, v < s.nextVnode → (s.vnodes v).freed = false → (held.count v : Int) ≤ (s.vnodes v).refcount

namespace Backed

variable {root : Option Nat} {held held' own : List Nat} {st s : St} {v w n : Nat}

theorem of_count_le (h : Backed root held s) (hle : ∀ v, held'.count v ≤ held.count v)
    : Backed root held' s where
  rootvn := h.rootvn
  linked := h.linked
  alive v hv := by
    apply h.alive
    rw [← List.count_pos_iff] at hv ⊢
    have := hle v
    omega
  count v hlt hfreed := by
    have := h.count v hlt hfreed
    have := hle v
    omega

theorem perm (h : Backed root held s) (hperm : held.Perm held') : Backed root held' s :=
  h.of_count_le fun v => Nat.le_of_eq (hperm.count_eq v).symm

theorem tail (h : Backed root (v :: held) s) : Backed root held s :=
  h.of_count_le fun _ => List.count_le_count_cons

theorem kept (h : Backed root (root.toList ++ own) s) : Call.Held own s := by
  intro v hv
  have hmem : v ∈ root.toList ++ own := by
    rw [List.mem_append, Option.mem_toList, ← h.rootvn]
    exact hv.symm
  rcases h.alive v hmem with ⟨hlt, hfreed⟩
  have hpos := List.count_pos_iff.mpr hmem
  have hle := h.count v hlt hfreed
  exact ⟨hfreed, by omega⟩

theorem walked {held : List (Nat × Loc)} {vl nl : List Nat} (hinv : Inv st) (h : Backed root own st)
    (hw : Walked st s held vl nl) : Backed root (held.map Prod.fst ++ own) s where
  rootvn := hw.same.rootvn.trans h.rootvn
  linked n v hn := ((hw.inv hinv).linked n v hn).1
  alive v hv := by
    rcases List.mem_append.mp hv with hheld | hown
    . rcases List.mem_map.mp hheld with ⟨⟨w, L⟩, hmem, rfl⟩
      exact ⟨hw.lt_nextVnode hmem, hw.freed_eq_false hmem⟩
    . rcases h.alive v hown with ⟨hlt, hfreed⟩
      rw [hw.old v hlt]
      exact ⟨Nat.lt_of_lt_of_le hlt hw.next_le, hfreed⟩
  count v hlt hfreed := by
    rw [List.count_append, count_map_fst]
    by_cases hold : v < st.nextVnode
    . rw [hw.old v hold] at hfreed ⊢
      have := h.count v hold hfreed
      dsimp only
      omega
    . have hnot : own.count v = 0 := by
        rw [List.count_eq_zero]
        intro hown
        exact hold (h.alive v hown).1
      by_cases hrefs : refs held v = 0
      . rw [hw.dropped v (by omega) hlt hrefs] at hfreed
        cases hfreed
      . rcases refs_pos_iff.mp (by omega : 0 < refs held v) with ⟨L, hL⟩
        rcases hw.heldNew v L hL (by omega) with ⟨_, vfs, n, _, heq, _⟩
        rw [heq, hnot]
        simp [freshVnode]

theorem setVnode (h : Backed root held s) {vn : Vnode} (hfreed : vn.freed = (s.vnodes v).freed)
    (hle : (s.vnodes v).refcount ≤ vn.refcount)
    : Backed root held { s with vnodes := Function.update s.vnodes v vn } where
  rootvn := h.rootvn
  linked := h.linked
  alive w hw := by
    rcases h.alive w hw with ⟨hlt, halive⟩
    refine ⟨hlt, ?_⟩
    by_cases heq : w = v
    . subst heq
      dsimp only
      rw [Function.update_self, hfreed, halive]
    . dsimp only
      rw [Function.update_of_ne heq, halive]
  count w hlt halive := by
    dsimp only at hlt halive ⊢
    by_cases heq : w = v
    . subst heq
      rw [Function.update_self] at halive ⊢
      have := h.count w hlt (hfreed ▸ halive)
      omega
    . rw [Function.update_of_ne heq] at halive ⊢
      apply h.count w hlt halive

theorem updNode (h : Backed root held s) {f : RamNode → RamNode}
    (hf : (f (s.nodes n)).vnode = none ∨ (f (s.nodes n)).vnode = (s.nodes n).vnode)
    : Backed root held (s.updNode n f) where
  rootvn := h.rootvn
  linked m v hm := by
    by_cases heq : m = n
    . subst heq
      rw [St.updNode_nodes_self] at hm
      rcases hf with hnone | hsame
      . rw [hnone] at hm
        cases hm
      . apply h.linked m v (hsame ▸ hm)
    . rw [St.updNode_nodes_of_ne heq] at hm
      apply h.linked m v hm
  alive := h.alive
  count := h.count

theorem vref_locked (h : Backed root held s) (hv : v < s.nextVnode)
    : wp (vref_locked v) (fun _ s' => Backed root (v :: held) s') (fun _ _ => True) s := by
  unfold Fs.vref_locked
  rw [wp_bind, wp_getVnode]
  refine ⟨fun _ => trivial, ?_⟩
  intro hfreed
  split
  . trivial
  . rw [wp_setVnode]
    constructor
    case rootvn => apply h.rootvn
    case linked => apply h.linked
    case alive =>
      intro w hw
      by_cases heq : w = v
      . subst heq
        exact ⟨hv, by simp [hfreed]⟩
      . rcases h.alive w (List.mem_of_ne_of_mem heq hw) with ⟨hlt, halive⟩
        exact ⟨hlt, by simp [Function.update_of_ne heq, halive]⟩
    case count =>
      intro w hlt halive
      dsimp only at hlt halive ⊢
      by_cases heq : w = v
      . subst heq
        rw [Function.update_self, List.count_cons_self]
        have := h.count w hlt hfreed
        dsimp only
        omega
      . rw [Function.update_of_ne heq] at halive ⊢
        rw [List.count_cons_of_ne (Ne.symm heq)]
        apply h.count w hlt halive

theorem newVnode (h : Backed root held s) (vfs n : Nat)
    : wp (newVnode vfs n) (fun v s' => Backed root (v :: held) s') (fun _ _ => True) s := by
  have hnot : held.count s.nextVnode = 0 := by
    rw [List.count_eq_zero]
    intro hmem
    have := (h.alive _ hmem).1
    omega
  change Backed root (s.nextVnode :: held) _
  constructor
  case rootvn => apply h.rootvn
  case linked =>
    intro m w hm
    dsimp only at hm ⊢
    by_cases heq : m = n
    . rw [heq, Function.update_self, Option.some.injEq] at hm
      omega
    . rw [Function.update_of_ne heq] at hm
      have := h.linked m w hm
      omega
  case alive =>
    intro w hw
    dsimp only
    by_cases heq : w = s.nextVnode
    . rw [heq, Function.update_self]
      exact ⟨Nat.lt_succ_self _, rfl⟩
    . rcases h.alive w (List.mem_of_ne_of_mem heq hw) with ⟨hlt, halive⟩
      rw [Function.update_of_ne heq]
      exact ⟨Nat.lt_succ_of_lt hlt, halive⟩
  case count =>
    intro w hlt halive
    dsimp only at hlt halive ⊢
    by_cases heq : w = s.nextVnode
    . rw [heq, Function.update_self, List.count_cons_self, hnot]
      simp
    . rw [Function.update_of_ne heq] at halive ⊢
      rw [List.count_cons_of_ne (Ne.symm heq)]
      apply h.count w (by omega) halive

theorem vfs_close (h : Backed root held s) (hv : v ∈ held)
    : wp (vfs_close v) (fun _ s' => Backed root (held.erase v) s') (fun _ _ => True) s := by
  rcases h.alive v hv with ⟨hvlt, hvalive⟩
  have hpos := List.count_pos_iff.mpr hv
  apply wp_mono (wp_vfs_close_iff (P := fun _ => True) (Q := fun _ s' => s' = s.close v) hvalive rfl)
  . intro _ s1 hs1
    subst hs1
    have hsame := Forest.close_same s v
    have hnext : (s.close v).nextVnode = s.nextVnode := by rw [hsame]
    have hrootvn : (s.close v).rootvn = s.rootvn := by rw [hsame]
    have hvcount := h.count v hvlt hvalive
    constructor
    case rootvn => rw [hrootvn, h.rootvn]
    case linked =>
      intro m w hm
      rw [Forest.close_vnode] at hm
      rw [hnext]
      split at hm
      . cases hm
      . apply h.linked m w hm
    case alive =>
      intro w hw
      rcases h.alive w (List.mem_of_mem_erase hw) with ⟨hlt, halive⟩
      rw [hnext, Forest.close_vnodes]
      refine ⟨hlt, ?_⟩
      split
      . next heq =>
        -- there is still another entry
        subst heq
        have hleft := List.count_pos_iff.mpr hw
        rw [List.count_erase_self] at hleft
        simp only [halive, Bool.false_or, decide_eq_false_iff_not]
        omega
      . apply halive
    case count =>
      intro w hlt halive
      rw [hnext] at hlt
      rw [Forest.close_vnodes] at halive ⊢
      split
      . next heq =>
        subst heq
        rw [List.count_erase_self]
        dsimp only
        omega
      . next heq =>
        rw [if_neg heq] at halive
        rw [List.count_erase_of_ne heq]
        apply h.count w hlt halive
  . simp

end Backed

def Backs (root : Option Nat) (held : List Nat) {α : Type} (x : Prog α) : Prop :=
  Keeps (Backed root held) (fun _ _ => True) x

namespace Backs

variable {α β : Type} {root : Option Nat} {held : List Nat} {v n : Nat}

theorem pure (a : α) : Backs root held (pure a : Prog α) :=
  Keeps.pure (fun _ => trivial) a

theorem throw (e : Stop) : Backs root held (throw e : Prog α) :=
  Keeps.throw e

theorem bind {x : Prog α} {f : α → Prog β} (hx : Backs root held x) (hf : ∀ a, Backs root held (f a))
    : Backs root held (x >>= f) :=
  Keeps.bind (fun _ _ _ _ _ => trivial) hx hf

theorem ite {c : Prop} [Decidable c] {x y : Prog α} (hx : Backs root held x) (hy : Backs root held y)
    : Backs root held (if c then x else y) :=
  Keeps.ite hx hy

theorem getVnode (v : Nat) : Backs root held (getVnode v) := by
  intro s hs
  rw [wp_getVnode]
  exact ⟨fun _ => trivial, fun _ => ⟨hs, trivial⟩⟩

theorem setVnode {f : Vnode → Vnode}
    (hf : ∀ vn, (f vn).freed = vn.freed ∧ vn.refcount ≤ (f vn).refcount) : Backs root held (setVnode v f) := by
  intro s hs
  rw [wp_setVnode]
  exact ⟨hs.setVnode (hf _).1 (hf _).2, trivial⟩

theorem setVfs {f : Vfs → Vfs} : Backs root held (setVfs v f) := by
  intro s hs
  exact ⟨⟨hs.rootvn, hs.linked, hs.alive, hs.count⟩, trivial⟩

theorem files : FileRules fun _ x => Backs root held x where
  pure := pure
  throw := throw
  bind := bind
  getSt s hs := ⟨hs, trivial⟩
  getVnode := getVnode
  getNode n s hs := ⟨hs, trivial⟩
  setNode n f hf := by
    intro s hs
    rw [wp_setNode_iff]
    exact ⟨hs.updNode (hf _).1, trivial⟩

theorem acquire (v : Nat) : Backs root held (acquire v) := by
  apply (getVnode v).bind
  intro vn
  apply ite (throw _)
  apply setVnode
  simp

theorem release (v : Nat) : Backs root held (release v) := by
  apply (getVnode v).bind
  intro vn
  apply setVnode
  simp

theorem acquireList : Backs root held acquireList := by
  intro s hs
  rw [wp_acquireList]
  exact ⟨fun _ => trivial, fun _ => ⟨⟨hs.rootvn, hs.linked, hs.alive, hs.count⟩, trivial⟩⟩

theorem releaseList : Backs root held releaseList := by
  intro s hs
  exact ⟨⟨hs.rootvn, hs.linked, hs.alive, hs.count⟩, trivial⟩

theorem newVfs : Backs root held newVfs := by
  intro s hs
  exact ⟨⟨hs.rootvn, hs.linked, hs.alive, hs.count⟩, trivial⟩

theorem newNode (vfs : Nat) (dir : Option Nat) (type : VType) (link : Name)
    : Backs root held (newNode vfs dir type link) := by
  intro s hs
  refine ⟨⟨hs.rootvn, ?_, hs.alive, hs.count⟩, trivial⟩
  intro m v hm
  dsimp only at hm
  by_cases heq : m = s.nextNode
  . rw [heq, Function.update_self] at hm
    cases hm
  . rw [Function.update_of_ne heq] at hm
    apply hs.linked m v hm

theorem ramfs_alloc_node (vfs : Nat) (dir : Option Nat) (type : VType) (link : Option Name)
    : Backs root held (ramfs_alloc_node vfs dir type link) :=
  files.ramfs_alloc_node newNode vfs dir type link

theorem ramfs_dir_attach (parent : Nat) (de : RamDentry) : Backs root held (ramfs_dir_attach parent de) := by
  apply (files.acquireNode parent).bind
  intro _
  apply (files.getNode parent).bind
  intro node
  apply ite
  . apply (files.releaseNode parent).bind
    intro _
    apply pure
  . apply bind
    . intro s hs
      rw [wp_setNode_iff]
      exact ⟨hs.updNode (Or.inr rfl), trivial⟩
    . intro _
      apply (files.releaseNode parent).bind
      intro _
      apply pure

theorem ramfs_link (vdir vn : Nat) (name : Name) : Backs root held (ramfs_link vdir vn name) := by
  apply (getVnode vdir).bind
  intro vd
  apply (getVnode vn).bind
  intro v
  apply (files.ramfs_alloc_dentry _ _).bind
  intro de
  apply (ramfs_dir_attach _ _).bind
  intro _
  apply pure

theorem ramfs_mount (vfs : Nat) : Backs root held (ramfs_mount vfs) := by
  apply files.getSt.bind
  intro st
  apply setVfs.bind
  intro _
  apply (ramfs_alloc_node _ _ _ _).bind
  intro root
  apply (files.set root (by simp)).bind
  intro _
  apply setVfs.bind
  intro _
  apply pure

theorem finish (vfs : Nat) : Backs root held (vfs_mount.finish vfs) := by
  apply files.getSt.bind
  intro st
  apply setVfs.bind
  intro _
  have hlist : Backs root held fun st => .ok () { st with mountedlist := some vfs } := by
    intro s hs
    exact ⟨⟨hs.rootvn, hs.linked, hs.alive, hs.count⟩, trivial⟩
  apply hlist.bind
  intro _
  apply (ramfs_mount vfs).bind
  intro error
  apply releaseList.bind
  intro _
  apply pure

end Backs

section Files

variable {α β : Type} {root : Option Nat} {held own : List Nat} {s : St} {x : Prog α} {f : α → Prog β}
  {R : β → St → Prop} {v w d n : Nat}

theorem Backs.wp_run (hx : Backs root held x) (h : Backed root held s)
    : wp x (fun _ s' => Backed root held s') (fun _ _ => True) s := by
  apply wp_mono (hx s h)
  . intro a s1 hs1
    exact hs1.1
  . simp

theorem Backs.wp_next (hx : Backs root held x) (h : Backed root held s)
    (hf : ∀ a s', Backed root held s' → wp (f a) R (fun _ _ => True) s')
    : wp (x >>= f) R (fun _ _ => True) s := by
  apply wp_bind_of (hx.wp_run h)
  intro a s1 hs1
  apply hf a s1 hs1

namespace Backed

theorem close_head (h : Backed root (v :: held) s)
    : wp (Fs.vfs_close v) (fun _ s' => Backed root held s') (fun _ _ => True) s := by
  apply wp_mono (h.vfs_close List.mem_cons_self)
  . intro _ s1 hs1
    rw [List.erase_cons_head] at hs1
    exact hs1
  . simp

theorem close_both (h : Backed root (v :: w :: held) s) (a : α)
    : wp (do
          vput v
          vrele w
          pure a) (fun _ s' => Backed root held s') (fun _ _ => True) s := by
  apply wp_bind_of h.close_head
  intro _ s1 hs1
  apply wp_bind_of hs1.close_head
  intro _ s2 hs2
  exact hs2

theorem ramfs_vget (h : Backed root held s) (vfs n : Nat)
    : wp (ramfs_vget vfs n) (fun v s' => Backed root (v :: held) s') (fun _ _ => True) s := by
  have hend : ∀ {v : Nat} {s : St}, Backed root (v :: held) s → wp (do
      release v
      releaseNode n
      pure v) (fun v s' => Backed root (v :: held) s') (fun _ _ => True) s := by
    intro v s hs
    apply (Backs.release v).wp_next hs
    intro _ s1 hs1
    apply (Backs.files.releaseNode n).wp_next hs1
    intro _ s2 hs2
    exact hs2
  unfold Fs.ramfs_vget
  apply (Backs.files.deref n).wp_next h
  intro _ s0 hs0
  apply (Backs.files.acquireNode n).wp_next hs0
  intro _ s1 hs1
  rw [wp_bind, wp_getNode]
  split
  . next v hv =>
    have hacquire : wp (acquire v) (fun _ s' => Backed root held s' ∧ v < s'.nextVnode) (fun _ _ => True) s1 := by
      unfold acquire
      rw [wp_bind, wp_getVnode]
      refine ⟨fun _ => trivial, ?_⟩
      intro _
      split
      . trivial
      . rw [wp_setVnode]
        exact ⟨hs1.setVnode rfl (Int.le_refl _), hs1.linked n v hv⟩
    apply wp_bind_of hacquire
    intro _ s2 hs2
    apply wp_bind_of (hs2.1.vref_locked hs2.2)
    intro _ s3 hs3
    apply hend hs3
  . apply wp_bind_of (hs1.newVnode vfs n)
    intro v s2 hs2
    apply hend hs2

theorem ramfs_alloc_file (h : Backed root held s) (vdir : Nat) (name : Name) (len : Nat) (type : VType)
    (target : Option Name)
    : wp (ramfs_alloc_file vdir name len type target) (fun r s' => Backed root (r.2.toList ++ held) s')
        (fun _ _ => True) s := by
  unfold Fs.ramfs_alloc_file
  apply (Backs.getVnode vdir).wp_next h
  intro vd s1 hs1
  dsimp only
  split
  . exact hs1
  . apply (Backs.ramfs_alloc_node _ _ _ _).wp_next hs1
    intro n s2 hs2
    apply (Backs.files.ramfs_alloc_dentry _ _).wp_next hs2
    intro de s3 hs3
    apply (Backs.ramfs_dir_attach _ _).wp_next hs3
    intro _ s4 hs4
    apply wp_bind_of (hs4.ramfs_vget _ _)
    intro v s5 hs5
    exact hs5

end Backed

end Files

section Walk

variable {root : Option Nat} {own : List Nat} {st s : St} {path target : Name} {fuel : Nat}

structure Handed (root : Option Nat) (own : List Nat) (st s : St) (path : Name) (fuel : Nat) (r : Code × Nameidata)
    : Prop where
  inv : Inv s
  kept : Backed root own s
  done : r.1 = none → ∃ vn, r.2.vn = some vn ∧ Backed root (vn :: own) s ∧
    (¬ Strays st path fuel → Backed root (r.2.vdir :: vn :: own) s)
  failed : ∀ e, r.1 = some e → Backed root (r.2.vdir :: own) s ∧ (r.2.vn = none ∨ RunsOn st path fuel)

theorem wp_namei_handed (hinv : Inv st) (h : Backed root own st) (path : Name) (fuel : Nat)
    : wp (namei path fuel) (fun r s => Handed root own st s path fuel r) (fun _ _ => True) st := by
  apply wp_mono (wp_namei hinv path fuel)
  . intro r s hs
    rcases hs with ⟨e, he, hended, hsym⟩
    cases hended with
    | found d v D V name len hw =>
      have hback := h.walked hinv hw
      have hboth := hback.perm (List.Perm.swap _ _ _)
      exact ⟨hw.inv hinv, hback.tail.tail, fun _ => ⟨v, rfl, hboth.tail, fun _ => hboth⟩, by simp⟩
    | here d D name len hw =>
      have hback := h.walked hinv hw
      exact ⟨hw.inv hinv, hback.tail.tail, fun _ => ⟨d, rfl, hback.tail, fun _ => hback⟩, by simp⟩
    | tail d v D V name len hw =>
      have hback := h.walked hinv hw
      have hdir := (hback.perm (List.Perm.swap _ _ _)).tail
      refine ⟨hw.inv hinv, hback.tail.tail, fun _ => ⟨d, rfl, hdir, ?_⟩, by simp⟩
      intro hnot
      have hsame : D = V := by
        by_contra hne
        exact hnot ⟨D, V, he, hne⟩
      subst hsame
      have hdv : d = v := hw.eq_of_loc_eq List.mem_cons_self (List.mem_cons_of_mem _ List.mem_cons_self)
      subst hdv
      exact hback
    | link d v D V name len hw => simp at hsym
    | missing d D name len hw =>
      have hback := h.walked hinv hw
      exact ⟨hw.inv hinv, hback.tail, by simp, fun _ _ => ⟨hback, Or.inl rfl⟩⟩
    | notdir d D vn name len hw =>
      have hback := h.walked hinv hw
      exact ⟨hw.inv hinv, hback.tail, by simp, fun _ _ => ⟨hback, Or.inr ⟨D, he⟩⟩⟩
  . simp

theorem Handed.backed {r : Code × Nameidata} (h : Handed root own st s path fuel r)
    (hstray : ¬ Strays st path fuel) (hruns : ¬ RunsOn st path fuel)
    : Backed root (r.2.vdir :: (r.2.vn.toList ++ own)) s := by
  cases hcode : r.1 with
  | none =>
    rcases h.done hcode with ⟨vn, hvn, _, hback⟩
    rw [hvn]
    apply hback hstray
  | some e =>
    rcases h.failed e hcode with ⟨hback, hnone | hrun⟩
    . rw [hnone]
      apply hback
    . exact absurd hrun hruns

end Walk

section Calls

variable {α : Type} {root : Option Nat} {held own : List Nat} {st s : St} {path name target : Name} {type : VType}
  {fuel d v len : Nat} {vn : Option Nat}

namespace Backed

theorem vputOpt (h : Backed root (vn.toList ++ held) s)
    : wp (vputOpt vn) (fun _ s' => Backed root held s') (fun _ _ => True) s := by
  cases vn with
  | none => exact h
  | some v => apply h.close_head

theorem close_rest {R : α → St → Prop} {a : α} (h : Backed root (d :: (vn.toList ++ held)) s)
    (hR : ∀ s', Backed root held s' → R a s')
    : wp (do
          vput d
          Fs.vputOpt vn
          pure a) R (fun _ _ => True) s := by
  apply wp_bind_of h.close_head
  intro _ s1 hs1
  apply wp_bind_of hs1.vputOpt
  intro _ s2 hs2
  apply hR s2 hs2

theorem close_failed (h : Backed root (d :: (vn.toList ++ held)) s) (a : α)
    : wp (do
          Fs.vputOpt vn
          vput d
          pure a) (fun _ s' => Backed root held s') (fun _ _ => True) s := by
  have hperm : (d :: (vn.toList ++ held)).Perm (vn.toList ++ (d :: held)) := List.perm_middle.symm
  apply wp_bind_of (h.perm hperm).vputOpt
  intro _ s1 hs1
  apply wp_bind_of hs1.close_head
  intro _ s2 hs2
  exact hs2

theorem created (h : Backed root (d :: own) s) (name : Name) (len : Nat) (type : VType)
    : wp (do
          let (error, vn) ← Fs.ramfs_alloc_file d name len type none
          vrele d
          pure (error, vn)) (fun r s' => Backed root (r.2.toList ++ own) s') (fun _ _ => True) s := by
  apply wp_bind_of (h.ramfs_alloc_file d name len type none)
  intro r s1 hs1
  apply wp_bind_of (hs1.perm List.perm_middle).close_head
  intro _ s2 hs2
  exact hs2

end Backed

variable (hinv : Inv st) (h : Backed root own st)

include hinv h

theorem wp_open_backed {create : Bool} (hdraw : ¬ Call.Overdraws st fuel (.vfs_open path type create))
    : wp (vfs_open path type create fuel) (fun r s' => Backed root (r.2.toList ++ own) s') (fun _ _ => True)
        st := by
  unfold Call.Overdraws at hdraw
  rw [not_or] at hdraw
  unfold vfs_open
  apply wp_bind_of (wp_namei_handed hinv h path fuel)
  intro r s1 hs1
  rcases r with ⟨error, nd⟩
  cases create with
  | false =>
    dsimp only
    rw [if_neg (by simp)]
    cases error with
    | none =>
      rcases hs1.done rfl with ⟨vn, hvn, _, hback⟩
      dsimp only at hvn hback
      rw [hvn]
      apply wp_bind_of (hback hdraw.1).close_head
      intro _ s2 hs2
      exact hs2
    | some e =>
      apply wp_bind_of (hs1.failed e rfl).1.close_head
      intro _ s2 hs2
      exact hs2
  | true =>
    have hback := hs1.backed hdraw.1 fun hruns => hdraw.2 ⟨rfl, hruns⟩
    dsimp only at hback ⊢
    rw [if_pos rfl]
    split
    . exact hback.close_rest fun _ hs => hs
    . next herror =>
      rw [not_not] at herror
      subst herror
      apply (Backs.acquire nd.vdir).wp_next (hs1.failed _ rfl).1
      intro _ s2 hs2
      apply hs2.created

theorem wp_mkdir_backed (hdraw : ¬ Call.Overdraws st fuel (.vfs_mkdir path))
    : wp (vfs_mkdir path fuel) (fun r s' => Backed root (r.2.toList ++ own) s') (fun _ _ => True) st := by
  unfold Call.Overdraws at hdraw
  rw [not_or] at hdraw
  unfold vfs_mkdir
  split
  . exact h
  . apply wp_bind_of (wp_namei_handed hinv h path fuel)
    intro r s1 hs1
    rcases r with ⟨error, nd⟩
    have hback := hs1.backed hdraw.1 hdraw.2
    dsimp only at hback ⊢
    split
    . exact hback.close_rest fun _ hs => hs
    . next herror =>
      rw [not_not] at herror
      subst herror
      apply (Backs.acquire nd.vdir).wp_next (hs1.failed _ rfl).1
      intro _ s2 hs2
      apply (Backs.getVnode nd.vdir).wp_next hs2
      intro vd s3 hs3
      split
      . apply wp_bind_of hs3.close_head
        intro _ s4 hs4
        exact hs4
      . apply hs3.created

theorem wp_rmdir_backed (hdraw : ¬ Call.Overdraws st fuel (.vfs_rmdir path))
    : wp (vfs_rmdir path fuel) (fun _ s' => Backed root own s') (fun _ _ => True) st := by
  unfold Call.Overdraws at hdraw
  rw [not_or] at hdraw
  unfold vfs_rmdir
  apply wp_bind_of (wp_namei_handed hinv h path fuel)
  intro r s1 hs1
  rcases r with ⟨error, nd⟩
  have hback := hs1.backed hdraw.1 hdraw.2
  cases error with
  | some e => apply hback.close_failed
  | none =>
    rcases hs1.done rfl with ⟨vn, hvn, _⟩
    dsimp only at hvn hback ⊢
    rw [hvn] at hback ⊢
    apply (Backs.acquire vn).wp_next hback
    intro _ s2 hs2
    split
    . apply hs2.close_both
    . apply (Backs.acquire nd.vdir).wp_next hs2
      intro _ s3 hs3
      apply (Backs.getVnode vn).wp_next hs3
      intro v s4 hs4
      split
      . apply hs4.close_both
      . split
        . apply hs4.close_both
        . apply (Backs.files.ramfs_rmdir _ _ _ _).wp_next hs4
          intro error s5 hs5
          apply hs5.close_both

theorem wp_unlink_backed (hdraw : ¬ Call.Overdraws st fuel (.vfs_unlink path))
    : wp (vfs_unlink path fuel) (fun _ s' => Backed root own s') (fun _ _ => True) st := by
  unfold Call.Overdraws at hdraw
  rw [not_or] at hdraw
  unfold vfs_unlink
  apply wp_bind_of (wp_namei_handed hinv h path fuel)
  intro r s1 hs1
  rcases r with ⟨error, nd⟩
  have hback := hs1.backed hdraw.1 hdraw.2
  cases error with
  | some e => apply hback.close_failed
  | none =>
    rcases hs1.done rfl with ⟨vn, hvn, _⟩
    dsimp only at hvn hback ⊢
    rw [hvn] at hback ⊢
    have hremove : ∀ {s : St}, Backed root (nd.vdir :: vn :: own) s → wp (do
        let v ← getVnode vn
        let error ← if v.vroot then pure (some Errno.EBUSY) else ramfs_remove nd.vdir vn nd.name
        vput nd.vdir
        vrele vn
        pure error) (fun _ s' => Backed root own s') (fun _ _ => True) s := by
      intro s hs
      apply (Backs.getVnode vn).wp_next hs
      intro v s1 hs1
      split
      . apply hs1.close_both
      . apply (Backs.files.ramfs_remove _ _ _).wp_next hs1
        intro error s2 hs2
        apply hs2.close_both
    apply (Backs.acquire vn).wp_next hback
    intro _ s2 hs2
    split
    . apply (Backs.acquire nd.vdir).wp_next hs2
      intro _ s3 hs3
      apply hremove hs3
    . apply hremove hs2

theorem wp_symlink_backed (hdraw : ¬ Call.Overdraws st fuel (.vfs_symlink path target))
    : wp (vfs_symlink path target fuel) (fun _ s' => Backed root own s') (fun _ _ => True) st := by
  unfold Call.Overdraws at hdraw
  rw [not_or] at hdraw
  unfold vfs_symlink ramfs_symlink
  apply wp_bind_of (wp_namei_handed hinv h path fuel)
  intro r s1 hs1
  rcases r with ⟨error, nd⟩
  have hback := hs1.backed hdraw.1 hdraw.2
  dsimp only at hback ⊢
  split
  . exact hback.close_rest fun _ hs => hs
  . next herror =>
    rw [not_not] at herror
    subst herror
    simp only [bind_assoc, pure_bind]
    apply (Backs.acquire nd.vdir).wp_next (hs1.failed _ rfl).1
    intro _ s2 hs2
    apply wp_bind_of (hs2.ramfs_alloc_file _ _ _ _ _)
    intro r s3 hs3
    apply wp_bind_of (hs3.perm List.perm_middle).close_head
    intro _ s4 hs4
    exact hs4.of_count_le fun v => by simp

theorem wp_link_backed (hdraw : ¬ Call.Overdraws st fuel (.vfs_link path target))
    : wp (vfs_link path target fuel) (fun _ s' => Backed root own s') (fun _ _ => True) st := by
  unfold vfs_link
  apply wp_bind_of (wp_namei_handed hinv h target fuel)
  intro r s1 hs1
  rcases r with ⟨error, nd⟩
  cases error with
  | some e => exact hs1.kept
  | none =>
    rcases hs1.done rfl with ⟨vn, hvn, _, hback⟩
    specialize hback hdraw
    dsimp only at hvn hback ⊢
    rw [hvn]
    apply wp_bind_of (wp_conj (Backs.wp_run (Backs.acquire vn) hback) (Tame.acquire s1 hs1.inv))
    intro _ s2 hs2
    rcases hs2 with ⟨hback2, hinv2, _⟩
    rw [wp_bind, wp_getVnode]
    refine ⟨fun _ => trivial, ?_⟩
    intro _
    split
    . apply hback2.close_both
    . apply wp_bind_of (wp_conj hback2.close_head (Tame.vfs_close s2 hinv2))
      intro _ s3 hs3
      rcases hs3 with ⟨hback3, hinv3, _⟩
      apply wp_bind_of (wp_namei_handed hinv3 hback3 path fuel)
      intro r s4 hs4
      rcases r with ⟨error, nd⟩
      dsimp only
      split
      . exact hs4.kept.tail
      . next herror =>
        rw [not_not] at herror
        subst herror
        apply (Backs.acquire nd.vdir).wp_next (hs4.failed _ rfl).1
        intro _ s5 hs5
        apply (Backs.ramfs_link _ _ _).wp_next hs5
        intro error s6 hs6
        apply (Backs.release nd.vdir).wp_next hs6
        intro _ s7 hs7
        apply hs7.close_both

theorem wp_mount_backed {fstype : Name} (hdraw : ¬ Call.Overdraws st fuel (.vfs_mount path fstype))
    : wp (vfs_mount (some path) fstype fuel) (fun _ s' => Backed root own s') (fun _ _ => True) st := by
  unfold vfs_mount
  rw [wp_bind, wp_acquireList]
  refine ⟨fun _ => trivial, ?_⟩
  intro hlock
  split
  . rw [wp_bind, wp_releaseList, wp_pure]
    exact ⟨h.rootvn, h.linked, h.alive, h.count⟩
  . next hfstype =>
    rw [not_not] at hfstype
    have hwalk : ¬ (Strays st.mounting path fuel ∨ RunsOn st.mounting path fuel) :=
      fun hwalk => hdraw ⟨hlock, hfstype, hwalk⟩
    rw [not_or] at hwalk
    have hmounting : Backed root own st.mounting := ⟨h.rootvn, h.linked, h.alive, h.count⟩
    rw [wp_bind, wp_newVfs]
    change wp _ _ _ st.mounting
    dsimp only
    apply wp_bind_of (wp_namei_handed hinv.mounting hmounting path fuel)
    intro r s1 hs1
    rcases r with ⟨error, nd⟩
    have hback := hs1.backed hwalk.1 hwalk.2
    have hfail : ∀ {s : St} (e : Errno), Backed root (nd.vdir :: (nd.vn.toList ++ own)) s →
        wp (vfs_mount.fail2 e nd) (fun _ s' => Backed root own s') (fun _ _ => True) s := by
      intro s e hs
      have hperm : (nd.vdir :: (nd.vn.toList ++ own)).Perm (nd.vn.toList ++ (nd.vdir :: own)) :=
        List.perm_middle.symm
      apply wp_bind_of (hs.perm hperm).vputOpt
      intro _ s2 hs2
      apply wp_bind_of hs2.close_head
      intro _ s3 hs3
      apply Backs.releaseList.wp_next hs3
      intro _ s4 hs4
      exact hs4
    cases error with
    | some e => apply hfail e hback
    | none =>
      rcases hs1.done rfl with ⟨vn, hvn, _⟩
      dsimp only at hvn hback ⊢
      split
      . next heq => cases heq
      . trivial
      . next mnt _ hmnt =>
        have hsame : vn = mnt := Option.some.inj (hvn.symm.trans hmnt)
        subst hsame
        apply (Backs.acquire vn).wp_next hback
        intro _ s2 hs2
        apply (Backs.getVnode vn).wp_next hs2
        intro v s3 hs3
        split
        . apply hfail _ hs3
        . split
          . apply hfail _ hs3
          . rw [hvn] at hs3
            apply Backs.setVfs.wp_next hs3
            intro _ s4 hs4
            have hset : Backs root (nd.vdir :: vn :: own) (setVnode vn fun vn => { vn with mountedhere := some st.nextVfs }) :=
              Backs.setVnode (by simp)
            apply hset.wp_next hs4
            intro _ s5 hs5
            apply wp_bind_of (hs5.perm (List.Perm.swap _ _ _)).close_head
            intro _ s6 hs6
            apply wp_bind_of hs6.close_head
            intro _ s7 hs7
            apply (Backs.finish _).wp_run hs7

theorem wp_unmount_backed (hdraw : ¬ Call.Overdraws st fuel (.vfs_unmount path))
    : wp (vfs_unmount path fuel) (fun _ s' => Backed root own s') (fun _ _ => True) st := by
  unfold Call.Overdraws at hdraw
  rw [not_or] at hdraw
  unfold vfs_unmount
  apply wp_bind_of (wp_conj (wp_namei_handed hinv h path fuel) (wp_mono (wp_namei hinv path fuel)
    (fun _ _ h => h) (fun _ _ _ => trivial)))
  intro r s1 hs1
  rcases hs1 with ⟨hs1, e, hresolve, hended, hsym⟩
  rcases r with ⟨error, nd⟩
  cases error with
  | some e' =>
    rcases hs1.failed e' rfl with ⟨hback, hnone | hruns⟩
    . dsimp only at hback hnone ⊢
      rw [hnone]
      apply wp_bind_of (Backs.wp_run (Backs.pure ()) hback)
      intro _ s2 hs2
      apply wp_bind_of hs2.close_head
      intro _ s3 hs3
      exact hs3
    . exact absurd hruns hdraw.2
  | none =>
    rcases hs1.done rfl with ⟨vn, hvn, hback, hboth⟩
    rcases hended.pair hsym hvn with ⟨V, D, x, X, hV, _, hw, hmem⟩
    rcases hw.members hmem with ⟨_, _, hvfs, hvroot, _⟩
    dsimp only at hvn hboth ⊢
    rw [hvn]
    dsimp only
    rw [wp_bind, hw.wp_getVnode hmem, wp_bind, wp_getVfs, hvfs, hvroot, hw.same.vfss]
    have hrefuse : ∀ {s : St}, Backed root (vn :: own) s → wp (do
        vrele vn
        pure (some Errno.EINVAL : Code)) (fun _ s' => Backed root own s') (fun _ _ => True) s := by
      intro s hs
      apply wp_bind_of hs.close_head
      intro _ s2 hs2
      exact hs2
    by_cases hunmounts : V.vroot st = true ∧ (st.vfss (V.vfs st)).rootfs = false
    . have hstray : ¬ Strays st path fuel :=
        fun hstray => hdraw.1 ⟨hstray, e, V, hresolve, hV, hunmounts.1, hunmounts.2⟩
      apply (Backs.acquire vn).wp_next (hboth hstray)
      intro _ s2 hs2
      rw [hunmounts.1, hunmounts.2]
      apply wp_bind_of (hs2.perm (List.Perm.swap _ _ _)).close_head
      intro _ s3 hs3
      apply (Backs.files.ramfs_unmount _).wp_next hs3
      intro _ s4 hs4
      split
      . next mnt _ =>
        apply (Backs.acquire mnt).wp_next hs4
        intro _ s5 hs5
        have hset : Backs root (nd.vdir :: own) (setVnode mnt fun vn => { vn with mountedhere := none }) :=
          Backs.setVnode (by simp)
        apply hset.wp_next hs5
        intro _ s6 hs6
        apply (Backs.release mnt).wp_next hs6
        intro _ s7 hs7
        apply wp_bind_of hs7.close_head
        intro _ s8 hs8
        exact hs8
      . trivial
    . apply (Backs.acquire vn).wp_next hback
      intro _ s2 hs2
      split
      . apply hrefuse hs2
      . next hroot =>
        split
        . apply hrefuse hs2
        . next hflag => exact absurd ⟨by simpa using hroot, by simpa using hflag⟩ hunmounts

theorem Call.wp_run_backed {call : Call} {ledger : List Nat} (hown : own = root.toList ++ ledger)
    (hallowed : call.Allowed ledger) (hdraw : ¬ call.Overdraws st fuel)
    : wp (call.run fuel) (fun r s' => Backed root (root.toList ++ call.ledger ledger r) s') (fun _ _ => True)
        st := by
  subst hown
  have hgiven : ∀ {x : Prog (Code × Option Nat)},
      wp x (fun r s' => Backed root (r.2.toList ++ (root.toList ++ ledger)) s') (fun _ _ => True) st →
      wp x (fun r s' => Backed root (root.toList ++ (r.2.toList ++ ledger)) s') (fun _ _ => True) st := by
    intro x hx
    apply wp_mono hx
    . intro r s1 hs1
      apply hs1.of_count_le
      intro v
      simp only [List.count_append]
      omega
    . simp
  have hcode : ∀ {x : Prog Code},
      wp x (fun _ s' => Backed root (root.toList ++ ledger) s') (fun _ _ => True) st →
      wp (do
        let error ← x
        pure (error, (none : Option Nat))) (fun r s' => Backed root (root.toList ++ (r.2.toList ++ ledger)) s')
        (fun _ _ => True) st := by
    intro x hx
    rw [wp_bind]
    apply hx
  cases call with
  | vfs_open path type create => apply hgiven (wp_open_backed hinv h hdraw)
  | vfs_mkdir path => apply hgiven (wp_mkdir_backed hinv h hdraw)
  | vfs_rmdir path => apply hcode (wp_rmdir_backed hinv h hdraw)
  | vfs_unlink path => apply hcode (wp_unlink_backed hinv h hdraw)
  | vfs_link path target => apply hcode (wp_link_backed hinv h hdraw)
  | vfs_symlink path target => apply hcode (wp_symlink_backed hinv h hdraw)
  | vfs_mount path fstype => apply hcode (wp_mount_backed hinv h hdraw)
  | vfs_unmount path => apply hcode (wp_unmount_backed hinv h hdraw)
  | vfs_close v =>
    have hperm : (root.toList ++ ledger).Perm (v :: (root.toList ++ ledger.erase v)) :=
      ((List.perm_cons_erase hallowed).append_left root.toList).trans List.perm_middle
    apply wp_bind_of (h.perm hperm).close_head
    intro _ s1 hs1
    exact hs1

end Calls

/--
No call gives back or hands out a reference that it does not hold.
-/
def Call.Solvent (st : St) (fuel : Nat) (call : Call) : Prop :=
  ¬ call.Overdraws st fuel

theorem Backed.of_booted (junk : Junk) : Backed (some 0) [0] (booted junk) where
  rootvn := rfl
  linked n v hn := ((Tree.of_booted junk).forest.inv.linked n v hn).1
  alive v hv := by
    rw [List.mem_singleton.mp hv]
    exact ⟨Nat.one_pos, rfl⟩
  count v hlt hfreed := by
    have hv : v = 0 := Nat.lt_one_iff.mp hlt
    subst hv
    exact Int.le_refl 1

theorem Call.Reached.backed {junk : Junk} {own : List Nat} {s : St} (h : Call.Reached Call.Solvent junk own s)
    : Inv s ∧ ∃ root, Backed root (root.toList ++ own) s := by
  induction h with
  | boot h =>
    rw [(wp_of_ok h).mp (wp_boot junk)]
    exact ⟨(Tree.of_booted junk).forest.inv, some 0, Backed.of_booted junk⟩
  | memory _ junk' ih =>
    rcases ih with ⟨hinv, root, hback⟩
    exact ⟨hinv.memory junk', root, hback.rootvn, hback.linked, hback.alive, hback.count⟩
  | step h hcall hcond hrun ih =>
    rcases ih with ⟨hinv, root, hback⟩
    have hkeep : ∀ s s', Shrinks s s' → True → True := fun _ _ _ _ => trivial
    have hnext := (wp_of_ok hrun).mp (Call.wp_run hkeep hinv trivial fun _ _ _ _ _ _ _ => trivial)
    exact ⟨hnext.1, root, (wp_of_ok hrun).mp (Call.wp_run_backed hinv hback rfl hcall hcond)⟩

/--
As long as every call gives back and hands out only references that it holds, the vnodes that the caller has
and `rootvn` keep theirs.
-/
theorem Call.Reached.handed_held {junk : Junk} {own : List Nat} {s : St}
    (h : Call.Reached Call.Solvent junk own s) : Call.Held own s := by
  rcases h.backed with ⟨_, root, hback⟩
  exact hback.kept

@[irreducible]
def givenDir : St :=
  after ((Call.vfs_mkdir "/a".toList).run 1) (after boot (.empty zeroed))

theorem givenDir_reached {C : St → Nat → Call → Prop}
    (hmkdir : C (after boot (.empty zeroed)) 1 (.vfs_mkdir "/a".toList)) : Call.Reached C zeroed [1] givenDir := by
  have hresult : result ((Call.vfs_mkdir "/a".toList).run 1) (after boot (.empty zeroed)) = some (none, some 1) := by
    decide +kernel
  unfold givenDir
  have hboot : Call.Reached C zeroed [] (after boot (.empty zeroed)) := Call.Reached.boots (by decide +kernel)
  refine hboot.step ?_ hmkdir (ok_of_result hresult)
  trivial

theorem Call.Reached.handed_held_givenDir : Call.Held [1] givenDir := by
  apply Call.Reached.handed_held
  apply givenDir_reached
  have hresolve : resolve (Fs.after Fs.boot (.empty zeroed)) "/a".toList 1 =
      some (.missing (.old 0) "a".toList 1) := by
    decide +kernel
  rintro (⟨D, V, hstray, _⟩ | ⟨D, hruns⟩)
  . rw [hresolve] at hstray
    cases hstray
  . rw [hresolve] at hruns
    cases hruns

theorem Call.rootvn_freed
    : ∃ s, Call.Reached Call.Any zeroed [1] givenDir ∧
        (Call.vfs_mkdir "/a/".toList).run 1 givenDir = .ok (some .EEXIST, none) s ∧
        Call.Reached Call.Any zeroed [1] s ∧ s.rootvn = some 0 ∧ (s.vnodes 0).freed = true ∧
        ¬ Call.Held [1] s := by
  have hreached : Call.Reached Call.Any zeroed [1] givenDir := givenDir_reached trivial
  have hresult : result ((Call.vfs_mkdir "/a/".toList).run 1) givenDir = some (some .EEXIST, none) := by
    decide +kernel
  have hroot : (after ((Call.vfs_mkdir "/a/".toList).run 1) givenDir).rootvn = some 0 := by decide +kernel
  have hfreed : ((after ((Call.vfs_mkdir "/a/".toList).run 1) givenDir).vnodes 0).freed = true := by
    decide +kernel
  have hrun := ok_of_result hresult
  refine ⟨_, hreached, hrun, ?_, hroot, hfreed, ?_⟩
  . refine hreached.step ?_ trivial hrun
    trivial
  . intro h
    have hheld := (h 0 (Or.inr hroot)).1
    rw [hfreed] at hheld
    cases hheld

end Fs
end Franklin
