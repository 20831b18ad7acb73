import Franklin.Fs.Lemmas.Rules
import Franklin.Fs.Lemmas.Forest

/-!
This module contains that the lists of all nodes of two file systems never mix.
-/

namespace Franklin
namespace Fs

theorem St.setPrev_nodes {s : St} (p prev : Ptr) (n : Nat)
    : (s.setPrev p prev).nodes n = if p = .ref n then { s.nodes n with prev } else s.nodes n := by
  unfold St.setPrev
  split
  . next m =>
    by_cases hm : n = m
    . subst hm
      rw [if_pos rfl, St.updNode_nodes_self]
    . rw [if_neg (fun heq => hm (Ptr.ref.inj heq).symm), St.updNode_nodes_of_ne hm]
  . next hp => rw [if_neg (hp n)]

/--
The list of all nodes of a file system `v` has only nodes with `own n = v`, and ends in its root directory.
-/
structure Lists (own : Nat → Nat) (s : St) : Prop where
  head : ∀ v n, (s.vfss v).nodes = .ref n → n < s.nextNode ∧ own n = v
  next : ∀ n m, (s.nodes n).next = .ref m → m < s.nextNode ∧ own m = own n
  prev : ∀ n p, (s.nodes n).prev = .ref p → p < s.nextNode ∧ own p = own n
  last : ∀ n, n < s.nextNode → (∃ m, (s.nodes n).next = .ref m) ∨
    (s.nodes n).next = .null ∧ (s.nodes n).type = .VDIR ∧ (s.nodes n).parent = n ∧
      n = (s.vfss (own n)).root
  nonempty : ∀ n, n < s.nextNode → ∃ m, (s.vfss (own n)).nodes = .ref m
  lt : ∀ n, n < s.nextNode → own n < s.nextVfs

namespace Lists

variable {own : Nat → Nat} {s : St} {n : Nat}

theorem updNode (h : Lists own s) {f : RamNode → RamNode}
    (hnext : (f (s.nodes n)).next = (s.nodes n).next ∨
      ∃ m, (f (s.nodes n)).next = .ref m ∧ m < s.nextNode ∧ own m = own n)
    (hprev : ∀ p, (f (s.nodes n)).prev = .ref p → p < s.nextNode ∧ own p = own n)
    (hstatic : (f (s.nodes n)).type = (s.nodes n).type ∧ (f (s.nodes n)).parent = (s.nodes n).parent)
    : Lists own (s.updNode n f) := by
  constructor
  case head => apply h.head
  case next =>
    intro k m hm
    by_cases hk : k = n
    . subst hk
      rw [St.updNode_nodes_self] at hm
      cases hnext with
      | inl heq =>
        rw [heq] at hm
        apply h.next k m hm
      | inr hnew =>
        rcases hnew with ⟨m', hm', hlt, hown⟩
        rw [hm', Ptr.ref.injEq] at hm
        rw [← hm]
        exact ⟨hlt, hown⟩
    . rw [St.updNode_nodes_of_ne hk] at hm
      apply h.next k m hm
  case prev =>
    intro k p hp
    by_cases hk : k = n
    . subst hk
      rw [St.updNode_nodes_self] at hp
      apply hprev p hp
    . rw [St.updNode_nodes_of_ne hk] at hp
      apply h.prev k p hp
  case last =>
    intro k hlt
    by_cases hk : k = n
    . subst hk
      rw [St.updNode_nodes_self, hstatic.1, hstatic.2]
      cases hnext with
      | inl heq =>
        rw [heq]
        apply h.last k hlt
      | inr hnew => exact Or.inl ⟨hnew.choose, hnew.choose_spec.1⟩
    . rw [St.updNode_nodes_of_ne hk]
      apply h.last k hlt
  case nonempty => apply h.nonempty
  case lt => apply h.lt

theorem updNode_same (h : Lists own s) {f : RamNode → RamNode}
    (hf : (f (s.nodes n)).next = (s.nodes n).next ∧ (f (s.nodes n)).prev = (s.nodes n).prev ∧
      (f (s.nodes n)).type = (s.nodes n).type ∧ (f (s.nodes n)).parent = (s.nodes n).parent)
    : Lists own (s.updNode n f) := by
  apply h.updNode (Or.inl hf.1) _ hf.2.2
  rw [hf.2.1]
  apply h.prev

theorem setPrev (h : Lists own s) {p prev : Ptr}
    (hp : ∀ m q, p = .ref m → prev = .ref q → q < s.nextNode ∧ own q = own m)
    : Lists own (s.setPrev p prev) := by
  unfold St.setPrev
  split
  . next m =>
    apply h.updNode (Or.inl rfl)
    . intro q hq
      apply hp m q rfl hq
    . exact ⟨rfl, rfl⟩
  . apply h

theorem setNext (h : Lists own s) {p : Ptr} {m : Nat} (hm : m < s.nextNode)
    (hp : ∀ q, p = .ref q → own m = own q) : Lists own (s.setNext p (.ref m)) := by
  unfold St.setNext
  split
  . next q =>
    apply h.updNode
    . exact Or.inr ⟨m, rfl, hm, hp q rfl⟩
    . apply h.prev q
    . exact ⟨rfl, rfl⟩
  . apply h

theorem congr {s' : St} (h : Lists own s) (hnodes : s'.nodes = s.nodes) (hnext : s'.nextNode = s.nextNode)
    (hlt : s'.nextVfs = s.nextVfs)
    (hvfss : ∀ v, (s'.vfss v).nodes = (s.vfss v).nodes ∧ (s'.vfss v).root = (s.vfss v).root)
    : Lists own s' := by
  constructor
  case head =>
    intro v n
    rw [(hvfss v).1, hnext]
    apply h.head
  case next =>
    rw [hnodes, hnext]
    apply h.next
  case prev =>
    rw [hnodes, hnext]
    apply h.prev
  case last =>
    intro n
    rw [hnodes, hnext, (hvfss _).2]
    apply h.last
  case nonempty =>
    intro n
    rw [hnext, (hvfss _).1]
    apply h.nonempty
  case lt =>
    rw [hnext, hlt]
    apply h.lt

theorem freeNode (h : Lists own s) (n : Nat) : Lists own (s.freeNode n) := by
  unfold St.freeNode
  have hprev : Lists own (s.setPrev (s.nodes n).next (s.nodes n).prev) := by
    apply h.setPrev
    intro m q hm hq
    rw [(h.next n m hm).2]
    apply h.prev n q hq
  apply hprev.updNode (Or.inl rfl)
  . intro p hp
    have hnext : (s.setPrev (s.nodes n).next (s.nodes n).prev).nextNode = s.nextNode :=
      ((OnlyNodes.refl s).setPrev _ _).nextNode
    rw [hnext]
    apply h.next n p hp
  . exact ⟨rfl, rfl⟩

theorem inactive (h : Lists own s) (n : Nat) : Lists own (s.inactive n) := by
  unfold St.inactive
  dsimp only
  split
  . apply freeNode
    apply h.updNode_same
    exact ⟨rfl, rfl, rfl, rfl⟩
  . apply h.updNode_same
    exact ⟨rfl, rfl, rfl, rfl⟩

theorem close (h : Lists own s) (v : Nat) : Lists own (s.close v) := by
  unfold St.close
  dsimp only
  split
  . apply (h.inactive (s.vnodes v).data).congr
    . rfl
    . rfl
    . rfl
    . exact fun _ => ⟨rfl, rfl⟩
  . apply h.congr
    . rfl
    . rfl
    . rfl
    . exact fun _ => ⟨rfl, rfl⟩

theorem unchain (h : Lists own s) (hn : ∃ m, (s.nodes n).next = .ref m) : Lists own (s.unchain n) := by
  rcases hn with ⟨m, hm⟩
  unfold St.unchain
  dsimp only
  have hnext : Lists own (s.setNext (s.nodes n).prev (s.nodes n).next) := by
    rw [hm]
    apply h.setNext (h.next n m hm).1
    intro q hq
    rw [(h.next n m hm).2, (h.prev n q hq).2]
  apply hnext.setPrev
  intro k q hk hq
  rw [(hnext.next n k hk).2]
  apply hnext.prev n q hq

theorem attach (h : Lists own s) (d : Nat) (de : RamDentry) : Lists own (s.attach d de) := by
  apply h.updNode_same
  exact ⟨rfl, rfl, rfl, rfl⟩

theorem addLink (h : Lists own s) (n : Nat) : Lists own (s.addLink n) := by
  apply h.updNode_same
  exact ⟨rfl, rfl, rfl, rfl⟩

theorem detach (h : Lists own s) (d : Nat) (de : RamDentry) : Lists own (s.detach d de) := by
  apply h.updNode_same
  exact ⟨rfl, rfl, rfl, rfl⟩

theorem dropLinks (h : Lists own s) (n : Nat) (k : Int) : Lists own (s.dropLinks n k) := by
  apply h.updNode_same
  exact ⟨rfl, rfl, rfl, rfl⟩

theorem unlinkFile (h : Lists own s) (d : Nat) (de : RamDentry)
    (hn : ∃ m, (s.nodes de.node).next = .ref m) : Lists own (s.unlinkFile d de) :=
  ((h.unchain hn).detach d de).dropLinks de.node 1

theorem unlinkDir (h : Lists own s) (d : Nat) (de : RamDentry)
    (hn : ∃ m, (s.nodes de.node).next = .ref m) : Lists own (s.unlinkDir d de) := by
  apply Lists.dropLinks
  apply Lists.detach
  apply (h.dropLinks de.node 1).unchain
  unfold St.dropLinks
  rw [St.updNode_nodes_self]
  apply hn

theorem hardLink (h : Lists own s) (d n : Nat) (name : Name) : Lists own (s.hardLink d n name) :=
  (h.addLink n).attach d _

theorem vnew (h : Lists own s) (vfs n : Nat) : Lists own (s.vnew vfs n) := by
  unfold St.vnew
  have hnode : Lists own (s.updNode n fun node => { node with vnode := some s.nextVnode, ramlock := false }) := by
    apply h.updNode_same
    exact ⟨rfl, rfl, rfl, rfl⟩
  apply hnode.congr
  . rfl
  . rfl
  . rfl
  . exact fun _ => ⟨rfl, rfl⟩

theorem newFile {d : Nat} (h : Lists own s) (name : Name) (type : VType) (link : Name)
    (hd : d < s.nextNode)
    : Lists (Function.update own s.nextNode (own d)) (s.newFile (own d) d name type link) := by
  have hold : ∀ n, n < s.nextNode → Function.update own s.nextNode (own d) n = own n := by
    intro n hn
    rw [Function.update_of_ne (by omega)]
  have hself : Function.update own s.nextNode (own d) s.nextNode = own d := by
    rw [Function.update_self]
  rcases h.nonempty d hd with ⟨k, hk⟩
  have hother : ∀ n, n ≠ s.nextNode →
      (s.addNode (own d) (some d) type link).nodes n =
        if (s.vfss (own d)).nodes = .ref n then { s.nodes n with prev := .ref s.nextNode }
        else s.nodes n := by
    intro n hn
    rw [St.addNode_eq]
    dsimp only
    rw [Function.update_of_ne hn, St.setPrev_nodes]
  have hvfss : ∀ v, ((s.addNode (own d) (some d) type link).vfss v) =
      if v = own d then { s.vfss v with nodes := .ref s.nextNode } else s.vfss v := by
    intro v
    rw [St.addNode_eq]
    dsimp only
    by_cases hv : v = own d
    . rw [if_pos hv, hv, Function.update_self]
    . rw [if_neg hv, Function.update_of_ne hv]
  have hnextNode : (s.addNode (own d) (some d) type link).nextNode = s.nextNode + 1 := by
    rw [St.addNode_eq]
  have hnextVfs : (s.addNode (own d) (some d) type link).nextVfs = s.nextVfs := by
    rw [St.addNode_eq]
  have hnode : Lists (Function.update own s.nextNode (own d)) (s.addNode (own d) (some d) type link) := by
    constructor
    case head =>
      intro v n hn
      rw [hvfss] at hn
      rw [hnextNode]
      split at hn
      . next hv =>
        rw [Ptr.ref.injEq] at hn
        rw [← hn, hself, hv]
        exact ⟨by omega, rfl⟩
      . rcases h.head v n hn with ⟨hlt, hown⟩
        rw [hold n hlt]
        exact ⟨by omega, hown⟩
    case next =>
      intro n m hm
      rw [hnextNode]
      by_cases hn : n = s.nextNode
      . rw [hn, St.addNode_nodes_self] at hm
        rcases h.head _ m hm with ⟨hlt, hown⟩
        rw [hold m hlt, hn, hself]
        exact ⟨by omega, hown⟩
      . have hm' : (s.nodes n).next = .ref m := by
          rw [hother n hn] at hm
          split at hm
          . apply hm
          . apply hm
        rcases h.next n m hm' with ⟨hlt, hown⟩
        rw [hold m hlt, Function.update_of_ne hn]
        exact ⟨by omega, hown⟩
    case prev =>
      intro n p hp
      rw [hnextNode]
      by_cases hn : n = s.nextNode
      . rw [hn, St.addNode_nodes_self] at hp
        unfold St.freshNode at hp
        dsimp only at hp
        split at hp
        . cases hp
        . cases hp
      . rw [hother n hn] at hp
        rw [Function.update_of_ne hn]
        split at hp
        . next hhead =>
          dsimp only at hp
          rw [Ptr.ref.injEq] at hp
          rw [← hp, hself, (h.head _ n hhead).2]
          exact ⟨by omega, rfl⟩
        . rcases h.prev n p hp with ⟨hlt, hown⟩
          rw [hold p hlt]
          exact ⟨by omega, hown⟩
    case last =>
      intro n hlt
      rw [hnextNode] at hlt
      by_cases hn : n = s.nextNode
      . rw [hn, St.addNode_nodes_self]
        exact Or.inl ⟨k, hk⟩
      . have hroot : ∀ v, ((s.addNode (own d) (some d) type link).vfss v).root = (s.vfss v).root := by
          intro v
          rw [hvfss]
          split
          . rfl
          . rfl
        rw [hother n hn, hold n (by omega), hroot]
        have hlast := h.last n (by omega)
        split
        . apply hlast
        . apply hlast
    case nonempty =>
      intro n hlt
      rw [hnextNode] at hlt
      rw [hvfss]
      split
      . exact ⟨s.nextNode, rfl⟩
      . next hne =>
        have hn : n ≠ s.nextNode := by
          intro heq
          rw [heq, hself] at hne
          exact hne rfl
        rw [hold n (by omega)]
        apply h.nonempty n (by omega)
    case lt =>
      intro n hlt
      rw [hnextNode] at hlt
      rw [hnextVfs]
      by_cases hn : n = s.nextNode
      . rw [hn, hself]
        apply h.lt d hd
      . rw [hold n (by omega)]
        apply h.lt n (by omega)
  exact (hnode.addLink s.nextNode).attach d _

theorem newVfs (h : Lists own s) (vfs : Vfs) (hvfs : vfs.nodes = .null)
    : Lists own
        { s with vfss := Function.update s.vfss s.nextVfs vfs, nextVfs := s.nextVfs + 1 } := by
  have hother : ∀ n, n < s.nextNode →
      Function.update s.vfss s.nextVfs vfs (own n) = s.vfss (own n) := by
    intro n hn
    have := h.lt n hn
    rw [Function.update_of_ne (by omega)]
  constructor
  case head =>
    intro v n hn
    dsimp only at hn
    by_cases hv : v = s.nextVfs
    . rw [hv, Function.update_self, hvfs] at hn
      cases hn
    . rw [Function.update_of_ne hv] at hn
      apply h.head v n hn
  case next => apply h.next
  case prev => apply h.prev
  case last =>
    intro n hn
    dsimp only
    rw [hother n hn]
    apply h.last n hn
  case nonempty =>
    intro n hn
    dsimp only
    rw [hother n hn]
    apply h.nonempty n hn
  case lt =>
    intro n hn
    have := h.lt n hn
    dsimp only
    omega

theorem addRoot (h : Lists own s) {v : Nat} (hv : v < s.nextVfs) (hempty : ∀ m, (s.vfss v).nodes ≠ .ref m)
    : Lists (Function.update own s.nextNode v) (s.addRoot v) := by
  have hold : ∀ n, n < s.nextNode → Function.update own s.nextNode v n = own n := by
    intro n hn
    rw [Function.update_of_ne (by omega)]
  have hself : Function.update own s.nextNode v s.nextNode = v := by
    rw [Function.update_self]
  have hvfs : ∀ n, n < s.nextNode → own n ≠ v := by
    intro n hn heq
    rcases h.nonempty n hn with ⟨m, hm⟩
    rw [heq] at hm
    exact hempty m hm
  unfold St.addRoot
  constructor
  case head =>
    intro w n hn
    dsimp only at hn ⊢
    by_cases hw : w = v
    . rw [hw, Function.update_self, Ptr.ref.injEq] at hn
      rw [← hn, hself, hw]
      exact ⟨by omega, rfl⟩
    . rw [Function.update_of_ne hw] at hn
      rcases h.head w n hn with ⟨hlt, hown⟩
      rw [hold n hlt]
      exact ⟨by omega, hown⟩
  case next =>
    intro n m hm
    dsimp only at hm ⊢
    by_cases hn : n = s.nextNode
    . rw [hn, Function.update_self] at hm
      cases hm
    . rw [Function.update_of_ne hn] at hm ⊢
      rcases h.next n m hm with ⟨hlt, hown⟩
      rw [hold m hlt]
      exact ⟨by omega, hown⟩
  case prev =>
    intro n p hp
    dsimp only at hp ⊢
    by_cases hn : n = s.nextNode
    . rw [hn, Function.update_self] at hp
      cases hp
    . rw [Function.update_of_ne hn] at hp ⊢
      rcases h.prev n p hp with ⟨hlt, hown⟩
      rw [hold p hlt]
      exact ⟨by omega, hown⟩
  case last =>
    intro n hlt
    dsimp only at hlt ⊢
    by_cases hn : n = s.nextNode
    . rw [hn, hself, Function.update_self, Function.update_self]
      exact Or.inr ⟨rfl, rfl, rfl, rfl⟩
    . have hn' : n < s.nextNode := by omega
      rw [Function.update_of_ne hn, hold n hn', Function.update_of_ne (hvfs n hn')]
      apply h.last n hn'
  case nonempty =>
    intro n hlt
    dsimp only at hlt ⊢
    by_cases hn : n = s.nextNode
    . rw [hn, hself, Function.update_self]
      exact ⟨s.nextNode, rfl⟩
    . have hn' : n < s.nextNode := by omega
      rw [hold n hn', Function.update_of_ne (hvfs n hn')]
      apply h.nonempty n hn'
  case lt =>
    intro n hlt
    dsimp only at hlt ⊢
    by_cases hn : n = s.nextNode
    . rw [hn, hself]
      apply hv
    . rw [hold n (by omega)]
      apply h.lt n (by omega)

theorem empty (junk : Junk) : Lists own (.empty junk) where
  head := by simp [St.empty]
  next := by simp [St.empty]
  prev := by simp [St.empty]
  last := by simp [St.empty]
  nonempty := by simp [St.empty]
  lt := by simp [St.empty]

end Lists

def Apart (own : Nat → Nat) {α : Type} (x : Prog α) : Prop :=
  Keeps (Lists own) (fun _ _ => True) x

namespace Apart

variable {own : Nat → Nat} {α β : Type} {n v : Nat}

theorem pure (a : α) : Apart own (pure a : Prog α) :=
  Keeps.pure (fun _ => trivial) a

theorem throw (e : Stop) : Apart own (throw e : Prog α) :=
  Keeps.throw e

theorem bind {x : Prog α} {f : α → Prog β} (hx : Apart own x) (hf : ∀ a, Apart own (f a))
    : Apart own (x >>= f) :=
  Keeps.bind (fun _ _ _ _ _ => trivial) hx hf

theorem ite {c : Prop} [Decidable c] {x y : Prog α} (hx : Apart own x) (hy : Apart own y)
    : Apart own (if c then x else y) :=
  Keeps.ite hx hy

theorem getSt : Apart own getSt := by
  intro s hs
  exact ⟨hs, trivial⟩

theorem getVnode (v : Nat) : Apart own (getVnode v) := by
  intro s hs
  rw [wp_getVnode]
  exact ⟨fun _ => trivial, fun _ => ⟨hs, trivial⟩⟩

theorem getNode (n : Nat) : Apart own (getNode n) := by
  intro s hs
  exact ⟨hs, trivial⟩

theorem deref (n : Nat) : Apart own (deref n) := by
  apply (getNode n).bind
  intro node
  apply ite (throw _) (pure _)

theorem getVfs (vfs : Nat) : Apart own (getVfs vfs) := by
  intro s hs
  exact ⟨hs, trivial⟩

theorem setVnode {f : Vnode → Vnode} : Apart own (setVnode v f) := by
  intro s hs
  rw [wp_setVnode]
  refine ⟨hs.congr rfl rfl rfl ?_, trivial⟩
  exact fun _ => ⟨rfl, rfl⟩

theorem setNode {f : RamNode → RamNode}
    (hf : ∀ node, (f node).next = node.next ∧ (f node).prev = node.prev ∧ (f node).type = node.type ∧
      (f node).parent = node.parent) : Apart own (setNode n f) := by
  intro s hs
  rw [wp_setNode_iff]
  exact ⟨hs.updNode_same (hf _), trivial⟩

theorem acquire (v : Nat) : Apart own (acquire v) := by
  apply (getVnode v).bind
  intro vn
  apply ite (throw _) setVnode

theorem release (v : Nat) : Apart own (release v) := by
  apply (getVnode v).bind
  intro vn
  apply setVnode

theorem acquireNode (n : Nat) : Apart own (acquireNode n) := by
  apply (getNode n).bind
  intro node
  apply ite (throw _)
  apply setNode
  intro node
  exact ⟨rfl, rfl, rfl, rfl⟩

theorem releaseNode (n : Nat) : Apart own (releaseNode n) := by
  apply setNode
  intro node
  exact ⟨rfl, rfl, rfl, rfl⟩

theorem vref_locked (v : Nat) : Apart own (vref_locked v) := by
  apply (getVnode v).bind
  intro vn
  apply ite (throw _) setVnode

theorem newVnode (vfs n : Nat) : Apart own (newVnode vfs n) := by
  intro s hs
  refine ⟨?_, trivial⟩
  have hnode : Lists own (s.updNode n fun node => { node with vnode := some s.nextVnode }) := by
    apply hs.updNode_same
    exact ⟨rfl, rfl, rfl, rfl⟩
  apply hnode.congr
  . rfl
  . rfl
  . rfl
  . exact fun _ => ⟨rfl, rfl⟩

theorem ramfs_free_node (n : Nat) : Apart own (ramfs_free_node n) := by
  intro s hs
  apply wp_mono (wp_ramfs_free_node_iff (P := fun _ => True) (Q := fun _ s' => Lists own s')
    (hs.freeNode n))
  . intro _ s1 hs1
    exact ⟨hs1, trivial⟩
  . simp

theorem vfs_close (v : Nat) : Apart own (vfs_close v) := by
  intro s hs
  cases hv : (s.vnodes v).freed with
  | true =>
    unfold Fs.vfs_close
    rw [wp_bind, wp_getVnode]
    exact ⟨fun _ => trivial, fun hfreed => absurd (hv.symm.trans hfreed) (by simp)⟩
  | false =>
    apply wp_mono (wp_vfs_close_iff (P := fun _ => True) (Q := fun _ s' => Lists own s') hv (hs.close v))
    . intro _ s1 hs1
      exact ⟨hs1, trivial⟩
    . simp

theorem walk : WalkRules fun _ x => Apart own x where
  pure := pure
  throw e _ := throw e
  bind := bind
  getSt := getSt
  getVnode := getVnode
  getNode := getNode
  getVfs := getVfs
  acquire := acquire
  release := release
  acquireNode := acquireNode
  releaseNode := releaseNode
  vref_locked := vref_locked
  newVnode := newVnode
  vfs_close := vfs_close

end Apart

end Fs
end Franklin
