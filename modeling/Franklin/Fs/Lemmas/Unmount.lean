import Franklin.Fs.Mount
import Franklin.Fs.Lemmas.Lists

/-!
This module contains what `ramfs_unmount` does to the ramnodes.
-/

namespace Franklin
namespace Fs

namespace Follows

variable {s s' : St} {p : Ptr} {n m : Nat}

theorem congr (h : Follows s p n) (hnext : ∀ n, (s'.nodes n).next = (s.nodes n).next)
    : Follows s' p n := by
  induction h with
  | here n => exact .here n
  | next h ih =>
    apply Follows.next
    rw [hnext]
    apply ih

theorem congr_iff (hnext : ∀ n, (s'.nodes n).next = (s.nodes n).next)
    : Follows s' p n ↔ Follows s p n :=
  ⟨fun h => h.congr fun n => (hnext n).symm, fun h => h.congr hnext⟩

theorem not_null : ¬ Follows s .null n := by
  intro h
  cases h

theorem step (h : Follows s p n) (hnext : (s.nodes n).next = .ref m) : Follows s p m := by
  induction h with
  | here n =>
    apply Follows.next
    rw [hnext]
    exact .here m
  | next h ih => exact .next (ih hnext)

end Follows

structure Tearing (X : Nat → Prop) (s s' : St) : Prop where
  frame : OnlyNodes s s'
  out : ∀ n, ¬ X n → s'.nodes n = s.nodes n
  next : ∀ n, (s'.nodes n).next = (s.nodes n).next
  type : ∀ n, (s'.nodes n).type = (s.nodes n).type
  parent : ∀ n, (s'.nodes n).parent = (s.nodes n).parent
  dentry : ∀ n, ∀ de ∈ (s'.nodes n).dentry, de ∈ (s.nodes n).dentry
  freed : ∀ n, (s.nodes n).freed = true → (s'.nodes n).freed = true
  vnode : ∀ n, (s.nodes n).vnode = none → (s'.nodes n).vnode = none

namespace Tearing

variable {X : Nat → Prop} {s s1 s2 : St} {n : Nat}

theorem refl (s : St) : Tearing X s s :=
  ⟨.refl s, fun _ _ => rfl, fun _ => rfl, fun _ => rfl, fun _ => rfl, fun _ _ h => h, fun _ h => h,
    fun _ h => h⟩

theorem trans (h : Tearing X s s1) (h1 : Tearing X s1 s2) : Tearing X s s2 where
  frame := by
    have h1 := h1.frame
    rw [h.frame] at h1
    exact h1
  out n hn := (h1.out n hn).trans (h.out n hn)
  next n := (h1.next n).trans (h.next n)
  type n := (h1.type n).trans (h.type n)
  parent n := (h1.parent n).trans (h.parent n)
  dentry n de hde := h.dentry n de (h1.dentry n de hde)
  freed n hn := h1.freed n (h.freed n hn)
  vnode n hn := h1.vnode n (h.vnode n hn)

theorem updNode {f : RamNode → RamNode} (hX : X n)
    (hf : (f (s.nodes n)).next = (s.nodes n).next ∧ (f (s.nodes n)).type = (s.nodes n).type ∧
      (f (s.nodes n)).parent = (s.nodes n).parent)
    (hdentry : ∀ de ∈ (f (s.nodes n)).dentry, de ∈ (s.nodes n).dentry)
    (hfreed : (s.nodes n).freed = true → (f (s.nodes n)).freed = true)
    (hvnode : (s.nodes n).vnode = none → (f (s.nodes n)).vnode = none)
    : Tearing X s (s.updNode n f) := by
  have hall : ∀ m,
      (((s.updNode n f).nodes m).next = (s.nodes m).next ∧
        ((s.updNode n f).nodes m).type = (s.nodes m).type ∧
        ((s.updNode n f).nodes m).parent = (s.nodes m).parent) ∧
      (∀ de ∈ ((s.updNode n f).nodes m).dentry, de ∈ (s.nodes m).dentry) ∧
      ((s.nodes m).freed = true → ((s.updNode n f).nodes m).freed = true) ∧
      ((s.nodes m).vnode = none → ((s.updNode n f).nodes m).vnode = none) := by
    intro m
    by_cases hm : m = n
    . rw [hm, St.updNode_nodes_self]
      exact ⟨hf, hdentry, hfreed, hvnode⟩
    . rw [St.updNode_nodes_of_ne hm]
      exact ⟨⟨rfl, rfl, rfl⟩, fun _ hde => hde, fun h => h, fun h => h⟩
  refine ⟨rfl, ?_, fun m => (hall m).1.1, fun m => (hall m).1.2.1, fun m => (hall m).1.2.2,
    fun m => (hall m).2.1, fun m => (hall m).2.2.1, fun m => (hall m).2.2.2⟩
  intro m hm
  apply St.updNode_nodes_of_ne
  intro heq
  rw [heq] at hm
  exact hm hX

theorem wp_setNode {f : RamNode → RamNode} (hX : X n)
    (hf : ∀ node, (f node).next = node.next ∧ (f node).type = node.type ∧ (f node).parent = node.parent ∧
      (f node).dentry = node.dentry ∧ (f node).freed = node.freed)
    (hvnode : ∀ node, (f node).vnode = node.vnode ∨ (f node).vnode = none)
    : wp (setNode n f) (fun _ s' => Tearing X s s' ∧ ∀ m, (s'.nodes m).dentry = (s.nodes m).dentry)
        (fun _ _ => True) s := by
  rw [wp_setNode_iff]
  rcases hf (s.nodes n) with ⟨hnext, htype, hparent, hdentry, hfreed⟩
  constructor
  . apply updNode hX ⟨hnext, htype, hparent⟩
    . rw [hdentry]
      simp
    . rw [hfreed]
      simp
    . intro hnone
      cases hvnode (s.nodes n) with
      | inl heq => rw [heq, hnone]
      | inr heq => rw [heq]
  . intro m
    by_cases hm : m = n
    . rw [hm, St.updNode_nodes_self, hdentry]
    . rw [St.updNode_nodes_of_ne hm]

theorem detach {d : Nat} (hX : X d) (de : RamDentry) : Tearing X s (s.detach d de) := by
  apply updNode hX ⟨rfl, rfl, rfl⟩
  . intro de' hde'
    exact List.mem_of_mem_erase hde'
  . simp
  . simp

theorem dropLinks (hX : X n) (k : Int) : Tearing X s (s.dropLinks n k) := by
  apply updNode hX ⟨rfl, rfl, rfl⟩
  . simp
  . simp
  . simp

theorem setPrev {p prev : Ptr} (hp : ∀ m, p = .ref m → X m) : Tearing X s (s.setPrev p prev) := by
  unfold St.setPrev
  split
  . next m =>
    apply updNode (hp m rfl) ⟨rfl, rfl, rfl⟩
    . simp
    . simp
    . simp
  . apply refl

theorem freeNode (hX : X n) (hnext : ∀ m, (s.nodes n).next = .ref m → X m)
    : Tearing X s (s.freeNode n) := by
  unfold St.freeNode
  apply (setPrev hnext).trans
  apply updNode hX ⟨rfl, rfl, rfl⟩
  . simp
  . simp
  . simp

end Tearing

section Unmount

variable {X : Nat → Prop} {s : St} {n : Nat}

theorem wp_freeDentries (hX : X n) {entries : List RamDentry} (hentries : (s.nodes n).dentry = entries)
    (hin : ∀ de ∈ entries, X de.node)
    : wp (ramfs_unmount.freeDentries n entries)
        (fun _ s' => Tearing X s s' ∧ (s'.nodes n).dentry = []) (fun _ _ => True) s := by
  induction entries generalizing s with
  | nil =>
    unfold ramfs_unmount.freeDentries
    rw [wp_bind, wp_getNode]
    split
    . trivial
    . exact ⟨.refl s, hentries⟩
  | cons de entries ih =>
    have hde := hin de List.mem_cons_self
    unfold ramfs_unmount.freeDentries
    apply wp_bind_of (wp_deref_same fun _ => trivial)
    intro _ s0 hs0
    rw [hs0]
    apply wp_bind_of (Tearing.wp_setNode hde (by simp) (by simp))
    intro _ s1 hs1
    have hdentry1 : (s1.nodes n).dentry = de :: entries := by rw [hs1.2, hentries]
    apply wp_bind_mono (wp_ramfs_dir_detach (P := fun _ => True) (Q := fun _ s' => s' = s1.detach n de) de rfl)
    . simp
    . intro _ s2 hs2
      subst hs2
      have hdentry2 : ((s1.detach n de).nodes n).dentry = entries := by
        unfold St.detach
        rw [St.updNode_nodes_self]
        dsimp only
        rw [hdentry1, List.erase_cons_head]
      apply wp_bind_mono (wp_ramfs_free_dentry (P := fun _ => True)
        (Q := fun _ s' => s' = (s1.detach n de).dropLinks de.node 1) de (fun _ => trivial) (fun _ => rfl))
      . simp
      . intro _ s3 hs3
        subst hs3
        rw [wp_bind, wp_getSt]
        split
        . trivial
        . have hstep : Tearing X s ((s1.detach n de).dropLinks de.node 1) :=
            (hs1.1.trans (Tearing.detach hX de)).trans (Tearing.dropLinks hde 1)
          have hdentry3 : (((s1.detach n de).dropLinks de.node 1).nodes n).dentry = entries := by
            rw [← hdentry2]
            unfold St.dropLinks
            by_cases hn : n = de.node
            . rw [← hn, St.updNode_nodes_self]
            . rw [St.updNode_nodes_of_ne hn]
          apply wp_mono (ih hdentry3 _)
          . intro _ s4 hs4
            exact ⟨hstep.trans hs4.1, hs4.2⟩
          . simp
          . intro de' hde'
            apply hin de' (List.mem_cons_of_mem _ hde')

theorem Tearing.nil_of_nil {s' : St} (h : Tearing X s s') (hn : (s.nodes n).dentry = [])
    : (s'.nodes n).dentry = [] := by
  apply List.eq_nil_iff_forall_not_mem.mpr
  intro de hde
  have := h.dentry n de hde
  rw [hn] at this
  cases this

theorem wp_freeAllDentries (fuel : Nat) {p : Ptr} (hX : ∀ n, Follows s p n → X n)
    (hin : ∀ d, X d → ∀ de ∈ (s.nodes d).dentry, X de.node)
    (hleaf : ∀ n, (s.nodes n).type ≠ .VDIR → (s.nodes n).dentry = [])
    : wp (ramfs_unmount.freeAllDentries fuel p)
        (fun _ s' => Tearing X s s' ∧ (∀ n, Follows s p n → (s'.nodes n).dentry = []) ∧
          (p = .null ∨ ∃ n, Follows s p n ∧ (s.nodes n).next = .null)) (fun _ _ => True) s := by
  induction fuel generalizing s p with
  | zero =>
    cases p with
    | null => exact ⟨.refl s, fun n hn => absurd hn Follows.not_null, Or.inl rfl⟩
    | ref k => trivial
    | wild => trivial
  | succ fuel ih =>
    cases p with
    | null => exact ⟨.refl s, fun n hn => absurd hn Follows.not_null, Or.inl rfl⟩
    | wild => trivial
    | ref k =>
      have hk := hX k (.here k)
      -- what is left of the list is torn down in a state that has the same list
      have hrest : ∀ {s1 : St}, Tearing X s s1 → (s1.nodes k).dentry = [] →
          wp (ramfs_unmount.freeAllDentries fuel (s1.nodes k).next)
            (fun _ s' => Tearing X s s' ∧ (∀ n, Follows s (.ref k) n → (s'.nodes n).dentry = []) ∧
              (Ptr.ref k = .null ∨ ∃ n, Follows s (.ref k) n ∧ (s.nodes n).next = .null))
            (fun _ _ => True) s1 := by
        intro s1 hs1 hempty
        rw [hs1.next]
        apply wp_mono (ih (s := s1) (p := (s.nodes k).next) _ _ _)
        . intro _ s2 hs2
          refine ⟨hs1.trans hs2.1, ?_, Or.inr ?_⟩
          . intro n hn
            cases hn with
            | here _ => apply hs2.1.nil_of_nil hempty
            | next hn => apply hs2.2.1 n (hn.congr hs1.next)
          . cases hs2.2.2 with
            | inl hnull => exact ⟨k, .here k, hnull⟩
            | inr hend =>
              rcases hend with ⟨n, hn, hnull⟩
              rw [hs1.next] at hnull
              exact ⟨n, .next ((Follows.congr_iff hs1.next).mp hn), hnull⟩
        . simp
        . intro n hn
          apply hX n
          apply Follows.next
          apply (Follows.congr_iff hs1.next).mp hn
        . intro d hd de hde
          apply hin d hd de (hs1.dentry d de hde)
        . intro n hn
          rw [hs1.type] at hn
          apply hs1.nil_of_nil (hleaf n hn)
      unfold ramfs_unmount.freeAllDentries
      apply wp_bind_of (wp_deref_same fun _ => trivial)
      intro _ s0 hs0
      rw [hs0]
      apply wp_bind_of (Tearing.wp_setNode (X := X) hk (by simp) (by simp))
      intro _ s1 hs1
      rw [wp_bind, wp_getNode]
      split
      . next htype =>
        apply hrest hs1.1
        rw [hs1.2]
        apply hleaf k
        rw [← hs1.1.type]
        apply htype
      . apply wp_bind_of (wp_freeDentries (X := X) hk rfl _)
        . intro _ s2 hs2
          rw [wp_bind, wp_getNode]
          apply hrest (hs1.1.trans hs2.1) hs2.2
        . intro de hde
          rw [hs1.2] at hde
          apply hin k hk de hde

theorem wp_freeAllNodes (fuel : Nat) {p : Ptr} (hX : ∀ n, Follows s p n → X n)
    : wp (ramfs_unmount.freeAllNodes fuel p)
        (fun _ s' => Tearing X s s' ∧ ∀ n, Follows s p n → (s'.nodes n).freed = true) (fun _ _ => True)
        s := by
  induction fuel generalizing s p with
  | zero =>
    cases p with
    | null => exact ⟨.refl s, fun n hn => absurd hn Follows.not_null⟩
    | ref k => trivial
    | wild => trivial
  | succ fuel ih =>
    cases p with
    | null => exact ⟨.refl s, fun n hn => absurd hn Follows.not_null⟩
    | wild => trivial
    | ref k =>
      have hk := hX k (.here k)
      unfold ramfs_unmount.freeAllNodes
      apply wp_bind_mono (wp_ramfs_free_node_iff (P := fun _ => True) (Q := fun _ s' => s' = s.freeNode k)
        rfl)
      . simp
      . intro _ s1 hs1
        subst hs1
        have hs1 : Tearing X s (s.freeNode k) := by
          apply Tearing.freeNode hk
          intro m hm
          exact hX m ((Follows.here k).step hm)
        have hfreed : ((s.freeNode k).nodes k).freed = true := by
          unfold St.freeNode
          rw [St.updNode_nodes_self]
        rw [wp_bind, wp_getNode, hs1.next]
        apply wp_mono (ih (s := s.freeNode k) (p := (s.nodes k).next) _)
        . intro _ s2 hs2
          refine ⟨hs1.trans hs2.1, ?_⟩
          intro n hn
          cases hn with
          | here _ => apply hs2.1.freed k hfreed
          | next hn => apply hs2.2 n (hn.congr hs1.next)
        . simp
        . intro n hn
          apply hX n
          apply Follows.next
          apply (Follows.congr_iff hs1.next).mp hn

theorem wp_ramfs_unmount {v : Nat} (hin : ∀ d, Listed s v d → ∀ de ∈ (s.nodes d).dentry, Listed s v de.node)
    (hleaf : ∀ n, (s.nodes n).type ≠ .VDIR → (s.nodes n).dentry = [])
    : wp (ramfs_unmount v)
        (fun _ s' => Tearing (Listed s v) s s' ∧
          (∀ n, Listed s v n → (s'.nodes n).dentry = [] ∧ (s'.nodes n).freed = true) ∧
          ((s.vfss v).nodes = .null ∨ ∃ n, Listed s v n ∧ (s.nodes n).next = .null)) (fun _ _ => True)
        s := by
  unfold ramfs_unmount
  rw [wp_bind, wp_getSt]
  apply wp_bind_of (wp_freeAllDentries (X := Listed s v) _ (fun _ hn => hn) hin hleaf)
  intro _ s1 hs1
  apply wp_bind_of (wp_freeAllNodes (X := Listed s v) _ (fun n hn => (Follows.congr_iff hs1.1.next).mp hn))
  intro _ s2 hs2
  refine ⟨hs1.1.trans hs2.1, ?_, hs1.2.2⟩
  intro n hn
  exact ⟨hs2.1.nil_of_nil (hs1.2.1 n hn), hs2.2 n (hn.congr hs1.1.next)⟩

end Unmount

namespace Apart

variable {own : Nat → Nat}

theorem ramfs_dir_detach (n : Nat) (de : RamDentry) : Apart own (ramfs_dir_detach n de) := by
  apply (acquireNode n).bind
  intro _
  apply bind
  . apply setNode
    intro node
    exact ⟨rfl, rfl, rfl, rfl⟩
  . intro _
    apply releaseNode

theorem ramfs_free_dentry (de : RamDentry) : Apart own (ramfs_free_dentry de) := by
  apply (acquireNode de.node).bind
  intro _
  apply (getNode de.node).bind
  intro node
  apply ite
  . apply throw
  . apply bind
    . apply setNode
      intro node
      exact ⟨rfl, rfl, rfl, rfl⟩
    . intro _
      apply releaseNode

theorem setVnodeField (n : Nat) : Apart own (Fs.setNode n fun node => { node with vnode := none }) := by
  apply setNode
  intro node
  exact ⟨rfl, rfl, rfl, rfl⟩

theorem freeDentries (n : Nat) (entries : List RamDentry)
    : Apart own (ramfs_unmount.freeDentries n entries) := by
  induction entries with
  | nil =>
    unfold ramfs_unmount.freeDentries
    apply (getNode n).bind
    intro node
    apply ite
    . apply throw
    . apply pure
  | cons de entries ih =>
    unfold ramfs_unmount.freeDentries
    apply (deref de.node).bind
    intro _
    apply (setVnodeField de.node).bind
    intro _
    apply (ramfs_dir_detach n de).bind
    intro _
    apply (ramfs_free_dentry de).bind
    intro _
    apply getSt.bind
    intro st
    apply ite
    . apply throw
    . apply ih

theorem freeAllDentries (fuel : Nat) (p : Ptr) : Apart own (ramfs_unmount.freeAllDentries fuel p) := by
  induction fuel generalizing p with
  | zero =>
    cases p with
    | null => apply pure
    | ref n => apply throw
    | wild => apply throw
  | succ fuel ih =>
    cases p with
    | null => apply pure
    | wild => apply throw
    | ref n =>
      apply (deref n).bind
      intro _
      apply (setVnodeField n).bind
      intro _
      apply (getNode n).bind
      intro node
      apply ite
      . apply ih
      . apply (freeDentries n node.dentry).bind
        intro _
        apply (getNode n).bind
        intro node
        apply ih

theorem freeAllNodes (fuel : Nat) (p : Ptr) : Apart own (ramfs_unmount.freeAllNodes fuel p) := by
  induction fuel generalizing p with
  | zero =>
    cases p with
    | null => apply pure
    | ref n => apply throw
    | wild => apply throw
  | succ fuel ih =>
    cases p with
    | null => apply pure
    | wild => apply throw
    | ref n =>
      apply (ramfs_free_node n).bind
      intro _
      apply (getNode n).bind
      intro node
      apply ih

theorem ramfs_unmount (vfs : Nat) : Apart own (ramfs_unmount vfs) := by
  apply getSt.bind
  intro st
  apply (freeAllDentries _ _).bind
  intro _
  apply (freeAllNodes _ _).bind
  intro _
  apply pure

end Apart

end Fs
end Franklin
