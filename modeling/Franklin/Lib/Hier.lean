import Mathlib.Algebra.BigOperators.Group.Finset.Basic
import Mathlib.Algebra.Order.BigOperators.Group.Finset
import Mathlib.Data.Multiset.Count
import Mathlib.Order.WellFounded

/-!
This module contains directory trees with link counts: nodes that are numbered in the order in which they
were made, of which the directories have entries that refer to other nodes.
-/

structure HNode where
  isDir : Bool
  entries : Multiset Nat
  count : Int
  parent : Nat
  freed : Bool

structure Hier where
  node : Nat → HNode
  next : Nat

namespace Hier

variable {g g' : Hier} {m n d x : Nat}

theorem ext_nodes (hnext : g'.next = g.next) (h : ∀ m, g'.node m = g.node m) : g' = g := by
  cases g
  cases g'
  rw [Hier.mk.injEq]
  exact ⟨funext h, hnext⟩

def refs (g : Hier) (n : Nat) : Nat :=
  ∑ m ∈ Finset.range g.next, (g.node m).entries.count n

def Root (g : Hier) (n : Nat) : Prop :=
  n < g.next ∧ (g.node n).isDir = true ∧ (g.node n).parent = n ∧ (g.node n).freed = false

def Attached (g : Hier) (n : Nat) : Prop :=
  g.Root n ∨ ∃ m, n ∈ (g.node m).entries

/--
The consistency of a forest of directory trees. A directory counts its entry, itself and its own entries,
any other node counts the entries that refer to it.
-/
structure WF (g : Hier) : Prop where
  beyond : ∀ n, g.next ≤ n → (g.node n).entries = 0
  bound : ∀ m n, n ∈ (g.node m).entries → n < g.next
  leaf : ∀ m, (g.node m).isDir = false → (g.node m).entries = 0
  freed : ∀ m n, n ∈ (g.node m).entries → (g.node m).freed = false ∧ (g.node n).freed = false
  leafCount : ∀ n, n < g.next → (g.node n).isDir = false → (g.node n).freed = false →
    (g.node n).count = g.refs n
  dirCount : ∀ n, g.Attached n → (g.node n).isDir = true →
    (g.node n).count = 2 + (g.node n).entries.card
  dead : ∀ n, n < g.next → (g.node n).isDir = true → (g.node n).freed = false → ¬ g.Attached n →
    (g.node n).count = 0 ∧ (g.node n).entries = 0
  parent : ∀ m n, n ∈ (g.node m).entries → (g.node n).isDir = true →
    (g.node n).parent = m ∧ m < n ∧ (g.node m).entries.count n = 1

theorem lt_next_of_mem (h : g.WF) (hn : n ∈ (g.node m).entries) : m < g.next := by
  by_contra hle
  rw [h.beyond m (by omega)] at hn
  simp at hn

theorem isDir_of_mem (h : g.WF) (hn : n ∈ (g.node m).entries) : (g.node m).isDir = true := by
  by_contra hleaf
  rw [h.leaf m (by simpa using hleaf)] at hn
  simp at hn

theorem Attached.lt_next (h : g.WF) (hn : g.Attached n) : n < g.next := by
  cases hn with
  | inl hroot => exact hroot.1
  | inr hentry =>
    rcases hentry with ⟨m, hm⟩
    apply h.bound m n hm

theorem Attached.freed_eq (h : g.WF) (hn : g.Attached n) : (g.node n).freed = false := by
  cases hn with
  | inl hroot => exact hroot.2.2.2
  | inr hentry =>
    rcases hentry with ⟨m, hm⟩
    exact (h.freed m n hm).2

theorem refs_pos_iff (h : g.WF) : 0 < g.refs n ↔ ∃ m, n ∈ (g.node m).entries := by
  unfold refs
  constructor
  . intro hpos
    rcases Finset.exists_ne_zero_of_sum_ne_zero (Nat.pos_iff_ne_zero.mp hpos) with ⟨m, _, hm⟩
    exact ⟨m, Multiset.count_ne_zero.mp hm⟩
  . intro hex
    rcases hex with ⟨m, hm⟩
    apply Finset.sum_pos'
    . intro i _
      exact Nat.zero_le _
    . exact ⟨m, Finset.mem_range.mpr (lt_next_of_mem h hm), Multiset.count_pos.mpr hm⟩

theorem refs_eq_one (h : g.WF) (hdir : (g.node n).isDir = true) (hn : n ∈ (g.node m).entries)
    : g.refs n = 1 := by
  unfold refs
  rw [Finset.sum_eq_single m]
  . exact (h.parent m n hn hdir).2.2
  . intro i _ hne
    rw [Multiset.count_eq_zero]
    intro hi
    apply hne
    rw [← (h.parent i n hi hdir).1, (h.parent m n hn hdir).1]
  . intro hm
    exact absurd (Finset.mem_range.mpr (lt_next_of_mem h hn)) hm

theorem Root.not_mem (h : g.WF) (hroot : g.Root n) : n ∉ (g.node m).entries := by
  intro hn
  have := h.parent m n hn hroot.2.1
  have := hroot.2.2.1
  omega

theorem attached_of_mem (h : g.WF) (hn : n ∈ (g.node m).entries) : g.Attached m := by
  by_contra hnot
  have := (h.dead m (lt_next_of_mem h hn) (isDir_of_mem h hn) (h.freed m n hn).1 hnot).2
  rw [this] at hn
  simp at hn

theorem ne_of_mem (h : g.WF) (hn : n ∈ (g.node m).entries) : n ≠ m := by
  intro heq
  have hdir := isDir_of_mem h hn
  rw [← heq] at hdir
  have := (h.parent m n hn hdir).2.1
  omega

theorem count_pos_of_attached (h : g.WF) (hn : g.Attached n) : 0 < (g.node n).count := by
  cases hdir : (g.node n).isDir with
  | true =>
    rw [h.dirCount n hn hdir]
    omega
  | false =>
    have hroot : ¬ g.Root n := by
      intro hroot
      rw [hroot.2.1] at hdir
      cases hdir
    have hpos := (refs_pos_iff h).mpr (hn.resolve_left hroot)
    rw [h.leafCount n (hn.lt_next h) hdir (hn.freed_eq h)]
    omega

theorem exists_iterate_parent_root (h : g.WF) (hn : g.Attached n) (hdir : (g.node n).isDir = true)
    : ∃ k, g.Root ((fun i => (g.node i).parent)^[k] n) := by
  induction n using Nat.strongRecOn with
  | ind n ih =>
    cases hn with
    | inl hroot => exact ⟨0, hroot⟩
    | inr hentry =>
      rcases hentry with ⟨m, hm⟩
      rcases h.parent m n hm hdir with ⟨hparent, hlt, _⟩
      rcases ih m hlt (attached_of_mem h hm) (isDir_of_mem h hm) with ⟨k, hk⟩
      refine ⟨k + 1, ?_⟩
      rw [Function.iterate_succ_apply, hparent]
      apply hk

theorem refs_of_entries {E : Multiset Nat}
    (hentries : ∀ m, (g'.node m).entries = if m = d then E else (g.node m).entries)
    (hnext : g'.next = g.next) (hd : d < g.next)
    : g'.refs n + (g.node d).entries.count n = g.refs n + E.count n := by
  have hmem : d ∈ Finset.range g.next := Finset.mem_range.mpr hd
  unfold refs
  rw [hnext, ← Finset.add_sum_erase _ _ hmem, ← Finset.add_sum_erase _ (fun m => (g.node m).entries.count n) hmem]
  have hrest : ∑ m ∈ (Finset.range g.next).erase d, (g'.node m).entries.count n
      = ∑ m ∈ (Finset.range g.next).erase d, (g.node m).entries.count n := by
    apply Finset.sum_congr rfl
    intro m hm
    rw [hentries, if_neg (Finset.ne_of_mem_erase hm)]
  rw [hrest, hentries, if_pos rfl]
  omega

/-!
The operations.
-/

def root (g : Hier) : Hier where
  node m :=
    if m = g.next then { isDir := true, entries := 0, count := 2, parent := m, freed := false }
    else g.node m
  next := g.next + 1

def create (g : Hier) (d : Nat) (isDir : Bool) : Hier where
  node m :=
    if m = g.next then
      { isDir, entries := 0, count := if isDir then 2 else 1, parent := d, freed := false }
    else if m = d then
      { g.node m with entries := g.next ::ₘ (g.node m).entries, count := (g.node m).count + 1 }
    else g.node m
  next := g.next + 1

def link (g : Hier) (d x : Nat) : Hier where
  node m :=
    if m = d then
      { g.node m with entries := x ::ₘ (g.node m).entries, count := (g.node m).count + 1 }
    else if m = x then { g.node m with count := (g.node m).count + 1 }
    else g.node m
  next := g.next

def unlink (g : Hier) (d x : Nat) (k : Int) : Hier where
  node m :=
    if m = d then
      { g.node m with entries := (g.node m).entries.erase x, count := (g.node m).count - 1 }
    else if m = x then { g.node m with count := (g.node m).count - k }
    else g.node m
  next := g.next

def free (g : Hier) (X : Nat → Bool) : Hier where
  node m := if X m then { g.node m with freed := true } else g.node m
  next := g.next

theorem entries_link (m : Nat)
    : ((g.link d x).node m).entries
        = if m = d then x ::ₘ (g.node d).entries else (g.node m).entries := by
  unfold link
  dsimp only
  split
  . next hd => rw [hd]
  . split <;> rfl

theorem static_link (m : Nat)
    : ((g.link d x).node m).isDir = (g.node m).isDir ∧ ((g.link d x).node m).parent = (g.node m).parent ∧
      ((g.link d x).node m).freed = (g.node m).freed := by
  unfold link
  dsimp only
  split
  . exact ⟨rfl, rfl, rfl⟩
  . split <;> exact ⟨rfl, rfl, rfl⟩

theorem entries_unlink {k : Int} (m : Nat)
    : ((g.unlink d x k).node m).entries
        = if m = d then (g.node d).entries.erase x else (g.node m).entries := by
  unfold unlink
  dsimp only
  split
  . next hd => rw [hd]
  . split <;> rfl

theorem static_unlink {k : Int} (m : Nat)
    : ((g.unlink d x k).node m).isDir = (g.node m).isDir ∧
      ((g.unlink d x k).node m).parent = (g.node m).parent ∧
      ((g.unlink d x k).node m).freed = (g.node m).freed := by
  unfold unlink
  dsimp only
  split
  . exact ⟨rfl, rfl, rfl⟩
  . split <;> exact ⟨rfl, rfl, rfl⟩

theorem root_of_static
    (hstatic : ∀ m, (g'.node m).isDir = (g.node m).isDir ∧ (g'.node m).parent = (g.node m).parent ∧
      (g'.node m).freed = (g.node m).freed) (hnext : g'.next = g.next)
    : g'.Root n ↔ g.Root n := by
  unfold Root
  rw [hnext, (hstatic n).1, (hstatic n).2.1, (hstatic n).2.2]

theorem attached_link (hx : g.Attached x) : (g.link d x).Attached n ↔ g.Attached n := by
  have hroot : (g.link d x).Root n ↔ g.Root n := root_of_static (fun m => static_link m) rfl
  constructor
  . intro hn
    cases hn with
    | inl hn => exact Or.inl (hroot.mp hn)
    | inr hn =>
      rcases hn with ⟨m, hm⟩
      rw [entries_link] at hm
      split at hm
      . cases Multiset.mem_cons.mp hm with
        | inl heq => rwa [heq]
        | inr hm => exact Or.inr ⟨d, hm⟩
      . exact Or.inr ⟨m, hm⟩
  . intro hn
    cases hn with
    | inl hn => exact Or.inl (hroot.mpr hn)
    | inr hn =>
      rcases hn with ⟨m, hm⟩
      refine Or.inr ⟨m, ?_⟩
      rw [entries_link]
      split
      . next heq => exact Multiset.mem_cons_of_mem (heq ▸ hm)
      . apply hm

theorem WF.link (h : g.WF) (hd : g.Attached d) (hdir : (g.node d).isDir = true) (hx : g.Attached x)
    (hleaf : (g.node x).isDir = false) : (g.link d x).WF := by
  have hne : d ≠ x := by
    intro heq
    rw [heq, hleaf] at hdir
    cases hdir
  have hdlt := hd.lt_next h
  have hmem : ∀ m n, n ∈ ((g.link d x).node m).entries → n ∈ (g.node m).entries ∨ m = d ∧ n = x := by
    intro m n hn
    rw [entries_link] at hn
    by_cases hm : m = d
    . rw [if_pos hm, Multiset.mem_cons] at hn
      cases hn with
      | inl heq => exact Or.inr ⟨hm, heq⟩
      | inr hn => exact Or.inl (hm ▸ hn)
    . rw [if_neg hm] at hn
      exact Or.inl hn
  have hattached : ∀ n, (g.link d x).Attached n → g.Attached n := by
    intro n hn
    cases hn with
    | inl hroot => exact Or.inl ((root_of_static static_link rfl).mp hroot)
    | inr hentry =>
      rcases hentry with ⟨m, hm⟩
      cases hmem m n hm with
      | inl hm => exact Or.inr ⟨m, hm⟩
      | inr heq =>
        rw [heq.2]
        apply hx
  have hattached' : ∀ n, g.Attached n → (g.link d x).Attached n := by
    intro n hn
    cases hn with
    | inl hroot => exact Or.inl ((root_of_static static_link rfl).mpr hroot)
    | inr hentry =>
      rcases hentry with ⟨m, hm⟩
      refine Or.inr ⟨m, ?_⟩
      rw [entries_link]
      split
      . next heq => exact Multiset.mem_cons_of_mem (heq ▸ hm)
      . apply hm
  constructor
  case beyond =>
    intro n hn
    change g.next ≤ n at hn
    rw [entries_link, if_neg (by omega), h.beyond n hn]
  case bound =>
    intro m n hn
    cases hmem m n hn with
    | inl hn => apply h.bound m n hn
    | inr heq =>
      rw [heq.2]
      apply hx.lt_next h
  case leaf =>
    intro m hm
    rw [(static_link m).1] at hm
    rw [entries_link, if_neg, h.leaf m hm]
    intro heq
    rw [heq, hdir] at hm
    cases hm
  case freed =>
    intro m n hn
    rw [(static_link m).2.2, (static_link n).2.2]
    cases hmem m n hn with
    | inl hn => apply h.freed m n hn
    | inr heq =>
      rw [heq.1, heq.2]
      exact ⟨hd.freed_eq h, hx.freed_eq h⟩
  case leafCount =>
    intro n hn hnleaf hfreed
    change n < g.next at hn
    rw [(static_link n).1] at hnleaf
    rw [(static_link n).2.2] at hfreed
    have hrefs := refs_of_entries (n := n) (entries_link (g := g) (x := x)) rfl hdlt
    have hold := h.leafCount n hn hnleaf hfreed
    have hnd : n ≠ d := by
      intro heq
      rw [heq, hdir] at hnleaf
      cases hnleaf
    by_cases hnx : n = x
    . subst hnx
      have hcount : ((g.link d n).node n).count = (g.node n).count + 1 := by
        simp [Hier.link, hnd]
      rw [Multiset.count_cons_self] at hrefs
      rw [hcount, hold]
      omega
    . have hcount : ((g.link d x).node n).count = (g.node n).count := by
        simp [Hier.link, hnd, hnx]
      rw [Multiset.count_cons_of_ne hnx] at hrefs
      rw [hcount, hold]
      omega
  case dirCount =>
    intro n hn hndir
    rw [(static_link n).1] at hndir
    have hold := h.dirCount n (hattached n hn) hndir
    have hnx : n ≠ x := by
      intro heq
      rw [heq, hleaf] at hndir
      cases hndir
    rw [entries_link]
    by_cases hnd : n = d
    . subst hnd
      have hcount : ((g.link n x).node n).count = (g.node n).count + 1 := by
        simp [Hier.link]
      rw [if_pos rfl, Multiset.card_cons, hcount, hold]
      push_cast
      omega
    . have hcount : ((g.link d x).node n).count = (g.node n).count := by
        simp [Hier.link, hnd, hnx]
      rw [if_neg hnd, hcount, hold]
  case dead =>
    intro n hn hndir hfreed hnot
    change n < g.next at hn
    rw [(static_link n).1] at hndir
    rw [(static_link n).2.2] at hfreed
    have hnot' : ¬ g.Attached n := fun hn => hnot (hattached' n hn)
    have hnd : n ≠ d := fun heq => hnot' (heq ▸ hd)
    have hnx : n ≠ x := fun heq => hnot' (heq ▸ hx)
    have hnode : (g.link d x).node n = g.node n := by
      simp [Hier.link, hnd, hnx]
    rw [hnode]
    apply h.dead n hn hndir hfreed hnot'
  case parent =>
    intro m n hn hndir
    rw [(static_link n).1] at hndir
    rw [(static_link n).2.1]
    cases hmem m n hn with
    | inr heq =>
      rw [heq.2, hleaf] at hndir
      cases hndir
    | inl hn =>
      rcases h.parent m n hn hndir with ⟨hparent, hlt, hcount⟩
      refine ⟨hparent, hlt, ?_⟩
      rw [entries_link]
      split
      . next heq =>
        have hnx : n ≠ x := by
          intro heq
          rw [heq, hleaf] at hndir
          cases hndir
        rw [Multiset.count_cons_of_ne hnx, ← heq, hcount]
      . apply hcount

theorem WF.unlink (h : g.WF) {k : Int} (hx : x ∈ (g.node d).entries)
    (hk : (g.node x).isDir = false ∧ k = 1 ∨
      (g.node x).isDir = true ∧ (g.node x).entries = 0 ∧ k = 2)
    : (g.unlink d x k).WF := by
  have hdlt := lt_next_of_mem h hx
  have hd := attached_of_mem h hx
  have hdir := isDir_of_mem h hx
  have hne : x ≠ d := by
    intro heq
    rw [heq] at hx hk
    cases hk with
    | inl hk =>
      rw [hk.1] at hdir
      cases hdir
    | inr hk =>
      have := (h.parent d d hx hk.1).2.1
      omega
  have hcountD : ((g.unlink d x k).node d).count = (g.node d).count - 1 := by
    simp [Hier.unlink]
  have hcountX : ((g.unlink d x k).node x).count = (g.node x).count - k := by
    simp [Hier.unlink, hne]
  have hnode : ∀ m, m ≠ d → m ≠ x → (g.unlink d x k).node m = g.node m := by
    intro m hmd hmx
    simp [Hier.unlink, hmd, hmx]
  have hmem : ∀ m n, n ∈ ((g.unlink d x k).node m).entries → n ∈ (g.node m).entries := by
    intro m n hn
    rw [entries_unlink] at hn
    by_cases hm : m = d
    . rw [if_pos hm] at hn
      rw [hm]
      apply Multiset.mem_of_mem_erase hn
    . rw [if_neg hm] at hn
      apply hn
  have hmem' : ∀ m n, n ≠ x → n ∈ (g.node m).entries → n ∈ ((g.unlink d x k).node m).entries := by
    intro m n hnx hn
    rw [entries_unlink]
    split
    . next hm =>
      rw [hm] at hn
      rwa [Multiset.mem_erase_of_ne hnx]
    . apply hn
  have hroot : ∀ n, (g.unlink d x k).Root n ↔ g.Root n := fun n => root_of_static static_unlink rfl
  have hattached : ∀ n, (g.unlink d x k).Attached n → g.Attached n := by
    intro n hn
    cases hn with
    | inl hr => exact Or.inl ((hroot n).mp hr)
    | inr hentry =>
      rcases hentry with ⟨m, hm⟩
      exact Or.inr ⟨m, hmem m n hm⟩
  have hattached' : ∀ n, n ≠ x → g.Attached n → (g.unlink d x k).Attached n := by
    intro n hnx hn
    cases hn with
    | inl hr => exact Or.inl ((hroot n).mpr hr)
    | inr hentry =>
      rcases hentry with ⟨m, hm⟩
      exact Or.inr ⟨m, hmem' m n hnx hm⟩
  -- a directory loses its only entry
  have hgone : (g.node x).isDir = true → ¬ (g.unlink d x k).Attached x := by
    intro hxdir hattach
    cases hattach with
    | inl hr => exact Root.not_mem h ((hroot x).mp hr) hx
    | inr hentry =>
      rcases hentry with ⟨m, hm⟩
      have hold := hmem m x hm
      have hmd : m = d := by
        rw [← (h.parent m x hold hxdir).1, (h.parent d x hx hxdir).1]
      subst hmd
      rw [entries_unlink, if_pos rfl, ← Multiset.count_pos, Multiset.count_erase_self,
        (h.parent m x hx hxdir).2.2] at hm
      omega
  constructor
  case beyond =>
    intro n hn
    change g.next ≤ n at hn
    rw [entries_unlink, if_neg (by omega), h.beyond n hn]
  case bound =>
    intro m n hn
    apply h.bound m n (hmem m n hn)
  case leaf =>
    intro m hm
    rw [(static_unlink m).1] at hm
    rw [entries_unlink, if_neg, h.leaf m hm]
    intro heq
    rw [heq, hdir] at hm
    cases hm
  case freed =>
    intro m n hn
    rw [(static_unlink m).2.2, (static_unlink n).2.2]
    apply h.freed m n (hmem m n hn)
  case leafCount =>
    intro n hn hnleaf hfreed
    change n < g.next at hn
    rw [(static_unlink n).1] at hnleaf
    rw [(static_unlink n).2.2] at hfreed
    have hrefs := refs_of_entries (n := n) (entries_unlink (g := g) (x := x) (k := k)) rfl hdlt
    have hold := h.leafCount n hn hnleaf hfreed
    by_cases hnx : n = x
    . subst hnx
      have hpos := Multiset.count_pos.mpr hx
      rw [Multiset.count_erase_self] at hrefs
      rw [hcountX, hold]
      cases hk with
      | inl hk => omega
      | inr hk =>
        rw [hk.1] at hnleaf
        cases hnleaf
    . have hnd : n ≠ d := by
        intro heq
        rw [heq, hdir] at hnleaf
        cases hnleaf
      rw [Multiset.count_erase_of_ne hnx] at hrefs
      rw [hnode n hnd hnx, hold]
      omega
  case dirCount =>
    intro n hn hndir
    rw [(static_unlink n).1] at hndir
    have hold := h.dirCount n (hattached n hn) hndir
    have hnx : n ≠ x := by
      intro heq
      rw [heq] at hn hndir
      exact hgone hndir hn
    rw [entries_unlink]
    by_cases hnd : n = d
    . subst hnd
      have hcard := Multiset.card_erase_add_one hx
      rw [if_pos rfl, hcountD, hold]
      omega
    . rw [if_neg hnd, hnode n hnd hnx, hold]
  case dead =>
    intro n hn hndir hfreed hnot
    change n < g.next at hn
    rw [(static_unlink n).1] at hndir
    rw [(static_unlink n).2.2] at hfreed
    by_cases hnx : n = x
    . subst hnx
      cases hk with
      | inl hk =>
        rw [hk.1] at hndir
        cases hndir
      | inr hk =>
        have hold := h.dirCount n (Or.inr ⟨d, hx⟩) hndir
        rw [hk.2.1, Multiset.card_zero] at hold
        rw [hcountX, entries_unlink, if_neg hne, hold, hk.2.2]
        exact ⟨by simp, hk.2.1⟩
    . have hnot' : ¬ g.Attached n := fun hn => hnot (hattached' n hnx hn)
      have hnd : n ≠ d := fun heq => hnot' (heq ▸ hd)
      rw [hnode n hnd hnx]
      apply h.dead n hn hndir hfreed hnot'
  case parent =>
    intro m n hn hndir
    have hold := hmem m n hn
    rw [(static_unlink n).1] at hndir
    rw [(static_unlink n).2.1]
    rcases h.parent m n hold hndir with ⟨hparent, hlt, hcount⟩
    refine ⟨hparent, hlt, ?_⟩
    have hnx : n ≠ x := by
      intro heq
      rw [heq] at hn hndir
      exact hgone hndir (Or.inr ⟨m, hn⟩)
    rw [entries_unlink]
    split
    . next heq =>
      rw [Multiset.count_erase_of_ne hnx, ← heq, hcount]
    . apply hcount

theorem attached_unlink_of_ne {k : Int} (hne : n ≠ x) : (g.unlink d x k).Attached n ↔ g.Attached n := by
  have hstatic : (g.unlink d x k).Root n ↔ g.Root n :=
    root_of_static (fun m => static_unlink m) rfl
  have hmem : ∀ m, n ∈ ((g.unlink d x k).node m).entries ↔ n ∈ (g.node m).entries := by
    intro m
    rw [entries_unlink]
    split
    . next heq => rw [Multiset.mem_erase_of_ne hne, heq]
    . rfl
  unfold Attached
  rw [hstatic]
  simp only [hmem]

theorem attached_unlink (h : g.WF) {k : Int} (hx : x ∈ (g.node d).entries)
    (hk : (g.node x).isDir = false ∧ k = 1 ∨
      (g.node x).isDir = true ∧ (g.node x).entries = 0 ∧ k = 2)
    (hlast : (g.node x).isDir = false → (g.node x).count = 1)
    : (g.unlink d x k).Attached n ↔ g.Attached n ∧ n ≠ x := by
  have hxd := ne_of_mem h hx
  have hgone : ¬ (g.unlink d x k).Attached x := by
    intro hattached
    have hpos := count_pos_of_attached (h.unlink hx hk) hattached
    have hcount : ((g.unlink d x k).node x).count = (g.node x).count - k := by
      simp [unlink, hxd]
    rw [hcount] at hpos
    cases hk with
    | inl hk =>
      rw [hlast hk.1, hk.2] at hpos
      omega
    | inr hk =>
      rw [h.dirCount x (Or.inr ⟨d, hx⟩) hk.1, hk.2.1, hk.2.2] at hpos
      simp at hpos
  by_cases hnx : n = x
  . rw [hnx]
    simp [hgone]
  . rw [attached_unlink_of_ne hnx]
    simp [hnx]

section Create

variable {b : Bool} (h : g.WF) (hd : g.Attached d) (hdir : (g.node d).isDir = true)

theorem create_node_of_ne (hm : m ≠ g.next) (hmd : m ≠ d) : (g.create d b).node m = g.node m := by
  simp [create, hm, hmd]

theorem static_create (hm : m ≠ g.next)
    : ((g.create d b).node m).isDir = (g.node m).isDir ∧
      ((g.create d b).node m).parent = (g.node m).parent ∧
      ((g.create d b).node m).freed = (g.node m).freed := by
  by_cases hmd : m = d
  . subst hmd
    simp [create, hm]
  . rw [create_node_of_ne hm hmd]
    exact ⟨rfl, rfl, rfl⟩

theorem root_create (hn : n ≠ g.next) : (g.create d b).Root n ↔ g.Root n := by
  rcases static_create (b := b) hn with ⟨hisDir, hparent, hfreed⟩
  unfold Root
  rw [hisDir, hparent, hfreed]
  have : n < (g.create d b).next ↔ n < g.next := by
    change n < g.next + 1 ↔ _
    omega
  rw [this]

include h hd

theorem entries_create (m : Nat)
    : ((g.create d b).node m).entries
        = if m = d then g.next ::ₘ (g.node d).entries else (g.node m).entries := by
  have hlt := hd.lt_next h
  by_cases hm : m = g.next
  . rw [if_neg (by omega), h.beyond m (by omega)]
    simp [create, hm]
  . by_cases hmd : m = d
    . rw [if_pos hmd, hmd]
      simp [create, show d ≠ g.next by omega]
    . rw [if_neg hmd, create_node_of_ne hm hmd]

theorem mem_create (hn : n ∈ ((g.create d b).node m).entries)
    : n ∈ (g.node m).entries ∧ n < g.next ∨ m = d ∧ n = g.next := by
  rw [entries_create h hd] at hn
  by_cases hm : m = d
  . rw [if_pos hm, Multiset.mem_cons] at hn
    cases hn with
    | inl heq => exact Or.inr ⟨hm, heq⟩
    | inr hn =>
      rw [hm]
      exact Or.inl ⟨hn, h.bound d n hn⟩
  . rw [if_neg hm] at hn
    exact Or.inl ⟨hn, h.bound m n hn⟩

theorem attached_create (hn : n ≠ g.next) : (g.create d b).Attached n ↔ g.Attached n := by
  unfold Attached
  rw [root_create hn]
  have : (∃ m, n ∈ ((g.create d b).node m).entries) ↔ ∃ m, n ∈ (g.node m).entries := by
    constructor
    . intro hex
      rcases hex with ⟨m, hm⟩
      cases mem_create h hd hm with
      | inl hm => exact ⟨m, hm.1⟩
      | inr heq => exact absurd heq.2 hn
    . intro hex
      rcases hex with ⟨m, hm⟩
      refine ⟨m, ?_⟩
      rw [entries_create h hd]
      split
      . next heq => exact Multiset.mem_cons_of_mem (heq ▸ hm)
      . apply hm
  rw [this]

theorem refs_create (n : Nat)
    : (g.create d b).refs n = g.refs n + if n = g.next then 1 else 0 := by
  have hlt := hd.lt_next h
  let g1 : Hier := { g with next := g.next + 1 }
  have hg1 : g1.refs n = g.refs n := by
    change ∑ m ∈ Finset.range (g.next + 1), (g.node m).entries.count n = _
    rw [Finset.sum_range_succ, h.beyond g.next (by omega)]
    simp [refs]
  have hentries : ∀ m, ((g.create d b).node m).entries
      = if m = d then g.next ::ₘ (g.node d).entries else (g1.node m).entries := entries_create h hd
  have hd1 : d < g1.next := by
    change d < g.next + 1
    omega
  have := refs_of_entries (n := n) hentries rfl hd1
  rw [hg1, Multiset.count_cons] at this
  change (g.create d b).refs n + (g.node d).entries.count n = _ at this
  omega

include hdir

theorem WF.create : (g.create d b).WF := by
  have hlt := hd.lt_next h
  have hnew : (g.create d b).node g.next = ⟨b, 0, if b then 2 else 1, d, false⟩ := by
    simp [Hier.create]
  constructor
  case beyond =>
    intro n hn
    change g.next + 1 ≤ n at hn
    rw [entries_create h hd, if_neg (by omega), h.beyond n (by omega)]
  case bound =>
    intro m n hn
    change n < g.next + 1
    cases mem_create h hd hn with
    | inl hn => omega
    | inr heq => omega
  case leaf =>
    intro m hm
    by_cases hmn : m = g.next
    . rw [hmn, hnew]
    . rw [(static_create hmn).1] at hm
      rw [entries_create h hd, if_neg, h.leaf m hm]
      intro heq
      rw [heq, hdir] at hm
      cases hm
  case freed =>
    intro m n hn
    cases mem_create h hd hn with
    | inl hmem =>
      rcases hmem with ⟨hmem, hn'⟩
      have hm := lt_next_of_mem h hmem
      rw [(static_create (by omega)).2.2, (static_create (by omega)).2.2]
      apply h.freed m n hmem
    | inr heq =>
      rw [heq.1, heq.2, hnew, (static_create (by omega)).2.2]
      exact ⟨hd.freed_eq h, rfl⟩
  case leafCount =>
    intro n hn hnleaf hfreed
    change n < g.next + 1 at hn
    rw [refs_create h hd]
    by_cases hnn : n = g.next
    . subst hnn
      rw [hnew] at hnleaf ⊢
      have hrefs : g.refs g.next = 0 := by
        by_contra hne
        rcases (refs_pos_iff h).mp (Nat.pos_of_ne_zero hne) with ⟨m, hm⟩
        have := h.bound m _ hm
        omega
      dsimp only at hnleaf
      rw [hrefs, hnleaf]
      simp
    . rw [(static_create hnn).1] at hnleaf
      rw [(static_create hnn).2.2] at hfreed
      have hnd : n ≠ d := by
        intro heq
        rw [heq, hdir] at hnleaf
        cases hnleaf
      rw [create_node_of_ne hnn hnd, if_neg hnn, h.leafCount n (by omega) hnleaf hfreed]
      simp
  case dirCount =>
    intro n hn hndir
    by_cases hnn : n = g.next
    . rw [hnn, hnew] at hndir ⊢
      dsimp only at hndir
      simp [hndir]
    . rw [(static_create hnn).1] at hndir
      have hold := h.dirCount n ((attached_create h hd hnn).mp hn) hndir
      by_cases hnd : n = d
      . subst hnd
        have hcount : ((g.create n b).node n).count = (g.node n).count + 1 := by
          simp [Hier.create, hnn]
        rw [entries_create h hd, if_pos rfl, Multiset.card_cons, hcount, hold]
        push_cast
        omega
      . rw [create_node_of_ne hnn hnd, hold]
  case dead =>
    intro n hn hndir hfreed hnot
    change n < g.next + 1 at hn
    by_cases hnn : n = g.next
    . exfalso
      apply hnot
      refine Or.inr ⟨d, ?_⟩
      rw [entries_create h hd, if_pos rfl, hnn]
      apply Multiset.mem_cons_self
    . rw [(static_create hnn).1] at hndir
      rw [(static_create hnn).2.2] at hfreed
      have hnot' : ¬ g.Attached n := fun ha => hnot ((attached_create h hd hnn).mpr ha)
      have hnd : n ≠ d := fun heq => hnot' (heq ▸ hd)
      rw [create_node_of_ne hnn hnd]
      apply h.dead n (by omega) hndir hfreed hnot'
  case parent =>
    intro m n hn hndir
    cases mem_create h hd hn with
    | inl hmem =>
      rcases hmem with ⟨hmem, hn'⟩
      rw [(static_create (by omega)).1] at hndir
      rw [(static_create (by omega)).2.1]
      rcases h.parent m n hmem hndir with ⟨hparent, hmn, hcount⟩
      refine ⟨hparent, hmn, ?_⟩
      rw [entries_create h hd]
      split
      . next heq => rw [Multiset.count_cons_of_ne (by omega), ← heq, hcount]
      . apply hcount
    | inr heq =>
      rcases heq with ⟨rfl, rfl⟩
      refine ⟨by rw [hnew], hlt, ?_⟩
      rw [entries_create h hd, if_pos rfl, Multiset.count_cons_self]
      have : (g.node m).entries.count g.next = 0 := by
        rw [Multiset.count_eq_zero]
        intro hmem
        have := h.bound m _ hmem
        omega
      omega

end Create

section Free

variable {X : Nat → Bool}

theorem static_free (m : Nat)
    : ((g.free X).node m).isDir = (g.node m).isDir ∧ ((g.free X).node m).parent = (g.node m).parent ∧
      ((g.free X).node m).entries = (g.node m).entries ∧
      ((g.free X).node m).count = (g.node m).count := by
  unfold free
  dsimp only
  split <;> exact ⟨rfl, rfl, rfl, rfl⟩

theorem freed_free (m : Nat) : ((g.free X).node m).freed = (X m || (g.node m).freed) := by
  unfold free
  dsimp only
  split
  . next hm => simp [hm]
  . next hm => simp [hm]

theorem attached_free (hn : X n = false) : (g.free X).Attached n ↔ g.Attached n := by
  rcases static_free (g := g) (X := X) n with ⟨hisDir, hparent, _⟩
  unfold Attached Root
  simp only [(static_free _).2.2.1]
  rw [hisDir, hparent, freed_free, hn]
  rfl

theorem root_free (hX : ∀ x, X x = true → ¬ g.Attached x) : (g.free X).Root n ↔ g.Root n := by
  unfold Root
  rw [(static_free n).1, (static_free n).2.1, freed_free, Bool.or_eq_false_iff]
  constructor
  . intro hroot
    exact ⟨hroot.1, hroot.2.1, hroot.2.2.1, hroot.2.2.2.2⟩
  . intro hroot
    refine ⟨hroot.1, hroot.2.1, hroot.2.2.1, ?_, hroot.2.2.2⟩
    by_contra hx
    exact hX n (by simpa using hx) (Or.inl hroot)

theorem Attached.of_free (hn : (g.free X).Attached n) : g.Attached n := by
  cases hn with
  | inl hroot =>
    have hfreed := hroot.2.2.2
    rw [freed_free, Bool.or_eq_false_iff] at hfreed
    exact (attached_free hfreed.1).mp (Or.inl hroot)
  | inr hentry =>
    rcases hentry with ⟨m, hm⟩
    rw [(static_free m).2.2.1] at hm
    exact Or.inr ⟨m, hm⟩

theorem attached_free_iff (hX : ∀ x, X x = true → ¬ g.Attached x)
    : (g.free X).Attached n ↔ g.Attached n := by
  unfold Attached
  rw [root_free hX]
  simp only [(static_free _).2.2.1]

theorem WF.free (h : g.WF) (hX : ∀ x, X x = true → ¬ g.Attached x) : (g.free X).WF := by
  have hrefs : ∀ n, (g.free X).refs n = g.refs n := by
    intro n
    unfold refs
    simp only [(static_free _).2.2.1]
    rfl
  have hout : ∀ n, g.Attached n → X n = false := by
    intro n hn
    by_contra hx
    exact hX n (by simpa using hx) hn
  constructor
  case beyond =>
    intro n hn
    rw [(static_free n).2.2.1]
    apply h.beyond n hn
  case bound =>
    intro m n hn
    rw [(static_free m).2.2.1] at hn
    apply h.bound m n hn
  case leaf =>
    intro m hm
    rw [(static_free m).1] at hm
    rw [(static_free m).2.2.1]
    apply h.leaf m hm
  case freed =>
    intro m n hn
    rw [(static_free m).2.2.1] at hn
    rw [freed_free, freed_free, hout m (attached_of_mem h hn), hout n (Or.inr ⟨m, hn⟩)]
    apply h.freed m n hn
  case leafCount =>
    intro n hn hnleaf hfreed
    rw [freed_free, Bool.or_eq_false_iff] at hfreed
    rw [(static_free n).1] at hnleaf
    rw [(static_free n).2.2.2, hrefs]
    apply h.leafCount n hn hnleaf hfreed.2
  case dirCount =>
    intro n hn hndir
    rw [(static_free n).1] at hndir
    rw [(static_free n).2.2.2, (static_free n).2.2.1]
    apply h.dirCount n hn.of_free hndir
  case dead =>
    intro n hn hndir hfreed hna
    rw [freed_free, Bool.or_eq_false_iff] at hfreed
    rw [(static_free n).1] at hndir
    rw [(static_free n).2.2.2, (static_free n).2.2.1]
    apply h.dead n hn hndir hfreed.2
    intro ha
    exact hna ((attached_free hfreed.1).mpr ha)
  case parent =>
    intro m n hn hndir
    rw [(static_free m).2.2.1] at hn ⊢
    rw [(static_free n).1] at hndir
    rw [(static_free n).2.1]
    apply h.parent m n hn hndir

end Free

section Root

theorem root_node_of_ne (hm : m ≠ g.next) : g.root.node m = g.node m := by
  simp [root, hm]

theorem root_node_next : g.root.node g.next = ⟨true, 0, 2, g.next, false⟩ := by
  simp [root]

theorem attached_root (hn : n ≠ g.next) (h : g.WF) : g.root.Attached n ↔ g.Attached n := by
  unfold Attached Root
  rw [root_node_of_ne hn]
  have hlt : n < g.root.next ↔ n < g.next := by
    change n < g.next + 1 ↔ _
    omega
  have hex : (∃ m, n ∈ (g.root.node m).entries) ↔ ∃ m, n ∈ (g.node m).entries := by
    constructor
    . intro hex
      rcases hex with ⟨m, hm⟩
      by_cases heq : m = g.next
      . rw [heq, root_node_next] at hm
        simp at hm
      . rw [root_node_of_ne heq] at hm
        exact ⟨m, hm⟩
    . intro hex
      rcases hex with ⟨m, hm⟩
      have := lt_next_of_mem h hm
      refine ⟨m, ?_⟩
      rw [root_node_of_ne (by omega)]
      apply hm
  rw [hlt, hex]

theorem WF.root (h : g.WF) : g.root.WF := by
  have hmem : ∀ m n, n ∈ (g.root.node m).entries → n ∈ (g.node m).entries ∧ m ≠ g.next ∧ n ≠ g.next := by
    intro m n hn
    by_cases heq : m = g.next
    . rw [heq, root_node_next] at hn
      simp at hn
    . rw [root_node_of_ne heq] at hn
      refine ⟨hn, heq, ?_⟩
      have := h.bound m n hn
      omega
  have hrefs : ∀ n, g.root.refs n = g.refs n := by
    intro n
    change ∑ m ∈ Finset.range (g.next + 1), (g.root.node m).entries.count n = _
    rw [Finset.sum_range_succ, root_node_next]
    simp only [Multiset.count_zero, Nat.add_zero]
    apply Finset.sum_congr rfl
    intro m hm
    rw [root_node_of_ne]
    have := Finset.mem_range.mp hm
    omega
  constructor
  case beyond =>
    intro n hn
    change g.next + 1 ≤ n at hn
    rw [root_node_of_ne (by omega)]
    apply h.beyond n (by omega)
  case bound =>
    intro m n hn
    change n < g.next + 1
    have := h.bound m n (hmem m n hn).1
    omega
  case leaf =>
    intro m hm
    by_cases heq : m = g.next
    . rw [heq, root_node_next]
    . rw [root_node_of_ne heq] at hm ⊢
      apply h.leaf m hm
  case freed =>
    intro m n hn
    rcases hmem m n hn with ⟨hn, hmne, hnne⟩
    rw [root_node_of_ne hmne, root_node_of_ne hnne]
    apply h.freed m n hn
  case leafCount =>
    intro n hn hnleaf hfreed
    change n < g.next + 1 at hn
    by_cases heq : n = g.next
    . rw [heq, root_node_next] at hnleaf
      cases hnleaf
    . rw [root_node_of_ne heq] at hnleaf hfreed ⊢
      rw [hrefs]
      apply h.leafCount n (by omega) hnleaf hfreed
  case dirCount =>
    intro n hn hndir
    by_cases heq : n = g.next
    . rw [heq, root_node_next]
      simp
    . rw [root_node_of_ne heq] at hndir ⊢
      apply h.dirCount n ((attached_root heq h).mp hn) hndir
  case dead =>
    intro n hn hndir hfreed hnot
    change n < g.next + 1 at hn
    by_cases heq : n = g.next
    . exfalso
      apply hnot
      subst heq
      refine Or.inl ⟨Nat.lt_succ_self _, ?_⟩
      rw [root_node_next]
      exact ⟨rfl, rfl, rfl⟩
    . rw [root_node_of_ne heq] at hndir hfreed ⊢
      apply h.dead n (by omega) hndir hfreed
      intro ha
      exact hnot ((attached_root heq h).mpr ha)
  case parent =>
    intro m n hn hndir
    rcases hmem m n hn with ⟨hn, hmne, hnne⟩
    rw [root_node_of_ne hnne] at hndir ⊢
    rw [root_node_of_ne hmne]
    apply h.parent m n hn hndir

end Root

/--
The nodes in `X`, which no entry leads into or out of, are taken away with all their entries.
-/
structure Pruned (g g' : Hier) (X : Nat → Prop) : Prop where
  next : g'.next = g.next
  out : ∀ n, ¬ X n → g'.node n = g.node n
  gone : ∀ n, X n → (g'.node n).entries = 0 ∧ (g'.node n).freed = true
  closed : ∀ m n, n ∈ (g.node m).entries → (X m ↔ X n)

namespace Pruned

variable {X : Nat → Prop} (h : Pruned g g' X)

include h

theorem mem_iff : n ∈ (g'.node m).entries ↔ n ∈ (g.node m).entries ∧ ¬ X m := by
  by_cases hm : X m
  . rw [(h.gone m hm).1]
    simp [hm]
  . rw [h.out m hm]
    simp [hm]

theorem root_iff : g'.Root n ↔ g.Root n ∧ ¬ X n := by
  by_cases hn : X n
  . unfold Root
    rw [(h.gone n hn).2]
    simp [hn]
  . unfold Root
    rw [h.out n hn, h.next]
    simp [hn]

theorem attached_iff : g'.Attached n ↔ g.Attached n ∧ ¬ X n := by
  unfold Attached
  rw [h.root_iff]
  simp only [h.mem_iff]
  constructor
  . intro hn
    cases hn with
    | inl hn => exact ⟨Or.inl hn.1, hn.2⟩
    | inr hn =>
      rcases hn with ⟨m, hm, hX⟩
      exact ⟨Or.inr ⟨m, hm⟩, fun hn => hX ((h.closed m n hm).mpr hn)⟩
  . intro hn
    cases hn.1 with
    | inl hroot => exact Or.inl ⟨hroot, hn.2⟩
    | inr hex =>
      rcases hex with ⟨m, hm⟩
      exact Or.inr ⟨m, hm, fun hX => hn.2 ((h.closed m n hm).mp hX)⟩

theorem refs_eq (hn : ¬ X n) : g'.refs n = g.refs n := by
  unfold refs
  rw [h.next]
  apply Finset.sum_congr rfl
  intro m _
  by_cases hm : X m
  . have hnot : n ∉ (g.node m).entries := fun hmem => hn ((h.closed m n hmem).mp hm)
    rw [(h.gone m hm).1, Multiset.count_eq_zero_of_notMem hnot, Multiset.count_zero]
  . rw [h.out m hm]

theorem wf (hwf : g.WF) : g'.WF := by
  have hout : ∀ n, (g'.node n).freed = false → ¬ X n := by
    intro n hfreed hn
    rw [(h.gone n hn).2] at hfreed
    cases hfreed
  have hleft : ∀ m n, n ∈ (g'.node m).entries → n ∈ (g.node m).entries ∧ ¬ X m ∧ ¬ X n := by
    intro m n hn
    rw [h.mem_iff] at hn
    exact ⟨hn.1, hn.2, fun hX => hn.2 ((h.closed m n hn.1).mpr hX)⟩
  constructor
  case beyond =>
    intro n hn
    rw [h.next] at hn
    by_cases hX : X n
    . apply (h.gone n hX).1
    . rw [h.out n hX]
      apply hwf.beyond n hn
  case bound =>
    intro m n hn
    rw [h.next]
    apply hwf.bound m n (hleft m n hn).1
  case leaf =>
    intro m hm
    by_cases hX : X m
    . apply (h.gone m hX).1
    . rw [h.out m hX] at hm ⊢
      apply hwf.leaf m hm
  case freed =>
    intro m n hn
    rcases hleft m n hn with ⟨hmem, hm, hn⟩
    rw [h.out m hm, h.out n hn]
    apply hwf.freed m n hmem
  case leafCount =>
    intro n hlt hleaf hfreed
    have hn := hout n hfreed
    rw [h.next] at hlt
    rw [h.refs_eq hn]
    rw [h.out n hn] at hleaf hfreed ⊢
    apply hwf.leafCount n hlt hleaf hfreed
  case dirCount =>
    intro n hn hdir
    rw [h.attached_iff] at hn
    rw [h.out n hn.2] at hdir ⊢
    apply hwf.dirCount n hn.1 hdir
  case dead =>
    intro n hlt hdir hfreed hnot
    have hn := hout n hfreed
    rw [h.next] at hlt
    rw [h.attached_iff] at hnot
    rw [h.out n hn] at hdir hfreed ⊢
    apply hwf.dead n hlt hdir hfreed
    intro hattached
    exact hnot ⟨hattached, hn⟩
  case parent =>
    intro m n hn hdir
    rcases hleft m n hn with ⟨hmem, hm, hn⟩
    rw [h.out n hn] at hdir ⊢
    rw [h.out m hm]
    apply hwf.parent m n hmem hdir

end Pruned

end Hier
