import Franklin.Fs.Lemmas.Walked
import Mathlib.Data.List.Infix

/-!
This module contains which dentry `ramfs_lookup` finds: it compares names only up to the length of the
component, so it takes the first name that begins with the component.
-/

namespace Franklin
namespace Fs

theorem strncmp_append_eq_zero_iff (s c rest : Name)
    : strncmp s (c ++ rest) c.length = 0 ↔ c <+: s := by
  induction c generalizing s with
  | nil => simp [strncmp]
  | cons a c ih =>
    cases s with
    | nil => simp [strncmp]
    | cons b s =>
      simp only [List.cons_append, List.length_cons, strncmp, List.head?_cons, List.tail_cons]
      rw [List.cons_prefix_cons]
      by_cases heq : a = b
      . subst heq
        simp [ih]
      . have : b ≠ a := Ne.symm heq
        simp [heq, this]

theorem find_eq (entries : List RamDentry) (c rest : Name)
    : ramfs_lookup.find (c ++ rest) c.length entries
        = entries.find? fun entry => c <+: entry.name := by
  unfold ramfs_lookup.find
  congr
  funext entry
  rw [decide_eq_decide]
  apply strncmp_append_eq_zero_iff

/--
A component of the path `c ++ rest` other than `.` and `..`.
-/
structure IsComponent (c rest : Name) : Prop where
  ne_nil : c ≠ []
  slash : '/' ∉ c
  dot : c ≠ ['.']
  dotdot : c ≠ ['.', '.']
  ends : rest = [] ∨ rest.head? = some '/'

instance (c rest : Name) : Decidable (IsComponent c rest) :=
  decidable_of_iff (_ ∧ _ ∧ _ ∧ _ ∧ _)
    ⟨fun h => ⟨h.1, h.2.1, h.2.2.1, h.2.2.2.1, h.2.2.2.2⟩,
      fun h => ⟨h.ne_nil, h.slash, h.dot, h.dotdot, h.ends⟩⟩

theorem IsComponent.strcmp_dot {c rest : Name} (h : IsComponent c rest)
    : strcmp (c ++ rest) ['.'] ≠ 0 := by
  unfold strcmp
  intro hcmp
  have heq : c ++ rest = ['.'] := by
    by_contra hne
    simp [hne] at hcmp
  rw [List.append_eq_singleton_iff] at heq
  cases heq with
  | inl heq => exact h.ne_nil heq.1
  | inr heq => exact h.dot heq.1

theorem IsComponent.strcmp_dotdot {c rest : Name} (h : IsComponent c rest)
    : strcmp (c ++ rest) ['.', '.'] ≠ 0 := by
  unfold strcmp
  intro hcmp
  have heq : c ++ rest = ['.', '.'] := by
    by_contra hne
    simp [hne] at hcmp
  rw [List.append_eq_cons_iff] at heq
  cases heq with
  | inl heq => exact h.ne_nil heq.1
  | inr heq =>
    rcases heq with ⟨c', hc, heq⟩
    rw [eq_comm, List.append_eq_singleton_iff] at heq
    cases heq with
    | inl heq =>
      rw [heq.1] at hc
      exact h.dot hc
    | inr heq =>
      rw [heq.1] at hc
      exact h.dotdot hc

structure Idle (s : St) (n : Nat) : Prop where
  freed : (s.nodes n).freed = false
  ramlock : (s.nodes n).ramlock = false
  vnode : ∀ v ∈ (s.nodes n).vnode,
    (s.vnodes v).freed = false ∧ (s.vnodes v).lock = false ∧ (s.vnodes v).data = n ∧
      (s.vnodes v).refcount ≠ 2 ^ 31 - 1

instance (s : St) (n : Nat) : Decidable (Idle s n) :=
  decidable_of_iff (_ ∧ _ ∧ _) ⟨fun h => ⟨h.1, h.2.1, h.2.2⟩, fun h => ⟨h.freed, h.ramlock, h.vnode⟩⟩

/--
`vdir` is a directory, and neither it nor its entries are locked or freed. It is not an entry of itself.
-/
structure Directory (s : St) (vdir : Nat) : Prop where
  freed : (s.vnodes vdir).freed = false
  live : (s.nodes (s.vnodes vdir).data).freed = false
  type : (s.vnodes vdir).type = .VDIR
  ramlock : (s.nodes (s.vnodes vdir).data).ramlock = false
  wild : (s.nodes (s.vnodes vdir).data).wild = false
  entry : ∀ de ∈ (s.nodes (s.vnodes vdir).data).dentry,
    de.node ≠ (s.vnodes vdir).data ∧ Idle s de.node

instance (s : St) (vdir : Nat) : Decidable (Directory s vdir) :=
  decidable_of_iff (_ ∧ _ ∧ _ ∧ _ ∧ _ ∧ _)
    ⟨fun h => ⟨h.1, h.2.1, h.2.2.1, h.2.2.2.1, h.2.2.2.2.1, h.2.2.2.2.2⟩,
      fun h => ⟨h.freed, h.live, h.type, h.ramlock, h.wild, h.entry⟩⟩

def St.entries (s : St) (vdir : Nat) : List RamDentry :=
  (s.nodes (s.vnodes vdir).data).dentry

def IsVnodeOf (s : St) (n v : Nat) : Prop :=
  (s.nodes n).vnode = some v ∧ (s.vnodes v).data = n

theorem wp_newVnode_fresh {s : St} {E : Stop → St → Prop} (vfs n : Nat)
    : wp (newVnode vfs n) (fun v s' => IsVnodeOf s' n v ∧ (s'.vnodes v).freed = false) E s :=
  ⟨⟨by simp, by simp⟩, by simp⟩

theorem ramfs_vget_idle {s : St} {n : Nat} (h : Idle s n) (vfs : Nat)
    : wp (ramfs_vget vfs n) (fun v s' => IsVnodeOf s' n v) (fun _ _ => False) s := by
  unfold ramfs_vget acquireNode releaseNode
  rw [wp_bind, wp_deref]
  refine ⟨by simp [h.freed], ?_⟩
  intro _
  rw [wp_bind, wp_bind, wp_getNode, h.ramlock]
  simp only [Bool.false_eq_true, if_false, wp_setNode, wp_bind, wp_getNode, Function.update_self]
  cases hv : (s.nodes n).vnode with
  | none =>
    dsimp only
    rw [wp_bind]
    apply wp_mono (wp_newVnode_fresh vfs n) _ (fun _ _ he => he)
    intro v s1 hs1
    rcases hs1 with ⟨⟨hvnode, hdata⟩, hfreed⟩
    rw [wp_bind, wp_release_alive hfreed, wp_bind, wp_setNode, wp_pure]
    simp [IsVnodeOf, hdata, hvnode]
  | some v =>
    rcases h.vnode v hv with ⟨hfreed, hlock, hdata, hmax⟩
    dsimp only
    rw [wp_bind, wp_acquire_free (by exact hfreed) (by exact hlock), wp_bind,
      wp_vref_locked_alive (by simpa using hfreed) (by simpa using hmax), wp_bind,
      wp_release_alive (by simpa using hfreed), wp_bind, wp_setNode, wp_pure]
    simp [IsVnodeOf, hdata]

/--
What the lookup of the component `c` should return and leave behind.
-/
def LooksUp (s : St) (vdir : Nat) (c : Name) (r : Code × Option Nat) (s' : St) : Prop :=
  match (s.entries vdir).find? (·.name = c) with
  | some de => ∃ v, r = (none, some v) ∧ IsVnodeOf s' de.node v
  | none => r = (some .ENOENT, none)

def LooksUpFirst (s : St) (vdir : Nat) (c : Name) (r : Code × Option Nat) (s' : St) : Prop :=
  match (s.entries vdir).find? (c <+: ·.name) with
  | some de => ∃ v, r = (none, some v) ∧ IsVnodeOf s' de.node v
  | none => r = (some .ENOENT, none)

theorem looksUp_iff {s s' : St} {vdir : Nat} {c : Name} {r : Code × Option Nat}
    (h : LooksUpFirst s vdir c r s')
    : LooksUp s vdir c r s' ↔
        ((s.entries vdir).find? (c <+: ·.name)).map (·.node)
          = ((s.entries vdir).find? (·.name = c)).map (·.node) := by
  unfold LooksUpFirst at h
  unfold LooksUp
  cases hfirst : (s.entries vdir).find? (c <+: ·.name) with
  | none =>
    rw [hfirst] at h
    dsimp only at h
    rw [h]
    cases (s.entries vdir).find? (·.name = c) with
    | none => simp
    | some de => simp
  | some de' =>
    rw [hfirst] at h
    rcases h with ⟨v, hr, hv⟩
    rw [hr]
    cases (s.entries vdir).find? (·.name = c) with
    | none => simp
    | some de =>
      simp only [Option.map_some, Option.some.injEq, Prod.mk.injEq, true_and]
      constructor
      . intro h
        rcases h with ⟨v', rfl, hv'⟩
        rw [← hv.2, hv'.2]
      . intro heq
        rw [heq] at hv
        exact ⟨v, rfl, hv⟩

theorem ramfs_lookup_first {s : St} {vdir : Nat} {c rest : Name} (hdir : Directory s vdir)
    (hc : IsComponent c rest) (vpp : Option Nat)
    : wp (ramfs_lookup vdir vpp (c ++ rest) c.length)
        (LooksUpFirst s vdir c) (fun _ _ => False) s := by
  unfold LooksUpFirst St.entries ramfs_lookup acquireNode releaseNode
  rw [wp_bind, wp_getVnode]
  refine ⟨by simp [hdir.freed], ?_⟩
  intro _
  rw [wp_bind, wp_deref]
  refine ⟨by simp [hdir.live], ?_⟩
  intro _
  rw [wp_bind, wp_bind, wp_getNode, hdir.ramlock]
  simp only [Bool.false_eq_true, if_false, wp_setNode]
  rw [wp_bind, wp_getNode]
  dsimp only
  rw [if_neg (by simp [hdir.type]), if_neg hc.strcmp_dot, if_neg hc.strcmp_dotdot]
  simp only [Function.update_self, find_eq]
  cases hfind : (s.nodes (s.vnodes vdir).data).dentry.find? fun entry => c <+: entry.name with
  | none => simp [hdir.wild]
  | some de =>
    rcases hdir.entry de (List.mem_of_find?_eq_some hfind) with ⟨hne, hidle⟩
    dsimp only
    rw [wp_bind]
    apply wp_mono (ramfs_vget_idle _ (s.vnodes vdir).vfs) _ (fun _ _ he => he)
    . constructor
      . dsimp only
        rw [Function.update_of_ne hne, hidle.freed]
      . dsimp only
        rw [Function.update_of_ne hne, hidle.ramlock]
      . dsimp only
        rw [Function.update_of_ne hne]
        apply hidle.vnode
    . intro v s1 hs1
      rw [wp_bind, wp_setNode, wp_pure]
      refine ⟨v, rfl, ?_, hs1.2⟩
      dsimp only
      rw [Function.update_of_ne hne, hs1.1]

theorem ramfs_lookup_exact_iff {s : St} {vdir : Nat} {c rest : Name} (hdir : Directory s vdir)
    (hc : IsComponent c rest) (vpp : Option Nat)
    : wp (ramfs_lookup vdir vpp (c ++ rest) c.length) (LooksUp s vdir c) (fun _ _ => False) s ↔
        ((s.entries vdir).find? (c <+: ·.name)).map (·.node)
          = ((s.entries vdir).find? (·.name = c)).map (·.node) := by
  have hfirst := ramfs_lookup_first hdir hc vpp
  cases hrun : ramfs_lookup vdir vpp (c ++ rest) c.length s with
  | error e s' =>
    rw [wp_of_error hrun] at hfirst
    exact hfirst.elim
  | ok r s' =>
    rw [wp_of_ok hrun] at hfirst ⊢
    apply looksUp_iff hfirst

@[irreducible]
def mainDir : St :=
  after (do
    boot
    let _ ← vfs_create "/main.c".toList .VREG 1
    let _ ← vfs_create "/main.ccc".toList .VREG 1) (.empty zeroed)

theorem ramfs_lookup_exact_main_ccc
    : wp (ramfs_lookup 0 none ("main.ccc".toList ++ []) "main.ccc".toList.length)
        (LooksUp mainDir 0 "main.ccc".toList) (fun _ _ => False) mainDir := by
  have hdir : Directory mainDir 0 := by decide +kernel
  have hc : IsComponent "main.ccc".toList [] := by decide +kernel
  rw [ramfs_lookup_exact_iff hdir hc none]
  decide +kernel

theorem ramfs_lookup_main_c_is_main_ccc
    : Directory mainDir 0 ∧ ((mainDir.entries 0).map (·.name)).Nodup ∧
        (∀ de ∈ mainDir.entries 0, de.name ≠ []) ∧ IsComponent "main.c".toList [] ∧
        ¬ wp (ramfs_lookup 0 none ("main.c".toList ++ []) "main.c".toList.length)
            (LooksUp mainDir 0 "main.c".toList) (fun _ _ => False) mainDir := by
  have hdir : Directory mainDir 0 := by decide +kernel
  have hc : IsComponent "main.c".toList [] := by decide +kernel
  refine ⟨hdir, by decide +kernel, by decide +kernel, hc, ?_⟩
  intro h
  rcases wp_and (ramfs_lookup_first hdir hc none) h with ⟨r, s', hfirst, hlooks⟩
  rw [looksUp_iff hfirst] at hlooks
  revert hlooks
  decide +kernel

end Fs
end Franklin
