import Mathlib.Logic.Function.Basic
import Mathlib.Data.List.Induction

/-!
This module contains radix trees that are spread over a memory of tables: a table `t : P` has a word
`mem t i` for each index `i : I` and `child` decides whether a word refers to a further table. Leaf
words are the words of the tables that are `depth` steps away from a root.
-/

namespace Radix

variable {P I W : Type}

def follow (child : W → Option P) (mem : P → I → W) (t : P) : List I → Option P
  | [] => some t
  | i :: path =>
    match child (mem t i) with
    | none => none
    | some t' => follow child mem t' path

/--
The word at index `i` of the table at the end of a path, `zero` if there is no such table.
-/
def leaf (child : W → Option P) (zero : W) (mem : P → I → W) (t : P) (path : List I) (i : I) : W :=
  match follow child mem t path with
  | none => zero
  | some t' => mem t' i

def words (child : W → Option P) (mem : P → I → W) (t : P) : List I → List W
  | [] => []
  | i :: path =>
    mem t i ::
      match child (mem t i) with
      | none => []
      | some t' => words child mem t' path

def fill [DecidableEq P] (mem : P → I → W) (t : P) (w : W) : P → I → W :=
  Function.update mem t (fun _ => w)

def store [DecidableEq P] [DecidableEq I] (mem : P → I → W) (t : P) (i : I) (w : W) : P → I → W :=
  Function.update mem t (Function.update (mem t) i w)

@[simp]
theorem fill_self [DecidableEq P] (mem : P → I → W) (t : P) (i : I) (w : W)
    : fill mem t w t i = w := by
  simp [fill]

theorem fill_of_ne [DecidableEq P] {mem : P → I → W} {t t' : P} {w : W} (h : t' ≠ t)
    : fill mem t w t' = mem t' := by
  simp [fill, h]

@[simp]
theorem store_self [DecidableEq P] [DecidableEq I] (mem : P → I → W) (t : P) (i : I) (w : W)
    : store mem t i w t i = w := by
  simp [store]

theorem store_of_ne [DecidableEq P] [DecidableEq I] {mem : P → I → W} {t t' : P} {i i' : I} {w : W}
    (h : ¬(t' = t ∧ i' = i)) : store mem t i w t' i' = mem t' i' := by
  unfold store
  by_cases ht : t' = t
  . subst ht
    have hi : i' ≠ i := fun hi => h ⟨rfl, hi⟩
    simp [hi]
  . simp [ht]

theorem forall_fill [DecidableEq P] {mem : P → I → W} {t : P} {w : W} {good : W → Prop}
    (h : ∀ t' i', good (mem t' i')) (hw : good w) (t' : P) (i' : I) : good (fill mem t w t' i') := by
  by_cases ht : t' = t
  . rwa [ht, fill_self]
  . rw [fill_of_ne ht]
    exact h t' i'

theorem forall_store [DecidableEq P] [DecidableEq I] {mem : P → I → W} {t : P} {i : I} {w : W} {good : W → Prop}
    (h : ∀ t' i', good (mem t' i')) (hw : good w) (t' : P) (i' : I) : good (store mem t i w t' i') := by
  by_cases hcell : t' = t ∧ i' = i
  . rwa [hcell.1, hcell.2, store_self]
  . rw [store_of_ne hcell]
    exact h t' i'

variable (child : W → Option P)

theorem follow_append (mem : P → I → W) (t : P) (path path' : List I)
    : follow child mem t (path ++ path') =
        (follow child mem t path).bind fun t' => follow child mem t' path' := by
  induction path generalizing t with
  | nil => rfl
  | cons i path ih =>
    simp only [List.cons_append, follow]
    split
    . rfl
    . apply ih

theorem follow_concat (mem : P → I → W) (t : P) (path : List I) (i : I)
    : follow child mem t (path ++ [i]) =
        (follow child mem t path).bind fun t' => child (mem t' i) := by
  rw [follow_append]
  congr 1
  funext t'
  simp only [follow]
  split <;> simp_all

theorem follow_concat_eq_some_iff {mem : P → I → W} {t t' : P} {path : List I} {i : I}
    : follow child mem t (path ++ [i]) = some t' ↔
        ∃ s, follow child mem t path = some s ∧ child (mem s i) = some t' := by
  rw [follow_concat]
  simp only [Option.bind_eq_some_iff]

theorem mem_words_concat {mem : P → I → W} {t t' : P} {path : List I} {i : I} {w : W}
    (h : follow child mem t path = some t')
    : w ∈ words child mem t (path ++ [i]) ↔ w ∈ words child mem t path ∨ w = mem t' i := by
  induction path generalizing t with
  | nil =>
    cases h
    simp only [List.nil_append, words]
    split <;> simp
  | cons j path ih =>
    simp only [follow] at h
    split at h
    . contradiction
    . next s hs =>
      simp only [List.cons_append, words, hs, List.mem_cons, ih h, or_assoc]

/--
The trees below some roots, of which only the subtrees at the indices in `valid` are looked at.
-/
structure Shape (P I : Type) where
  depth : Nat
  roots : P → Prop
  valid : I → Prop

namespace Shape

variable (shape : Shape P I)

def Path (path : List I) : Prop :=
  path.length ≤ shape.depth ∧ ∀ i, path.head? = some i → shape.valid i

theorem path_nil : shape.Path ([] : List I) := by
  simp [Path]

variable {shape}

theorem Path.of_concat {path : List I} {i : I} (h : shape.Path (path ++ [i])) : shape.Path path := by
  obtain ⟨hlength, hvalid⟩ := h
  simp only [List.length_append, List.length_singleton] at hlength
  refine ⟨by omega, ?_⟩
  intro j hj
  apply hvalid
  rw [List.head?_append, hj]
  rfl

variable (shape)

/--
`t` is the table at the end of `path`, seen from one of the roots.
-/
def Reaches (mem : P → I → W) (path : List I) (t : P) : Prop :=
  shape.Path path ∧ ∃ root, shape.roots root ∧ follow child mem root path = some t

/--
No table is shared: a table is at the end of one path only.
-/
def Forest (mem : P → I → W) : Prop :=
  ∀ path path' t, shape.Reaches child mem path t → shape.Reaches child mem path' t → path = path'

/--
A word of an inner table that refers to another table is never changed any more.
-/
def Extends (mem mem' : P → I → W) : Prop :=
  ∀ path t i, shape.Reaches child mem path t → path.length < shape.depth →
    child (mem t i) ≠ none → mem' t i = mem t i

def Inner (property : W → Prop) (mem : P → I → W) : Prop :=
  ∀ path t i, shape.Reaches child mem path t → path.length < shape.depth →
    child (mem t i) ≠ none → property (mem t i)

variable {child} {shape}

theorem Inner.words {property : W → Prop} {mem : P → I → W} {root t : P} {path : List I}
    (h : shape.Inner child property mem) (hroot : shape.roots root) (hpath : shape.Path path)
    (hfollow : follow child mem root path = some t) : ∀ w ∈ words child mem root path, property w := by
  induction path using List.reverseRecOn generalizing t with
  | nil =>
    intro w hw
    contradiction
  | append_singleton path i ih =>
    rw [follow_concat_eq_some_iff] at hfollow
    obtain ⟨s, hs, hchild⟩ := hfollow
    have hlength := hpath.1
    simp only [List.length_append, List.length_singleton] at hlength
    intro w hw
    cases (mem_words_concat child hs).mp hw with
    | inl hw => exact ih hpath.of_concat hs w hw
    | inr hw =>
      rw [hw]
      exact h path s i ⟨hpath.of_concat, root, hroot, hs⟩ (by omega) (by simp [hchild])

theorem Reaches.root {mem : P → I → W} {root : P} (h : shape.roots root)
    : shape.Reaches child mem [] root :=
  ⟨shape.path_nil, root, h, rfl⟩

namespace Extends

theorem follow_eq_some {mem mem' : P → I → W} {root t : P} {path : List I}
    (h : shape.Extends child mem mem') (hroot : shape.roots root) (hpath : shape.Path path)
    (hfollow : follow child mem root path = some t) : follow child mem' root path = some t := by
  induction path using List.reverseRecOn generalizing t with
  | nil => exact hfollow
  | append_singleton path i ih =>
    rw [follow_concat_eq_some_iff] at hfollow
    obtain ⟨s, hs, hchild⟩ := hfollow
    rw [follow_concat_eq_some_iff]
    refine ⟨s, ih hpath.of_concat hs, ?_⟩
    have hlength := hpath.1
    simp only [List.length_append, List.length_singleton] at hlength
    rw [h path s i ⟨hpath.of_concat, root, hroot, hs⟩ (by omega) (by simp [hchild])]
    exact hchild

theorem reaches {mem mem' : P → I → W} {path : List I} {t : P}
    (h : shape.Extends child mem mem') (hreaches : shape.Reaches child mem path t)
    : shape.Reaches child mem' path t := by
  obtain ⟨hpath, root, hroot, hfollow⟩ := hreaches
  exact ⟨hpath, root, hroot, h.follow_eq_some hroot hpath hfollow⟩

theorem refl (mem : P → I → W) : shape.Extends child mem mem := by
  intro _ _ _ _ _ _
  rfl

theorem trans {mem mem' mem'' : P → I → W} (h : shape.Extends child mem mem')
    (h' : shape.Extends child mem' mem'') : shape.Extends child mem mem'' := by
  intro path t i hreaches hlength hchild
  have heq := h path t i hreaches hlength hchild
  rw [h' path t i (h.reaches hreaches) hlength (by rwa [heq]), heq]

end Extends

variable {mem : P → I → W} {path : List I} {t z : P} {i : I} {zero w : W}

theorem follow_eq_of_agree {mem' : P → I → W} {root : P}
    (hagree : ∀ path t, shape.Reaches child mem path t → mem' t = mem t) (hroot : shape.roots root)
    (hpath : shape.Path path) : follow child mem' root path = follow child mem root path := by
  induction path using List.reverseRecOn with
  | nil => rfl
  | append_singleton path j ih =>
    rw [follow_concat, follow_concat, ih hpath.of_concat]
    apply Option.bind_congr
    intro s hs
    rw [hagree path s ⟨hpath.of_concat, root, hroot, hs⟩]

/--
What is needed to hang the empty table `z` into the free index `i` of the inner table `t`.
-/
structure CanLink (child : W → Option P) (shape : Shape P I) (mem : P → I → W) (path : List I)
    (t : P) (i : I) (z : P) (zero w : W) : Prop where
  forest : shape.Forest child mem
  reaches : shape.Reaches child mem path t
  inner : path.length < shape.depth
  free : child (mem t i) = none
  fresh : ∀ path', ¬shape.Reaches child mem path' z
  child_zero : child zero = none
  child_word : child w = some z

theorem CanLink.ne (h : CanLink child shape mem path t i z zero w) {path' : List I} {t' : P}
    (hreaches : shape.Reaches child mem path' t') : t' ≠ z := by
  intro heq
  exact h.fresh path' (heq ▸ hreaches)

variable [DecidableEq P] [DecidableEq I]

def link (mem : P → I → W) (t : P) (i : I) (z : P) (zero w : W) : P → I → W :=
  store (fill mem z zero) t i w

theorem link_of_ne {t' : P} {i' : I} (hz : t' ≠ z) (h : ¬(t' = t ∧ i' = i))
    : link mem t i z zero w t' i' = mem t' i' := by
  unfold link
  rw [store_of_ne h, fill_of_ne hz]

namespace CanLink

theorem link_new (h : CanLink child shape mem path t i z zero w) (i' : I)
    : link mem t i z zero w z i' = zero := by
  unfold link
  rw [store_of_ne, fill_self]
  rintro ⟨heq, _⟩
  exact h.ne h.reaches heq.symm

theorem extends_link (h : CanLink child shape mem path t i z zero w)
    : shape.Extends child mem (link mem t i z zero w) := by
  intro path' t' i' hreaches _ hchild
  apply link_of_ne (h.ne hreaches)
  rintro ⟨ht, hi⟩
  subst ht hi
  exact hchild h.free

theorem follow_link (h : CanLink child shape mem path t i z zero w) {root t' : P} {path' : List I}
    (hroot : shape.roots root) (hpath : shape.Path path')
    (hfollow : follow child (link mem t i z zero w) root path' = some t')
    : follow child mem root path' = some t' ∨ (path' = path ++ [i] ∧ t' = z) := by
  induction path' using List.reverseRecOn generalizing t' with
  | nil => exact Or.inl hfollow
  | append_singleton path' j ih =>
    rw [follow_concat_eq_some_iff] at hfollow
    obtain ⟨s, hs, hchild⟩ := hfollow
    cases ih hpath.of_concat hs with
    | inl hs =>
      have hreaches : shape.Reaches child mem path' s := ⟨hpath.of_concat, root, hroot, hs⟩
      by_cases hcell : s = t ∧ j = i
      . obtain ⟨rfl, rfl⟩ := hcell
        rw [link, store_self, h.child_word, Option.some.injEq] at hchild
        right
        exact ⟨by rw [h.forest path' path s hreaches h.reaches], hchild.symm⟩
      . rw [link_of_ne (h.ne hreaches) hcell] at hchild
        left
        rw [follow_concat_eq_some_iff]
        exact ⟨s, hs, hchild⟩
    | inr hz =>
      rw [hz.2, h.link_new, h.child_zero] at hchild
      contradiction

theorem reaches_link (h : CanLink child shape mem path t i z zero w) {path' : List I} {t' : P}
    (hreaches : shape.Reaches child (link mem t i z zero w) path' t')
    : shape.Reaches child mem path' t' ∨ (path' = path ++ [i] ∧ t' = z) := by
  obtain ⟨hpath, root, hroot, hfollow⟩ := hreaches
  cases h.follow_link hroot hpath hfollow with
  | inl hfollow => exact Or.inl ⟨hpath, root, hroot, hfollow⟩
  | inr hnew => exact Or.inr hnew

theorem forest_link (h : CanLink child shape mem path t i z zero w)
    : shape.Forest child (link mem t i z zero w) := by
  intro path₁ path₂ t' h₁ h₂
  cases h.reaches_link h₁ with
  | inl hold₁ =>
    cases h.reaches_link h₂ with
    | inl hold₂ => exact h.forest path₁ path₂ t' hold₁ hold₂
    | inr hnew₂ => exact absurd hnew₂.2 (h.ne hold₁)
  | inr hnew₁ =>
    cases h.reaches_link h₂ with
    | inl hold₂ => exact absurd hnew₁.2 (h.ne hold₂)
    | inr hnew₂ => rw [hnew₁.1, hnew₂.1]

theorem inner_link {property : W → Prop} (h : CanLink child shape mem path t i z zero w)
    (hinner : shape.Inner child property mem) (hw : property w)
    : shape.Inner child property (link mem t i z zero w) := by
  intro path' t' i' hreaches hlength hchild
  cases h.reaches_link hreaches with
  | inl hold =>
    by_cases hcell : t' = t ∧ i' = i
    . rw [hcell.1, hcell.2, link, store_self]
      exact hw
    . rw [link_of_ne (h.ne hold) hcell] at hchild ⊢
      exact hinner path' t' i' hold hlength hchild
  | inr hnew =>
    rw [hnew.2, h.link_new] at hchild
    exact absurd h.child_zero hchild

theorem leaf_link (h : CanLink child shape mem path t i z zero w) {root : P} {path' : List I} (j : I)
    (hroot : shape.roots root) (hpath : shape.Path path') (hlength : path'.length = shape.depth)
    : leaf child zero (link mem t i z zero w) root path' j = leaf child zero mem root path' j := by
  unfold leaf
  cases hold : follow child mem root path' with
  | some t' =>
    rw [h.extends_link.follow_eq_some hroot hpath hold]
    have hreaches : shape.Reaches child mem path' t' := ⟨hpath, root, hroot, hold⟩
    apply link_of_ne (h.ne hreaches)
    rintro ⟨rfl, _⟩
    have hinner := h.inner
    rw [h.forest path path' t' h.reaches hreaches] at hinner
    omega
  | none =>
    cases hnew : follow child (link mem t i z zero w) root path' with
    | none => rfl
    | some t' =>
      cases h.follow_link hroot hpath hnew with
      | inl hsome => simp [hold] at hsome
      | inr hz =>
        rw [hz.2]
        exact h.link_new j

end CanLink

theorem Forest.follow_store (hforest : shape.Forest child mem) (hreaches : shape.Reaches child mem path t)
    (hleaf : path.length = shape.depth) (i : I) (w : W) {root : P} {path' : List I}
    (hroot : shape.roots root) (hpath : shape.Path path')
    : follow child (store mem t i w) root path' = follow child mem root path' := by
  induction path' using List.reverseRecOn with
  | nil => rfl
  | append_singleton path' j ih =>
    rw [follow_concat, follow_concat, ih hpath.of_concat]
    apply Option.bind_congr
    intro s hs
    rw [store_of_ne]
    rintro ⟨rfl, _⟩
    have hlength := hpath.1
    have heq := hforest path path' s hreaches ⟨hpath.of_concat, root, hroot, hs⟩
    simp only [List.length_append, List.length_singleton] at hlength
    rw [heq] at hleaf
    omega

theorem Forest.reaches_store (hforest : shape.Forest child mem)
    (hreaches : shape.Reaches child mem path t) (hleaf : path.length = shape.depth) (i : I) (w : W)
    (path' : List I) (t' : P)
    : shape.Reaches child (store mem t i w) path' t' ↔ shape.Reaches child mem path' t' := by
  unfold Reaches
  apply and_congr_right
  intro hpath
  apply exists_congr
  intro root
  apply and_congr_right
  intro hroot
  rw [hforest.follow_store hreaches hleaf i w hroot hpath]

theorem Forest.forest_store (hforest : shape.Forest child mem)
    (hreaches : shape.Reaches child mem path t) (hleaf : path.length = shape.depth) (i : I) (w : W)
    : shape.Forest child (store mem t i w) := by
  intro path₁ path₂ t' h₁ h₂
  rw [hforest.reaches_store hreaches hleaf] at h₁ h₂
  exact hforest path₁ path₂ t' h₁ h₂

theorem Forest.extends_store (hforest : shape.Forest child mem)
    (hreaches : shape.Reaches child mem path t) (hleaf : path.length = shape.depth) (i : I) (w : W)
    : shape.Extends child mem (store mem t i w) := by
  intro path' t' i' hreaches' hinner _
  apply store_of_ne
  rintro ⟨rfl, _⟩
  rw [hforest path path' t' hreaches hreaches'] at hleaf
  omega

theorem Forest.inner_store {property : W → Prop} (hforest : shape.Forest child mem)
    (hreaches : shape.Reaches child mem path t) (hleaf : path.length = shape.depth) (i : I) (w : W)
    (hinner : shape.Inner child property mem) : shape.Inner child property (store mem t i w) := by
  intro path' t' i' hreaches' hlength hchild
  rw [hforest.reaches_store hreaches hleaf] at hreaches'
  have hne : ¬(t' = t ∧ i' = i) := by
    rintro ⟨rfl, _⟩
    rw [hforest path path' t' hreaches hreaches'] at hleaf
    omega
  rw [store_of_ne hne] at hchild ⊢
  exact hinner path' t' i' hreaches' hlength hchild

theorem Forest.leaf_store_of_ne (hforest : shape.Forest child mem)
    (hreaches : shape.Reaches child mem path t) (hleaf : path.length = shape.depth) {i j : I} (w : W)
    {root : P} {path' : List I} (hroot : shape.roots root) (hpath : shape.Path path')
    (hne : ¬(path' = path ∧ j = i))
    : leaf child zero (store mem t i w) root path' j = leaf child zero mem root path' j := by
  unfold leaf
  rw [hforest.follow_store hreaches hleaf i w hroot hpath]
  cases hold : follow child mem root path' with
  | none => rfl
  | some t' =>
    apply store_of_ne
    rintro ⟨rfl, hj⟩
    apply hne
    exact ⟨hforest path' path t' ⟨hpath, root, hroot, hold⟩ hreaches, hj⟩

end Shape
end Radix
