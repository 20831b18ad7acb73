import Franklin.Fs.Lemmas.Machine
import Franklin.Fs.Lemmas.Thread
import Franklin.Fs.Lemmas.Names

/-!
This module contains when two clients can wait for each other: as soon as one of them looks up a
component in the root directory.
-/

namespace Franklin
namespace Fs

/--
The path has a component that does not begin with `..`. The walk of an absolute path ignores the
components in front of it, as it is at `rootvn`, and looks the first one up there.
-/
def Descends (path : Name) : Prop :=
  ∃ c ∈ path.splitOn '/', c ≠ [] ∧ ¬ ['.', '.'] <+: c

theorem not_descends_nil : ¬ Descends [] := by
  rintro ⟨c, hc, hne, _⟩
  rw [List.splitOn_nil, List.mem_singleton] at hc
  exact hne hc

theorem descends_append_slash {c name : Name} (hc : '/' ∉ c)
    : Descends (c ++ '/' :: name) ↔ (c ≠ [] ∧ ¬ ['.', '.'] <+: c) ∨ Descends name := by
  unfold Descends
  rw [List.splitOn_append_cons_self_of_not_mem hc]
  simp only [List.mem_cons, exists_eq_or_imp]

theorem descends_skipSlashes (name : Name) : Descends (skipSlashes name) ↔ Descends name := by
  unfold skipSlashes
  induction name with
  | nil => rfl
  | cons a name ih =>
    rw [List.dropWhile_cons]
    split
    . next ha =>
      rw [decide_eq_true_iff] at ha
      rw [ih, ha]
      have : Descends ([] ++ '/' :: name) ↔ _ := descends_append_slash (by simp)
      simpa using this.symm
    . rfl

theorem descends_component {name : Name} (hne : name ≠ []) (hhead : name.head? ≠ some '/')
    : Descends name ↔
        ¬ ['.', '.'] <+: name ∨ Descends (skipSlashes (name.drop (compLen name))) := by
  have hc : '/' ∉ name.takeWhile (· ≠ '/') := by
    intro hmem
    have hall := List.all_eq_true.mp List.all_takeWhile _ hmem
    simp at hall
  have hcne : name.takeWhile (· ≠ '/') ≠ [] := by
    cases name with
    | nil => exact absurd rfl hne
    | cons a name =>
      have ha : a ≠ '/' := by
        simpa using hhead
      simp [ha]
  rw [descends_skipSlashes, drop_compLen, ← dotdot_prefix_takeWhile]
  have hsplit := List.takeWhile_append_dropWhile (p := (· ≠ '/')) (l := name)
  cases hrest : name.dropWhile (· ≠ '/') with
  | nil =>
    rw [hrest, List.append_nil] at hsplit
    unfold Descends
    rw [hsplit] at hc
    rw [List.splitOn_eq_singleton hc, hsplit]
    simp [hne]
  | cons a rest =>
    have ha : a = '/' := by
      have := List.head?_dropWhile_not (fun x => decide (x ≠ '/')) name
      rw [hrest] at this
      simpa using this
    subst ha
    rw [hrest] at hsplit
    nth_rewrite 1 [← hsplit]
    rw [descends_append_slash hc]
    have hslash : Descends ([] ++ '/' :: rest) ↔ _ := descends_append_slash (by simp)
    simp only [List.nil_append, ne_eq, not_true_eq_false, false_and, false_or] at hslash
    rw [hslash]
    simp only [hcne, ne_eq, not_false_eq_true, true_and]

structure RootDir (vfs r w : Nat) (s : St) : Prop where
  rootfs : s.rootfs = some vfs
  root : (s.vfss vfs).root = r
  live : (s.nodes r).freed = false
  vnode : (s.nodes r).vnode = some w
  rootvn : s.rootvn = some w
  data : (s.vnodes w).data = r
  freed : (s.vnodes w).freed = false
  type : (s.vnodes w).type = .VDIR

/--
The thread comes by no other vnode than `w` and by no other ramnode than `r`, or waits for the lock of `r`
with the one of `w`, which can only be told if it runs `solo`. `b` and `q` are set if it has the locks of
`w` and `r`, and `k` counts its references to `w`.
-/
def Thread.AtRoot {α : Type} (solo : Bool) (vfs r w : Nat)
    : Thread α → Bool → Bool → Nat → (α → Bool → Bool → Nat → Prop) → Prop
  | ret a, b, q, k, Q => Q a b q k
  | stop _, _, _, _, _ => solo = false
  | lock l t, b, q, k, Q =>
    (l = .vnode w ∧ (solo = true → b = false) ∧ t.AtRoot solo vfs r w true q k Q) ∨
      (l = .ram r ∧ b = false ∧ (solo = true → q = false) ∧ t.AtRoot solo vfs r w b true k Q) ∨
        (l = .ram r ∧ b = true ∧ q = false ∧ solo = true)
  | unlock l t, b, q, k, Q =>
    (l = .vnode w ∧ t.AtRoot solo vfs r w false q k Q) ∨
      (l = .ram r ∧ t.AtRoot solo vfs r w b false k Q)
  | nextname v t, _, q, k, Q => v = w ∧ t.AtRoot solo vfs r w false q k Q
  | trylock v t, b, q, k, Q =>
    v = w ∧ ∀ held, (solo = true → held = b) → (t held).AtRoot solo vfs r w b q k Q
  | count v d t, b, q, k, Q =>
    v = w ∧ ((d = 1 ∧ k < 3 ∧ ∀ c, (t c).AtRoot solo vfs r w b q (k + 1) Q) ∨
      (d = -1 ∧ 0 < k ∧ ∀ c, 0 < c → (t c).AtRoot solo vfs r w b q (k - 1) Q))
  | atom p t, b, q, k, Q =>
    ∀ s, RootDir vfs r w s →
      wp p (fun a s' => s' = s ∧ (t a).AtRoot solo vfs r w b q k Q) (fun _ _ => solo = false) s

namespace Thread

variable {α β : Type} {solo : Bool} {vfs r w : Nat} {b q : Bool} {k : Nat}
  {Q : α → Bool → Bool → Nat → Prop} {R : β → Bool → Bool → Nat → Prop}

theorem AtRoot.bind {x : Thread α} {f : α → Thread β} (h : x.AtRoot solo vfs r w b q k Q)
    (hf : ∀ a b' q' k', Q a b' q' k' → (f a).AtRoot solo vfs r w b' q' k' R)
    : (x >>= f).AtRoot solo vfs r w b q k R := by
  show (x.bind f).AtRoot solo vfs r w b q k R
  induction x generalizing b q k with
  | ret a => apply hf a b q k h
  | stop e => exact h
  | lock l t ih =>
    rcases h with h | h | h
    . exact Or.inl ⟨h.1, h.2.1, ih h.2.2⟩
    . exact Or.inr (Or.inl ⟨h.1, h.2.1, h.2.2.1, ih h.2.2.2⟩)
    . exact Or.inr (Or.inr h)
  | unlock l t ih =>
    cases h with
    | inl h => exact Or.inl ⟨h.1, ih h.2⟩
    | inr h => exact Or.inr ⟨h.1, ih h.2⟩
  | nextname v t ih => exact ⟨h.1, ih h.2⟩
  | trylock v t ih => exact ⟨h.1, fun held hheld => ih held (h.2 held hheld)⟩
  | count v d t ih =>
    refine ⟨h.1, ?_⟩
    cases h.2 with
    | inl h => exact Or.inl ⟨h.1, h.2.1, fun c => ih c (h.2.2 c)⟩
    | inr h => exact Or.inr ⟨h.1, h.2.1, fun c hc => ih c (h.2.2 c hc)⟩
  | atom p t ih =>
    intro s hs
    apply wp_mono (h s hs)
    . intro a s' hs'
      exact ⟨hs'.1, ih a hs'.2⟩
    . intro e s' he
      exact he

theorem AtRoot.mono {Q' : α → Bool → Bool → Nat → Prop} {x : Thread α}
    (h : x.AtRoot solo vfs r w b q k Q) (hQ : ∀ a b' q' k', Q a b' q' k' → Q' a b' q' k')
    : x.AtRoot solo vfs r w b q k Q' := by
  have hret : (x >>= ret).AtRoot solo vfs r w b q k Q' := h.bind hQ
  rw [bind_eq, bind_ret] at hret
  exact hret

theorem AtRoot.access {p : Prog α} {x : α → Prop}
    (hp : ∀ s, RootDir vfs r w s → wp p (fun a s' => s' = s ∧ x a) (fun _ _ => False) s)
    : (access p).AtRoot solo vfs r w b q k fun a b' q' k' => x a ∧ b' = b ∧ q' = q ∧ k' = k := by
  intro s hs
  apply wp_mono (hp s hs)
  . intro a s' hs'
    exact ⟨hs'.1, hs'.2, rfl, rfl, rfl⟩
  . intro e s' he
    exact he.elim

theorem AtRoot.getSt
    : (Thread.access getSt).AtRoot solo vfs r w b q k fun st b' q' k' =>
        RootDir vfs r w st ∧ b' = b ∧ q' = q ∧ k' = k := by
  apply AtRoot.access
  intro s hs
  exact ⟨rfl, hs⟩

theorem AtRoot.getVnode
    : (Thread.access (getVnode w)).AtRoot solo vfs r w b q k fun vn b' q' k' =>
        (vn.type = .VDIR ∧ vn.data = r) ∧ b' = b ∧ q' = q ∧ k' = k := by
  apply AtRoot.access
  intro s hs
  rw [wp_getVnode]
  refine ⟨?_, fun _ => ⟨rfl, hs.type, hs.data⟩⟩
  intro hfreed
  rw [hs.freed] at hfreed
  cases hfreed

theorem AtRoot.deref
    : (Thread.access (Fs.deref r)).AtRoot solo vfs r w b q k fun _ b' q' k' =>
        True ∧ b' = b ∧ q' = q ∧ k' = k := by
  apply AtRoot.access
  intro s hs
  rw [wp_deref]
  refine ⟨?_, fun _ => ⟨rfl, trivial⟩⟩
  intro hfreed
  rw [hs.live] at hfreed
  cases hfreed

theorem AtRoot.acquire (hb : solo = true → b = false)
    : (acquire w).AtRoot solo vfs r w b q k fun _ b' q' k' => b' = true ∧ q' = q ∧ k' = k :=
  Or.inl ⟨rfl, hb, rfl, rfl, rfl⟩

theorem AtRoot.vref (hb : b = false) (hk : k < 3)
    : (vref w).AtRoot solo vfs r w b q k fun _ b' q' k' => b' = false ∧ q' = q ∧ k' = k + 1 := by
  refine Or.inl ⟨rfl, fun _ => hb, rfl, Or.inl ⟨rfl, hk, ?_⟩⟩
  intro c
  exact Or.inl ⟨rfl, rfl, rfl, rfl⟩

theorem AtRoot.vfs_close (hk : 0 < k)
    : (vfs_close w).AtRoot solo vfs r w b q k fun _ b' q' k' =>
        b' = false ∧ q' = q ∧ k' = k - 1 := by
  have hrest : ∀ b, (do
      let vn ← Thread.access (Fs.getVnode w)
      let refcount ← Thread.count w (-1) ret
      if refcount = 0 then do
        ramfs_inactive vn.data
        Thread.access (setVnode w fun vn => { vn with freed := true })
      else release w).AtRoot solo vfs r w b q k fun _ b' q' k' =>
        b' = false ∧ q' = q ∧ k' = k - 1 := by
    intro b
    apply AtRoot.getVnode.bind
    intro vn b1 q1 k1 h1
    rw [h1.2.1, h1.2.2.1, h1.2.2.2]
    refine ⟨rfl, Or.inr ⟨rfl, hk, ?_⟩⟩
    intro c hc
    show (ite _ _ _ : Thread Unit).AtRoot solo vfs r w b q (k - 1) _
    rw [if_neg (by omega)]
    exact Or.inl ⟨rfl, rfl, rfl, rfl⟩
  refine ⟨rfl, ?_⟩
  intro held hheld
  cases held with
  | true => apply hrest
  | false => exact Or.inl ⟨rfl, fun hsolo => (hheld hsolo).symm, hrest true⟩

theorem AtRoot.ramfs_root (hb : b = false) (hq : q = false) (hk : k < 3)
    : (ramfs_root vfs).AtRoot solo vfs r w b q k fun v b' q' k' =>
        v = w ∧ b' = false ∧ q' = false ∧ k' = k + 1 := by
  subst hb hq
  have hvfs : (Thread.access (getVfs vfs)).AtRoot solo vfs r w false false k fun vfs' b' q' k' =>
      vfs'.root = r ∧ b' = false ∧ q' = false ∧ k' = k := by
    apply AtRoot.access
    intro s hs
    exact ⟨rfl, hs.root⟩
  have hnode : (Thread.access (getNode r)).AtRoot solo vfs r w false true k fun node b' q' k' =>
      node.vnode = some w ∧ b' = false ∧ q' = true ∧ k' = k := by
    apply AtRoot.access
    intro s hs
    exact ⟨rfl, hs.vnode⟩
  apply hvfs.bind
  intro vfs' b1 q1 k1 h1
  rw [h1.2.1, h1.2.2.1, h1.2.2.2]
  unfold ramfs_vget
  rw [h1.1]
  apply AtRoot.deref.bind
  intro _ b0 q0 k0 h0
  rw [h0.2.1, h0.2.2.1, h0.2.2.2]
  refine Or.inr (Or.inl ⟨rfl, rfl, fun _ => rfl, ?_⟩)
  apply hnode.bind
  intro node b2 q2 k2 h2
  rw [h2.1, h2.2.1, h2.2.2.1, h2.2.2.2]
  refine Or.inl ⟨rfl, fun _ => rfl, rfl, Or.inl ⟨rfl, hk, ?_⟩⟩
  intro c
  exact Or.inl ⟨rfl, Or.inr ⟨rfl, rfl, rfl, rfl, rfl⟩⟩

open Fs.lookup (Climb Round) in
theorem AtRoot.climb {fuel : Nat} (hb : b = false) (hk : k < 3)
    : (lookup.climb (fuel + 1) w).AtRoot solo vfs r w b q k fun up b' q' k' =>
        up = .root w ∧ b' = false ∧ q' = q ∧ k' = k + 1 := by
  unfold lookup.climb
  apply AtRoot.getSt.bind
  intro st b1 q1 k1 h1
  rw [if_pos h1.1.rootvn, h1.2.1, h1.2.2.1, h1.2.2.2]
  apply (AtRoot.vref hb hk).bind
  intro _ b2 q2 k2 h2
  exact ⟨rfl, h2⟩

def Done (w : Nat) (r : Code × Nameidata) : Prop :=
  ∃ name len, r = (none, ⟨w, some w, name, len, false⟩)

theorem AtRoot.nextname {name : Name} {len : Nat}
    : (lookup.nextname w ⟨w, some w, name, len, false⟩).AtRoot solo vfs r w b q 2 fun round b' q' k' =>
        (b' = false ∧ q' = q) ∧
          ((∃ nd', round = .done none nd' ∧ Done w (none, nd') ∧ name.drop len = [] ∧ k' = 2) ∨
            round = .next w ⟨w, some w, skipSlashes (name.drop len), len, false⟩ ∧ k' = 1) := by
  unfold lookup.nextname
  split
  . next hnext => exact ⟨rfl, ⟨rfl, rfl⟩, Or.inl ⟨_, rfl, ⟨name, len, rfl⟩, hnext, rfl⟩⟩
  . apply (AtRoot.vfs_close (by omega)).bind
    intro _ b1 q1 k1 h1
    rw [h1.1, h1.2.1, h1.2.2]
    exact ⟨rfl, ⟨rfl, rfl⟩, Or.inr ⟨rfl, rfl⟩⟩

theorem AtRoot.component {follow : Bool} {nd : Nameidata} {Q : lookup.Round → Bool → Bool → Nat → Prop}
    (hb : b = false) (hq : q = false)
    : (lookup.component follow w nd).AtRoot true vfs r w b q k Q := by
  subst hb hq
  have hlookup : (ramfs_lookup w nd.vn nd.name nd.len).AtRoot true vfs r w true false k
      fun _ _ _ _ => False := by
    unfold ramfs_lookup
    apply AtRoot.getVnode.bind
    intro vd b1 q1 k1 h1
    rw [h1.1.2, h1.2.1, h1.2.2.1, h1.2.2.2]
    apply AtRoot.deref.bind
    intro _ b2 q2 k2 h2
    exact Or.inr (Or.inr ⟨rfl, h2.2.1, h2.2.2.1, rfl⟩)
  apply (AtRoot.acquire fun _ => rfl).bind
  intro _ b1 q1 k1 h1
  rw [h1.1, h1.2.1, h1.2.2]
  apply AtRoot.bind hlookup
  intro _ _ _ _ h
  exact h.elim

theorem AtRoot.round {follow : Bool} {vn : Option Nat} {name : Name} {len : Nat}
    (hhead : name.head? ≠ some '/') (hname : solo = false → ¬ Descends name)
    : (lookup.round follow w ⟨w, vn, name, len, false⟩).AtRoot solo vfs r w false false 1
        fun round b' q' k' => (b' = false ∧ q' = false) ∧
          ((∃ nd', round = .done none nd' ∧ Done w (none, nd') ∧ ¬ Descends name ∧ k' = 2) ∨
            ∃ vn' name' len', round = .next w ⟨w, vn', name', len', false⟩ ∧
              name'.head? ≠ some '/' ∧ name'.length < name.length ∧
              (Descends name ↔ Descends name') ∧ k' = 1) := by
  unfold lookup.round
  dsimp only
  split
  . next hnil =>
    apply (AtRoot.vref rfl (by omega)).bind
    intro _ b1 q1 k1 h1
    refine ⟨⟨h1.1, h1.2.1⟩, Or.inl ⟨_, rfl, ⟨name, compLen name, rfl⟩, ?_, h1.2.2⟩⟩
    rw [hnil]
    exact not_descends_nil
  . next hne =>
    have hsplit := descends_component hne hhead
    split
    . next hdots =>
      rw [strncmp_dotdot] at hdots
      simp only [hdots, not_true_eq_false, false_or] at hsplit
      apply AtRoot.getSt.bind
      intro st b1 q1 k1 h1
      rw [h1.2.1, h1.2.2.1, h1.2.2.2]
      apply (AtRoot.climb rfl (by omega)).bind
      intro up b2 q2 k2 h2
      rw [h2.1, h2.2.1, h2.2.2.1, h2.2.2.2]
      apply AtRoot.nextname.mono
      intro round b3 q3 k3 h3
      refine ⟨h3.1, ?_⟩
      rcases h3.2 with ⟨nd', heq, hdone, hrest, hk⟩ | ⟨heq, hk⟩
      . refine Or.inl ⟨nd', heq, hdone, ?_, hk⟩
        rw [hsplit, hrest]
        exact not_descends_nil
      . exact Or.inr ⟨_, _, _, heq, head_skipSlashes _, length_next_lt hne hhead, hsplit, hk⟩
    . next hdots =>
      rw [strncmp_dotdot] at hdots
      cases solo with
      | false => exact absurd (hsplit.mpr (Or.inl hdots)) (hname rfl)
      | true => apply AtRoot.component rfl rfl

theorem AtRoot.loop {follow : Bool} {fuel : Nat} {vn : Option Nat} {name : Name} {len : Nat}
    (hhead : name.head? ≠ some '/') (hname : solo = false → ¬ Descends name)
    (hfuel : name.length < fuel)
    : (lookup.loop follow fuel w ⟨w, vn, name, len, false⟩).AtRoot solo vfs r w false false 1
        fun result b' q' k' => (b' = false ∧ q' = false) ∧ Done w result ∧ ¬ Descends name ∧ k' = 2 := by
  induction fuel generalizing vn name len with
  | zero => omega
  | succ fuel ih =>
    unfold lookup.loop
    apply (AtRoot.round hhead hname).bind
    intro round b1 q1 k1 h1
    rcases h1 with ⟨⟨rfl, rfl⟩, ⟨nd', rfl, hdone, hdesc, rfl⟩ | hnext⟩
    . exact ⟨⟨rfl, rfl⟩, hdone, hdesc, rfl⟩
    . rcases hnext with ⟨vn', name', len', rfl, hhead', hlt, hdesc, rfl⟩
      rw [hdesc] at hname ⊢
      apply ih hhead' hname
      omega

theorem AtRoot.namei {path : Name} {fuel : Nat} (hhead : path.head? = some '/')
    (hpath : solo = false → ¬ Descends path)
    : (namei path (fuel + 1)).AtRoot solo vfs r w false false 0 fun result b' q' k' =>
        (b' = false ∧ q' = false) ∧ Done w result ∧ ¬ Descends path ∧ k' = 2 := by
  unfold Thread.namei namei.loop
  have hstart : (namei.start path none).AtRoot solo vfs r w false false 0 fun v b' q' k' =>
      v = w ∧ b' = false ∧ q' = false ∧ k' = 1 := by
    unfold namei.start
    rw [if_pos hhead]
    apply AtRoot.getSt.bind
    intro st b1 q1 k1 h1
    rw [h1.1.rootfs, h1.2.1, h1.2.2.1, h1.2.2.2]
    apply AtRoot.ramfs_root rfl rfl (by omega)
  have hlookup : (Thread.lookup ⟨w, none, skipSlashes path, 0, false⟩).AtRoot solo vfs r w false false 1
      fun result b' q' k' => (b' = false ∧ q' = false) ∧ Done w result ∧ ¬ Descends path ∧ k' = 2 := by
    have hname := descends_skipSlashes path
    apply AtRoot.getSt.bind
    intro st b2 q2 k2 h2
    rw [h2.2.1, h2.2.2.1, h2.2.2.2]
    rw [← hname] at hpath ⊢
    apply AtRoot.loop (head_skipSlashes path) hpath (Nat.lt_succ_self _)
  apply hstart.bind
  intro v b1 q1 k1 h1
  rw [h1.1, h1.2.1, h1.2.2.1, h1.2.2.2]
  apply hlookup.bind
  intro result b2 q2 k2 h2
  rcases h2 with ⟨hb, ⟨name, len, rfl⟩, hdesc, hk⟩
  exact ⟨hb, ⟨name, len, rfl⟩, hdesc, hk⟩

theorem AtRoot.twoPuts {a : α}
    : (do
        Thread.vput w
        Thread.vrele w
        pure a).AtRoot solo vfs r w b q 2 fun _ _ _ _ => True := by
  apply (AtRoot.vfs_close (by omega)).bind
  intro _ b1 q1 k1 h1
  rw [h1.2.2]
  apply (AtRoot.vfs_close (by omega)).bind
  intro _ b2 q2 k2 h2
  trivial

theorem AtRoot.vfs_unlink {path : Name} {fuel : Nat} (hhead : path.head? = some '/')
    (hpath : solo = false → ¬ Descends path)
    : (vfs_unlink path (fuel + 1)).AtRoot solo vfs r w false false 0 fun _ _ _ _ => ¬ Descends path := by
  unfold Thread.vfs_unlink
  apply (AtRoot.namei hhead hpath).bind
  intro result b1 q1 k1 h1
  rcases h1 with ⟨⟨rfl, rfl⟩, ⟨name, len, rfl⟩, hdesc, rfl⟩
  dsimp only
  apply (AtRoot.acquire fun _ => rfl).bind
  intro _ b2 q2 k2 h2
  rw [if_neg (by simp), h2.2.2]
  apply AtRoot.getVnode.bind
  intro v b3 q3 k3 h3
  rw [h3.2.2.2]
  have hputs : ∀ a b q, (do
      Thread.vput w
      Thread.vrele w
      pure a : Thread Code).AtRoot solo vfs r w b q 2 fun _ _ _ _ => ¬ Descends path := by
    intro a b q
    apply AtRoot.twoPuts.mono
    intro _ _ _ _ _
    exact hdesc
  split
  . apply hputs
  . have hremove : (ramfs_remove w w name).AtRoot solo vfs r w b3 q3 2 fun _ _ _ k' => k' = 2 := by
      apply AtRoot.getVnode.bind
      intro vd b4 q4 k4 h4
      rw [h4.2.2.2]
      apply AtRoot.getVnode.bind
      intro vn b5 q5 k5 h5
      rw [if_pos h5.1.1, h5.2.2.2]
      rfl
    apply hremove.bind
    intro error b4 q4 k4 h4
    rw [h4]
    apply hputs

theorem AtRoot.vfs_rmdir {path : Name} {fuel : Nat} (hhead : path.head? = some '/')
    (hpath : solo = false → ¬ Descends path)
    : (vfs_rmdir path (fuel + 1)).AtRoot solo vfs r w false false 0 fun _ _ _ _ => ¬ Descends path := by
  unfold Thread.vfs_rmdir
  apply (AtRoot.namei hhead hpath).bind
  intro result b1 q1 k1 h1
  rcases h1 with ⟨⟨rfl, rfl⟩, ⟨name, len, rfl⟩, hdesc, rfl⟩
  dsimp only
  apply (AtRoot.acquire fun _ => rfl).bind
  intro _ b2 q2 k2 h2
  rw [if_pos rfl, h2.2.2]
  apply AtRoot.twoPuts.mono
  intro _ _ _ _ _
  exact hdesc

theorem AtRoot.walker {x : Walker} {fuel : Nat} (hhead : x.path.head? = some '/')
    (hpath : solo = false → ¬ Descends x.path)
    : (x.thread (fuel + 1)).AtRoot solo vfs r w false false 0 fun _ _ _ _ => ¬ Descends x.path := by
  cases x with
  | walk path =>
    apply (AtRoot.namei hhead hpath).bind
    intro _ _ _ _ h
    exact h.2.2.1
  | vfs_unlink path =>
    apply (AtRoot.vfs_unlink hhead hpath).bind
    intro _ _ _ _ h
    exact h
  | vfs_rmdir path =>
    apply (AtRoot.vfs_rmdir hhead hpath).bind
    intro _ _ _ _ h
    exact h

end Thread

namespace RootDir

variable {vfs r w : Nat} {s : St}

theorem setVnode {v : Nat} {f : Vnode → Vnode} (h : RootDir vfs r w s)
    (hf : ∀ vn, (f vn).data = vn.data ∧ (f vn).freed = vn.freed ∧ (f vn).type = vn.type)
    : wp (Fs.setVnode v f) (fun _ s' => RootDir vfs r w s') (fun _ _ => True) s := by
  rw [wp_setVnode]
  have hw : ∀ s', s' = Function.update s.vnodes v (f (s.vnodes v)) w →
      s'.data = r ∧ s'.freed = false ∧ s'.type = .VDIR := by
    intro s' hs'
    by_cases hv : w = v
    . rw [hs', hv, Function.update_self, (hf _).1, (hf _).2.1, (hf _).2.2, ← hv]
      exact ⟨h.data, h.freed, h.type⟩
    . rw [hs', Function.update_of_ne hv]
      exact ⟨h.data, h.freed, h.type⟩
  constructor
  case rootfs => exact h.rootfs
  case root => exact h.root
  case live => exact h.live
  case vnode => exact h.vnode
  case rootvn => exact h.rootvn
  case data => exact (hw _ rfl).1
  case freed => exact (hw _ rfl).2.1
  case type => exact (hw _ rfl).2.2

theorem setNode {n : Nat} {f : RamNode → RamNode} (h : RootDir vfs r w s)
    (hf : ∀ node, (f node).vnode = node.vnode ∧ (f node).freed = node.freed)
    : wp (Fs.setNode n f) (fun _ s' => RootDir vfs r w s') (fun _ _ => True) s := by
  rw [wp_setNode]
  constructor
  case vnode =>
    dsimp only
    by_cases hn : r = n
    . rw [← hn, Function.update_self, (hf _).1]
      exact h.vnode
    . rw [Function.update_of_ne hn]
      exact h.vnode
  case live =>
    dsimp only
    by_cases hn : r = n
    . rw [← hn, Function.update_self, (hf _).2]
      exact h.live
    . rw [Function.update_of_ne hn]
      exact h.live
  case rootfs => exact h.rootfs
  case root => exact h.root
  case rootvn => exact h.rootvn
  case data => exact h.data
  case freed => exact h.freed
  case type => exact h.type

theorem acquire (l : Lock) (h : RootDir vfs r w s)
    : wp l.acquire (fun _ s' => RootDir vfs r w s') (fun _ _ => True) s := by
  cases l with
  | vnode v =>
    unfold Lock.acquire Fs.acquire
    rw [wp_bind, wp_getVnode]
    refine ⟨fun _ => trivial, ?_⟩
    intro _
    split
    . trivial
    . apply h.setVnode
      intro vn
      exact ⟨rfl, rfl, rfl⟩
  | ram n =>
    unfold Lock.acquire Fs.acquireNode
    rw [wp_bind, wp_getNode]
    split
    . trivial
    . apply h.setNode
      intro node
      exact ⟨rfl, rfl⟩

theorem release (l : Lock) (h : RootDir vfs r w s)
    : wp l.release (fun _ s' => RootDir vfs r w s') (fun _ _ => True) s := by
  cases l with
  | vnode v =>
    unfold Lock.release Fs.release
    rw [wp_bind, wp_getVnode]
    refine ⟨fun _ => trivial, ?_⟩
    intro _
    apply h.setVnode
    intro vn
    exact ⟨rfl, rfl, rfl⟩
  | ram n =>
    unfold Lock.release Fs.releaseNode
    apply h.setNode
    intro node
    exact ⟨rfl, rfl⟩

theorem addRefs {d : Int} (h : RootDir vfs r w s)
    : wp (addRefs w d) (fun c s' => RootDir vfs r w s' ∧ c = (s.vnodes w).refcount + d ∧
        (s'.vnodes w).refcount = (s.vnodes w).refcount + d ∧
        (s'.vnodes w).lock = (s.vnodes w).lock ∧ s'.nodes = s.nodes)
        (fun _ _ => d = 1 ∧ (s.vnodes w).refcount = 2 ^ 31 - 1) s := by
  unfold Fs.addRefs
  rw [wp_bind, wp_getVnode]
  constructor
  . intro hfreed
    rw [h.freed] at hfreed
    cases hfreed
  . intro _
    split
    . next hmax => exact hmax
    . rw [wp_bind, wp_setVnode, wp_pure]
      have hkeep : wp (Fs.setVnode w fun vn => { vn with refcount := vn.refcount + d })
          (fun _ s' => RootDir vfs r w s') (fun _ _ => True) s := by
        apply h.setVnode
        intro vn
        exact ⟨rfl, rfl, rfl⟩
      refine ⟨hkeep, rfl, ?_, ?_, rfl⟩
      . simp
      . simp

end RootDir

namespace Machine

variable {vfs r w : Nat} {m : Machine Bool} {c : Bool}

/--
Both CPUs stay at the root directory. `k c` counts the references of the CPU `c` to `w`, to which there is
one more.
-/
structure AtRoot (vfs r w : Nat) (k : Bool → Nat) (m : Machine Bool) : Prop where
  root : RootDir vfs r w m.st
  refs : 1 + (k false : Int) + k true ≤ (m.st.vnodes w).refcount
  thread : ∀ c, ∃ q, (m.thread c).AtRoot false vfs r w (m.holds c (.vnode w)) q (k c) fun _ _ _ _ => True
  owner : ∀ c l, m.owner l = some c → m.holds c l = true

namespace AtRoot

variable {k : Bool → Nat}

theorem put (h : AtRoot vfs r w k m) {st : St} {t : Thread Unit} {n : Nat} {q : Bool}
    (hroot : RootDir vfs r w st)
    (hrefs : (st.vnodes w).refcount = (m.st.vnodes w).refcount + n - k c)
    (ht : t.AtRoot false vfs r w (m.holds c (.vnode w)) q n fun _ _ _ _ => True)
    : AtRoot vfs r w (Function.update k c n) { m.put c t with st } := by
  constructor
  case root => exact hroot
  case refs =>
    have := h.refs
    dsimp only
    rw [hrefs]
    cases c with
    | false =>
      rw [Function.update_self, Function.update_of_ne (by decide)]
      omega
    | true =>
      rw [Function.update_self, Function.update_of_ne (by decide)]
      omega
  case thread =>
    intro c'
    by_cases hc : c' = c
    . subst hc
      dsimp only
      rw [put_thread_self, Function.update_self]
      exact ⟨q, ht⟩
    . dsimp only
      rw [put_thread_of_ne hc, Function.update_of_ne hc]
      apply h.thread c'
  case owner => exact h.owner

theorem keep (h : AtRoot vfs r w k m) {st : St} {t : Thread Unit} {q : Bool}
    (hroot : RootDir vfs r w st) (hrefs : (st.vnodes w).refcount = (m.st.vnodes w).refcount)
    (ht : t.AtRoot false vfs r w (m.holds c (.vnode w)) q (k c) fun _ _ _ _ => True)
    : AtRoot vfs r w k { m.put c t with st } := by
  have hput := h.put (n := k c) hroot (by omega) ht
  rw [Function.update_eq_self] at hput
  exact hput

theorem stop (h : AtRoot vfs r w k m) (e : Stop) : AtRoot vfs r w k (m.put c (.stop e)) := by
  apply h.keep (q := false) h.root rfl
  rfl

theorem set_holds (h : AtRoot vfs r w k m) {st : St} {t : Thread Unit} {l : Lock} {b q : Bool}
    (hroot : RootDir vfs r w st) (hrefs : (st.vnodes w).refcount = (m.st.vnodes w).refcount)
    (ht : t.AtRoot false vfs r w (if l = .vnode w then b else m.holds c (.vnode w)) q (k c)
      fun _ _ _ _ => True)
    : AtRoot vfs r w k
        { m.put c t with
          st
          holds := m.setHolds c l b
          owner := Function.update m.owner l (if b then some c else none) } := by
  constructor
  case root => exact hroot
  case refs =>
    dsimp only
    rw [hrefs]
    exact h.refs
  case thread =>
    intro c'
    by_cases hc : c' = c
    . subst hc
      refine ⟨q, ?_⟩
      dsimp only
      rw [put_thread_self]
      by_cases hl : l = .vnode w
      . rw [if_pos hl] at ht
        rw [hl, setHolds_self]
        exact ht
      . rw [if_neg hl] at ht
        rw [setHolds_of_ne (Or.inr (Ne.symm hl))]
        exact ht
    . dsimp only
      rw [put_thread_of_ne hc, setHolds_of_ne (Or.inl hc)]
      apply h.thread c'
  case owner =>
    intro c' l' howner
    dsimp only at howner ⊢
    by_cases hl : l' = l
    . subst hl
      rw [Function.update_self] at howner
      cases b with
      | false => cases howner
      | true =>
        simp only [if_true, Option.some.injEq] at howner
        rw [← howner, setHolds_self]
    . rw [Function.update_of_ne hl] at howner
      rw [setHolds_of_ne (Or.inr hl)]
      apply h.owner c' l' howner

theorem lock (h : AtRoot vfs r w k m) {l : Lock} {t : Thread Unit} {q : Bool}
    (ht : t.AtRoot false vfs r w (if l = .vnode w then true else m.holds c (.vnode w)) q (k c)
      fun _ _ _ _ => True)
    : AtRoot vfs r w k (m.lock c l t) := by
  rcases lock_cases m c l t with ⟨st, hrun, heq⟩ | heq | ⟨e, heq⟩
  . rw [heq]
    have hroot := (wp_of_ok hrun).mp (h.root.acquire l)
    have hrefs := ((wp_of_ok hrun).mp (l.wp_acquire (v := w) m.st)).2.1
    apply h.set_holds (b := true) hroot hrefs ht
  . rw [heq]
    exact h
  . rw [heq]
    apply h.stop

theorem unlock (h : AtRoot vfs r w k m) {l : Lock} {t : Thread Unit} {q : Bool}
    (ht : t.AtRoot false vfs r w (if l = .vnode w then false else m.holds c (.vnode w)) q (k c)
      fun _ _ _ _ => True)
    : AtRoot vfs r w k (m.unlock c l t) := by
  rcases unlock_cases m c l t with ⟨st, hrun, heq⟩ | heq | ⟨e, heq⟩
  . rw [heq]
    have hroot := (wp_of_ok hrun).mp (h.root.release l)
    have hrefs := ((wp_of_ok hrun).mp (l.wp_release (v := w) m.st)).2.1
    apply h.set_holds (b := false) hroot hrefs ht
  . rw [heq]
    exact h
  . rw [heq]
    apply h.stop

theorem exec (h : AtRoot vfs r w k m) {β : Type} {p : Prog β} {t : β → Thread Unit} {q : Bool}
    (hp : wp p (fun a s' => s' = m.st ∧ (t a).AtRoot false vfs r w (m.holds c (.vnode w)) q (k c)
      fun _ _ _ _ => True) (fun _ _ => True) m.st)
    : AtRoot vfs r w k (m.exec c p t) := by
  rcases exec_cases m c p t with ⟨a, st, hrun, heq⟩ | heq | ⟨e, heq⟩
  . rw [heq]
    rcases (wp_of_ok hrun).mp hp with ⟨hst, ht⟩
    rw [hst]
    apply h.keep h.root rfl ht
  . rw [heq]
    exact h
  . rw [heq]
    apply h.stop

theorem count (h : AtRoot vfs r w k m) {d : Int} {t : Int → Thread Unit} {q : Bool}
    (ht : (d = 1 ∧ ∀ a, (t a).AtRoot false vfs r w (m.holds c (.vnode w)) q (k c + 1)
        fun _ _ _ _ => True) ∨
      (d = -1 ∧ 0 < k c ∧ ∀ a, 0 < a → (t a).AtRoot false vfs r w (m.holds c (.vnode w)) q (k c - 1)
        fun _ _ _ _ => True))
    : ∃ k', AtRoot vfs r w k' (m.exec c (addRefs w d) t) := by
  rcases exec_cases m c (addRefs w d) t with ⟨a, st, hrun, heq⟩ | heq | ⟨e, heq⟩
  . rw [heq]
    rcases (wp_of_ok hrun).mp (h.root.addRefs (d := d)) with ⟨hroot, ha, hrefs, _, _⟩
    rcases ht with ⟨hd, ht⟩ | ⟨hd, hpos, ht⟩
    . refine ⟨_, h.put hroot ?_ (ht a)⟩
      omega
    . refine ⟨_, h.put hroot ?_ (ht a ?_)⟩
      . omega
      . have := h.refs
        cases c with
        | false => omega
        | true => omega
  . rw [heq]
    exact ⟨k, h⟩
  . rw [heq]
    exact ⟨k, h.stop e⟩

theorem step (h : AtRoot vfs r w k m) : ∃ k', AtRoot vfs r w k' (m.step c) := by
  rcases h.thread c with ⟨q, ht⟩
  unfold Machine.step
  cases hthread : m.thread c with
  | ret a => exact ⟨k, h⟩
  | stop e => exact ⟨k, h⟩
  | lock l t =>
    rw [hthread] at ht
    rcases ht with ⟨hl, _, ht⟩ | ⟨hl, _, _, ht⟩ | ⟨_, _, _, hsolo⟩
    . refine ⟨k, h.lock (q := q) ?_⟩
      rw [if_pos hl]
      exact ht
    . refine ⟨k, h.lock (q := true) ?_⟩
      rw [if_neg (by simp [hl])]
      exact ht
    . cases hsolo
  | unlock l t =>
    rw [hthread] at ht
    rcases ht with ⟨hl, ht⟩ | ⟨hl, ht⟩
    . refine ⟨k, h.unlock (q := q) ?_⟩
      rw [if_pos hl]
      exact ht
    . refine ⟨k, h.unlock (q := false) ?_⟩
      rw [if_neg (by simp [hl])]
      exact ht
  | nextname v t =>
    rw [hthread] at ht
    refine ⟨k, h.unlock (q := q) ?_⟩
    rw [if_pos (by rw [ht.1])]
    exact ht.2
  | trylock v t =>
    rw [hthread] at ht
    refine ⟨k, h.exec (q := q) ?_⟩
    rw [wp_getVnode]
    refine ⟨fun _ => trivial, ?_⟩
    intro _
    exact ⟨rfl, ht.2 _ (fun hsolo => by cases hsolo)⟩
  | count v d t =>
    rw [hthread] at ht
    rcases ht with ⟨rfl, ht⟩
    apply h.count (q := q)
    rcases ht with ⟨hd, _, ht⟩ | ht
    . exact Or.inl ⟨hd, ht⟩
    . exact Or.inr ht
  | atom p t =>
    rw [hthread] at ht
    refine ⟨k, h.exec (q := q) ?_⟩
    apply wp_mono (ht m.st h.root)
    . intro a s' hs'
      exact hs'
    . intro e s' _
      trivial

theorem reached (h : AtRoot vfs r w k m) {m' : Machine Bool} (hm : Reached Any m m')
    : ∃ k', AtRoot vfs r w k' m' := by
  induction hm with
  | refl => exact ⟨k, h⟩
  | step c hm hcond ih =>
    rcases ih with ⟨k', ih⟩
    apply ih.step

theorem waits (h : AtRoot vfs r w k m) {l : Lock} (hwaits : m.Waits c l)
    : l = .vnode w ∨ l = .ram r ∧ m.owner (.vnode w) ≠ some c := by
  rcases hwaits with ⟨t, hthread, _⟩
  rcases h.thread c with ⟨q, ht⟩
  rw [hthread] at ht
  rcases ht with ⟨hl, _⟩ | ⟨hl, hb, _⟩ | ⟨_, _, _, hsolo⟩
  . exact Or.inl hl
  . refine Or.inr ⟨hl, ?_⟩
    intro howner
    rw [h.owner c _ howner] at hb
    cases hb
  . cases hsolo

theorem not_deadlocked (h : AtRoot vfs r w k m) : ¬ m.Deadlocked := by
  rintro ⟨c, c', l, l', hne, hwaits, howner, hwaits', howner'⟩
  have hl : l ≠ l' := by
    intro hl
    rw [hl, howner', Option.some.injEq] at howner
    exact hne howner
  rcases h.waits hwaits with rfl | ⟨rfl, hram⟩
  . rcases h.waits hwaits' with rfl | ⟨rfl, hram'⟩
    . exact hl rfl
    . exact hram' howner
  . rcases h.waits hwaits' with rfl | ⟨rfl, hram'⟩
    . exact hram howner'
    . exact hl rfl

end AtRoot

end Machine

/--
The locks of `w` and `r` are as `b` and `q` tell. `k` of the references to `w` are to be given back, and
there is room for three in all.
-/
structure RootDir.Alone (vfs r w : Nat) (b q : Bool) (k : Nat) (s : St) : Prop where
  root : RootDir vfs r w s
  lock : (s.vnodes w).lock = b
  ramlock : (s.nodes r).ramlock = q
  refs : (k : Int) < (s.vnodes w).refcount
  max : (s.vnodes w).refcount + 3 < 2 ^ 31 - 1 + k

namespace RootDir.Alone

variable {vfs r w : Nat} {b q : Bool} {k : Nat} {s : St} {E : Stop → St → Prop}

theorem getVnode (h : Alone vfs r w b q k s) {Q : Vnode → St → Prop} (hQ : Q (s.vnodes w) s)
    : wp (Fs.getVnode w) Q E s := by
  rw [wp_getVnode]
  refine ⟨?_, fun _ => hQ⟩
  intro hfreed
  rw [h.root.freed] at hfreed
  cases hfreed

theorem setVnode {f : Vnode → Vnode} {b' : Bool} {k' : Nat} (h : Alone vfs r w b q k s)
    (hf : ∀ vn, (f vn).data = vn.data ∧ (f vn).freed = vn.freed ∧ (f vn).type = vn.type)
    (hb : (f (s.vnodes w)).lock = b') (hk : (f (s.vnodes w)).refcount = (s.vnodes w).refcount + k' - k)
    : wp (Fs.setVnode w f) (fun _ s' => Alone vfs r w b' q k' s') E s := by
  have hroot : wp (Fs.setVnode w f) (fun _ s' => RootDir vfs r w s') (fun _ _ => True) s :=
    h.root.setVnode hf
  rw [wp_setVnode] at hroot ⊢
  refine ⟨hroot, ?_, h.ramlock, ?_, ?_⟩
  . dsimp only
    rw [Function.update_self, hb]
  . have := h.refs
    dsimp only
    rw [Function.update_self, hk]
    omega
  . have := h.max
    dsimp only
    rw [Function.update_self, hk]
    omega

theorem setNode {f : RamNode → RamNode} {q' : Bool} (h : Alone vfs r w b q k s)
    (hf : ∀ node, (f node).vnode = node.vnode ∧ (f node).freed = node.freed) (hq : (f (s.nodes r)).ramlock = q')
    : wp (Fs.setNode r f) (fun _ s' => Alone vfs r w b q' k s') E s := by
  have hroot : wp (Fs.setNode r f) (fun _ s' => RootDir vfs r w s') (fun _ _ => True) s :=
    h.root.setNode hf
  rw [wp_setNode] at hroot ⊢
  refine ⟨hroot, h.lock, ?_, h.refs, h.max⟩
  dsimp only
  rw [Function.update_self, hq]

theorem acquire_vnode (h : Alone vfs r w false q k s)
    : wp (Lock.vnode w).acquire (fun _ s' => Alone vfs r w true q k s') E s := by
  unfold Lock.acquire Fs.acquire
  rw [wp_bind]
  apply h.getVnode
  rw [h.lock, if_neg (by decide)]
  apply h.setVnode
  . intro vn
    exact ⟨rfl, rfl, rfl⟩
  . rfl
  . dsimp only
    omega

theorem acquire_ram (h : Alone vfs r w b false k s)
    : wp (Lock.ram r).acquire (fun _ s' => Alone vfs r w b true k s') E s := by
  unfold Lock.acquire Fs.acquireNode
  rw [wp_bind, wp_getNode, h.ramlock, if_neg (by decide)]
  apply h.setNode
  . intro node
    exact ⟨rfl, rfl⟩
  . rfl

theorem getVnode_eq (h : Alone vfs r w b q k s) : Fs.getVnode w s = .ok (s.vnodes w) s := by
  unfold Fs.getVnode
  rw [if_neg (by simp [h.root.freed])]

theorem hang_vnode (h : Alone vfs r w true q k s) : (Lock.vnode w).acquire s = .error .hang s := by
  show Fs.acquire w s = .error .hang s
  unfold Fs.acquire
  rw [bind_of_ok h.getVnode_eq, h.lock, if_pos rfl]
  rfl

theorem hang_ram (h : Alone vfs r w b true k s) : (Lock.ram r).acquire s = .error .hang s := by
  have hget : getNode r s = .ok (s.nodes r) s := rfl
  show Fs.acquireNode r s = .error .hang s
  unfold Fs.acquireNode
  rw [bind_of_ok hget, h.ramlock, if_pos rfl]
  rfl

theorem release_vnode (h : Alone vfs r w b q k s)
    : wp (Lock.vnode w).release (fun _ s' => Alone vfs r w false q k s') E s := by
  unfold Lock.release Fs.release
  rw [wp_bind]
  apply h.getVnode
  apply h.setVnode
  . intro vn
    exact ⟨rfl, rfl, rfl⟩
  . rfl
  . dsimp only
    omega

theorem release_ram (h : Alone vfs r w b q k s)
    : wp (Lock.ram r).release (fun _ s' => Alone vfs r w b false k s') E s := by
  unfold Lock.release Fs.releaseNode
  apply h.setNode
  . intro node
    exact ⟨rfl, rfl⟩
  . rfl

theorem addRefs {d : Int} {k' : Nat} (h : Alone vfs r w b q k s) (hd : d = k' - k) (hk : k < 3 ∨ d ≠ 1)
    : wp (Fs.addRefs w d) (fun c s' => (k' : Int) < c ∧ Alone vfs r w b q k' s') E s := by
  have hmax := h.max
  have hrefs := h.refs
  unfold Fs.addRefs
  rw [wp_bind]
  apply h.getVnode
  rw [if_neg (by omega), wp_bind]
  have hset : wp (Fs.setVnode w fun vn => { vn with refcount := vn.refcount + d })
      (fun _ s' => Alone vfs r w b q k' s') E s := by
    apply h.setVnode
    . intro vn
      exact ⟨rfl, rfl, rfl⟩
    . exact h.lock
    . dsimp only
      omega
  apply wp_mono hset
  . intro _ s' hs'
    rw [wp_pure]
    refine ⟨by omega, hs'⟩
  . intro e s' he
    exact he

end RootDir.Alone

namespace Machine

variable {vfs r w : Nat} {m : Machine Bool} {c b q : Bool} {k : Nat}

structure Blocked (vfs r w : Nat) (c : Bool) (m : Machine Bool) : Prop where
  thread : ∃ t, m.thread c = .lock (.ram r) t
  alone : ∃ k, RootDir.Alone vfs r w true false k m.st
  owner : m.owner (.vnode w) = some c

def Blocks (vfs r w : Nat) (c : Bool) (m : Machine Bool) : Prop :=
  ∃ m', Reached Any m m' ∧ Blocked vfs r w c m' ∧ m'.thread (!c) = m.thread (!c)

theorem Blocks.head (h : Blocks vfs r w c (m.step c)) : Blocks vfs r w c m := by
  rcases h with ⟨m', hreached, hblocked, hother⟩
  refine ⟨m', hreached.head trivial, hblocked, ?_⟩
  rw [hother, step_thread_of_ne (by cases c <;> decide)]

theorem blocks {x : Thread Unit} (hx : m.thread c = x)
    (h : x.AtRoot true vfs r w b q k fun _ _ _ _ => False) (halone : RootDir.Alone vfs r w b q k m.st)
    (howner : b = true → m.owner (.vnode w) = some c) : Blocks vfs r w c m := by
  induction x generalizing m b q k with
  | ret a => exact h.elim
  | stop e => cases h
  | lock l t ih =>
    rcases h with ⟨rfl, hb, h⟩ | ⟨rfl, rfl, hq, h⟩ | ⟨rfl, rfl, rfl, _⟩
    . rw [hb rfl] at halone
      rcases ok_of_wp halone.acquire_vnode with ⟨_, st, hrun, hst⟩
      apply Blocks.head
      rw [step_lock hx hrun]
      refine ih (put_thread_self t) h hst ?_
      intro _
      apply Function.update_self
    . rw [hq rfl] at halone
      rcases ok_of_wp halone.acquire_ram with ⟨_, st, hrun, hst⟩
      apply Blocks.head
      rw [step_lock hx hrun]
      refine ih (put_thread_self t) h hst ?_
      intro hb
      cases hb
    . exact ⟨m, Reached.refl, ⟨⟨t, hx⟩, ⟨k, halone⟩, howner rfl⟩, rfl⟩
  | unlock l t ih =>
    rcases h with ⟨rfl, h⟩ | ⟨rfl, h⟩
    . rcases ok_of_wp halone.release_vnode with ⟨_, st, hrun, hst⟩
      apply Blocks.head
      rw [step_unlock (Or.inl hx) hrun]
      refine ih (put_thread_self t) h hst ?_
      intro hb
      cases hb
    . rcases ok_of_wp halone.release_ram with ⟨_, st, hrun, hst⟩
      apply Blocks.head
      rw [step_unlock (Or.inl hx) hrun]
      refine ih (put_thread_self t) h hst ?_
      intro hb
      dsimp only
      rw [Function.update_of_ne (by simp)]
      apply howner hb
  | nextname v t ih =>
    rcases h with ⟨rfl, h⟩
    rcases ok_of_wp halone.release_vnode with ⟨_, st, hrun, hst⟩
    apply Blocks.head
    rw [step_unlock (Or.inr ⟨v, rfl, hx⟩) hrun]
    refine ih (put_thread_self t) h hst ?_
    intro hb
    cases hb
  | trylock v t ih =>
    rcases h with ⟨rfl, h⟩
    apply Blocks.head
    unfold step
    rw [hx]
    dsimp only
    rw [exec_of_ok halone.getVnode_eq]
    exact ih _ (put_thread_self _) (h _ fun _ => halone.lock) halone howner
  | count v d t ih =>
    rcases h with ⟨rfl, h⟩
    have hrun : ∃ a s' k', addRefs v d m.st = .ok a s' ∧ RootDir.Alone vfs r v b q k' s' ∧
        (t a).AtRoot true vfs r v b q k' fun _ _ _ _ => False := by
      rcases h with ⟨rfl, hk, h⟩ | ⟨rfl, hk, h⟩
      . have hadd : wp (addRefs v 1) (fun a s' => ((k + 1 : Nat) : Int) < a ∧
            RootDir.Alone vfs r v b q (k + 1) s') (fun _ _ => False) m.st := by
          apply halone.addRefs
          . omega
          . exact Or.inl hk
        rcases ok_of_wp hadd with ⟨a, s', hrun, _, hs'⟩
        exact ⟨a, s', k + 1, hrun, hs', h a⟩
      . have hadd : wp (addRefs v (-1)) (fun a s' => ((k - 1 : Nat) : Int) < a ∧
            RootDir.Alone vfs r v b q (k - 1) s') (fun _ _ => False) m.st := by
          apply halone.addRefs
          . omega
          . exact Or.inr (by decide)
        rcases ok_of_wp hadd with ⟨a, s', hrun, ha, hs'⟩
        exact ⟨a, s', k - 1, hrun, hs', h a (by omega)⟩
    rcases hrun with ⟨a, s', k', hrun, hs', h⟩
    apply Blocks.head
    unfold step
    rw [hx]
    dsimp only
    rw [exec_of_ok hrun]
    exact ih _ (put_thread_self _) h hs' howner
  | atom p t ih =>
    have hp : wp p (fun a s' => s' = m.st ∧ (t a).AtRoot true vfs r w b q k fun _ _ _ _ => False)
        (fun _ _ => False) m.st := by
      apply wp_mono (h m.st halone.root)
      . intro a s' hs'
        exact hs'
      . intro e s' he
        cases he
    rcases ok_of_wp hp with ⟨a, s', hrun, rfl, h⟩
    apply Blocks.head
    rw [step_atom hx hrun]
    exact ih _ (put_thread_self _) h halone howner

end Machine

def Thread.fromRoot (st : St) : Thread Nat :=
  match st.rootfs with
  | none => fail .fault
  | some vfs => ramfs_root vfs

theorem Thread.namei_eq {path : Name} (fuel : Nat) (hhead : path.head? = some '/')
    : ∃ f, Thread.namei path (fuel + 1) = .atom getSt fun st => (fromRoot st).bind f := by
  unfold Thread.namei namei.loop namei.start
  rw [if_pos hhead]
  exact ⟨_, rfl⟩

theorem Thread.fromRoot_eq {β : Type} {st : St} {vfs : Nat} (h : st.rootfs = some vfs)
    (f : Nat → Thread β)
    : (fromRoot st).bind f = .atom (getVfs vfs) fun vfs' => (ramfs_vget vfs vfs'.root).bind f := by
  unfold fromRoot
  rw [h]
  rfl

theorem Thread.ramfs_vget_eq {β : Type} (vfs n : Nat) (f : Nat → Thread β)
    : ∃ g, (ramfs_vget vfs n).bind f = .atom (deref n) (fun _ => .lock (.ram n) (.atom (getNode n) g)) ∧
        ∀ node v, node.vnode = some v → ∃ t, g node = .lock (.vnode v) t := by
  refine ⟨_, rfl, ?_⟩
  intro node v hv
  dsimp only [Thread.bind]
  rw [hv]
  exact ⟨_, rfl⟩

theorem Walker.thread_eq {x : Walker} (fuel : Nat) (hhead : x.path.head? = some '/')
    : ∃ f, x.thread (fuel + 1) = .atom getSt fun st => (Thread.fromRoot st).bind f := by
  have hbind : ∃ g, x.thread (fuel + 1) = (Thread.namei x.path (fuel + 1)).bind g := by
    cases x with
    | walk path => exact ⟨_, rfl⟩
    | vfs_unlink path => exact ⟨_, Thread.bind_bind _ _ _⟩
    | vfs_rmdir path => exact ⟨_, Thread.bind_bind _ _ _⟩
  rcases hbind with ⟨g, hg⟩
  rcases Thread.namei_eq fuel hhead with ⟨f, hf⟩
  refine ⟨fun v => (f v).bind g, ?_⟩
  rw [hg, hf]
  simp only [Thread.bind, Thread.bind_bind]

namespace Machine

variable {vfs r w : Nat} {m : Machine Bool} {c : Bool} {k : Nat}

theorem Blocked.put (h : Blocked vfs r w c m) (t : Thread Unit) : Blocked vfs r w c (m.put (!c) t) := by
  refine ⟨?_, h.alone, h.owner⟩
  rw [put_thread_of_ne (by cases c <;> decide)]
  exact h.thread

theorem Blocked.vget (h : Blocked vfs r w c m) {f : Nat → Thread Unit}
    (hother : m.thread (!c) = (Thread.ramfs_vget vfs r).bind f)
    : ∃ m', Reached Any m m' ∧ m'.Deadlocked := by
  have hne : c ≠ !c := by
    cases c <;> decide
  rcases h.thread with ⟨t, hthread⟩
  rcases h.alone with ⟨k, halone⟩
  rcases Thread.ramfs_vget_eq vfs r f with ⟨g, hg, hlast⟩
  rcases ok_of_wp (halone.acquire_ram (E := fun _ _ => False)) with ⟨_, st, hrun, hst⟩
  rcases hlast (st.nodes r) w hst.root.vnode with ⟨t', ht'⟩
  -- it takes the lock of `r` and waits for the one of `w`
  have hlive : deref r m.st = .ok () m.st := by
    have hderef := (wp_deref (n := r) (Q := fun _ s' => s' = m.st) (E := fun _ _ => False)).mpr
      ⟨by simp [halone.root.live], fun _ => rfl⟩
    rcases ok_of_wp hderef with ⟨_, s', hrun', rfl⟩
    exact hrun'
  have hderef := step_atom (hother.trans hg) hlive
  have hlock := step_lock (c := !c) (m := m.step (!c)) (by rw [hderef]; exact put_thread_self _)
    (by rw [hderef]; exact hrun)
  have hgetNode : ((m.step (!c)).step (!c)).step (!c) =
      ((m.step (!c)).step (!c)).put (!c) (.lock (.vnode w) t') := by
    rw [hlock, ← ht']
    exact step_atom (put_thread_self _) rfl
  have hst' : (((m.step (!c)).step (!c)).step (!c)).st = st := by
    rw [hgetNode, hlock]
    rfl
  have howner : (((m.step (!c)).step (!c)).step (!c)).owner = Function.update m.owner (.ram r) (some !c) := by
    rw [hgetNode, hlock, hderef]
    rfl
  refine ⟨((m.step (!c)).step (!c)).step (!c), ?_, c, !c, .ram r, .vnode w, hne, ?_, ?_, ?_, ?_⟩
  . apply Reached.step (!c) _ trivial
    apply Reached.step (!c) _ trivial
    apply Reached.step (!c) Reached.refl trivial
  . refine ⟨t, ?_, ?_⟩
    . rw [step_thread_of_ne hne, step_thread_of_ne hne, step_thread_of_ne hne, hthread]
    . rw [hst']
      apply hst.hang_ram
  . rw [howner, Function.update_self]
  . refine ⟨t', ?_, ?_⟩
    . rw [hgetNode, put_thread_self]
    . rw [hst']
      apply hst.hang_vnode
  . rw [howner, Function.update_of_ne (by simp)]
    exact h.owner

theorem Blocked.deadlocks (h : Blocked vfs r w c m) {x : Walker} {fuel : Nat}
    (hhead : x.path.head? = some '/') (hother : m.thread (!c) = x.thread (fuel + 1))
    : ∃ m', Reached Any m m' ∧ m'.Deadlocked := by
  rcases h.alone with ⟨k, halone⟩
  rcases Walker.thread_eq fuel hhead with ⟨f, hf⟩
  have hgetSt : m.step (!c) = m.put (!c) ((Thread.fromRoot m.st).bind f) :=
    step_atom (hother.trans hf) rfl
  rw [Thread.fromRoot_eq halone.root.rootfs] at hgetSt
  have hgetVfs : (m.step (!c)).step (!c) =
      (m.step (!c)).put (!c) ((Thread.ramfs_vget vfs r).bind f) := by
    rw [hgetSt, ← halone.root.root]
    exact step_atom (put_thread_self _) rfl
  have hvget : ∃ m', Reached Any ((m.step (!c)).step (!c)) m' ∧ m'.Deadlocked := by
    rw [hgetVfs, hgetSt]
    apply ((h.put _).put _).vget (put_thread_self _)
  rcases hvget with ⟨m', hreached, hdead⟩
  exact ⟨m', (hreached.head trivial).head trivial, hdead⟩

end Machine

/--
The root directory of the root file system is in use as `rootvn`, and nothing is locked there.
-/
def Rooted (st : St) : Prop :=
  ∃ vfs r w, RootDir.Alone vfs r w false false 0 st

section

variable {st : St} {fuel : Nat} {call : Bool → Walker}

variable (fuel) in
theorem Rooted.deadlocks (hst : Rooted st) (hhead : ∀ c, (call c).path.head? = some '/') {c : Bool}
    (hdesc : Descends (call c).path)
    : ∃ m, Machine.Reached Machine.Any (.start st fun c => (call c).thread (fuel + 1)) m ∧
        m.Deadlocked := by
  rcases hst with ⟨vfs, r, w, hst⟩
  have hwalk : ((call c).thread (fuel + 1)).AtRoot true vfs r w false false 0 fun _ _ _ _ => False := by
    apply (Thread.AtRoot.walker (hhead c) (by simp)).mono
    intro _ _ _ _ hnot
    exact hnot hdesc
  have hblocks : Machine.Blocks vfs r w c (.start st fun c => (call c).thread (fuel + 1)) := by
    apply Machine.blocks rfl hwalk hst
    intro hb
    cases hb
  rcases hblocks with ⟨m, hreached, hblocked, hother⟩
  rcases hblocked.deadlocks (hhead _) hother with ⟨m', hreached', hdead⟩
  exact ⟨m', hreached.trans hreached', hdead⟩

variable (fuel) in
theorem Rooted.atRoot (hst : Rooted st) (hhead : ∀ c, (call c).path.head? = some '/')
    (hdesc : ∀ c, ¬ Descends (call c).path)
    : ∃ vfs r w, Machine.AtRoot vfs r w (fun _ => 0) (.start st fun c => (call c).thread (fuel + 1)) := by
  rcases hst with ⟨vfs, r, w, hst⟩
  refine ⟨vfs, r, w, ?_⟩
  constructor
  case root => exact hst.root
  case refs =>
    have := hst.refs
    show 1 + ((0 : Nat) : Int) + ((0 : Nat) : Int) ≤ (st.vnodes w).refcount
    omega
  case thread =>
    intro c
    refine ⟨false, ?_⟩
    apply (Thread.AtRoot.walker (hhead c) fun _ => hdesc c).mono
    intro _ _ _ _ _
    trivial
  case owner =>
    intro c l howner
    cases howner

/--
Two walks wait for each other in some order of their steps if and only if one of them looks up a component
in the root directory.
-/
theorem no_deadlock_iff (hst : Rooted st) (hfuel : 0 < fuel)
    (hhead : ∀ c, (call c).path.head? = some '/')
    : (∀ m, Machine.Reached Machine.Any (.start st fun c => (call c).thread fuel) m → ¬ m.Deadlocked) ↔
        ∀ c, ¬ Descends (call c).path := by
  rcases Nat.exists_eq_succ_of_ne_zero (Nat.ne_of_gt hfuel) with ⟨fuel, rfl⟩
  constructor
  . intro h c hdesc
    rcases hst.deadlocks fuel hhead hdesc with ⟨m, hreached, hdead⟩
    exact h m hreached hdead
  . intro h m hreached
    rcases hst.atRoot fuel hhead h with ⟨vfs, r, w, hstart⟩
    rcases hstart.reached hreached with ⟨k, hm⟩
    exact hm.not_deadlocked

end

@[irreducible]
def mountedWithF : St :=
  after (do
    boot
    let _ ← vfs_create "/f".toList .VREG 1) (.empty zeroed)

theorem rooted_mountedWithF : Rooted mountedWithF := by
  refine ⟨0, 0, 0, ⟨?_, ?_, ?_, ?_, ?_, ?_, ?_, ?_⟩, ?_, ?_, ?_, ?_⟩
  . decide +kernel
  . decide +kernel
  . decide +kernel
  . decide +kernel
  . decide +kernel
  . decide +kernel
  . decide +kernel
  . decide +kernel
  . decide +kernel
  . decide +kernel
  . decide +kernel
  . decide +kernel

def atRootOnly (c : Bool) : Walker :=
  if c then .vfs_rmdir "/".toList else .vfs_unlink "/..".toList

theorem no_deadlock_at_root
    : (∀ c, ¬ Descends (atRootOnly c).path) ∧
        ∀ m, Machine.Reached Machine.Any (.start mountedWithF fun c => (atRootOnly c).thread 1) m →
          ¬ m.Deadlocked := by
  have hdesc : ∀ c, ¬ Descends (atRootOnly c).path := by
    intro c
    unfold Descends
    cases c with
    | false => decide
    | true => decide
  refine ⟨hdesc, ?_⟩
  apply (no_deadlock_iff rooted_mountedWithF (by decide) _).mpr hdesc
  intro c
  cases c with
  | false => decide
  | true => decide

theorem deadlock_of_walks
    : (∃ nd s, namei "/f".toList 1 mountedWithF = .ok (none, nd) s) ∧
        ∃ m : Machine Bool,
          Machine.Reached Machine.Any (.start mountedWithF fun _ => (Walker.walk "/f".toList).thread 1) m ∧
          m.Deadlocked := by
  constructor
  . have hret : (result (namei "/f".toList 1) mountedWithF).map Prod.fst = some none := by decide +kernel
    obtain ⟨⟨_, nd⟩, hresult, rfl⟩ := Option.map_eq_some_iff.mp hret
    exact ⟨nd, _, ok_of_result hresult⟩
  . apply rooted_mountedWithF.deadlocks 0 (c := true)
    . intro c
      decide
    . refine ⟨['f'], ?_, ?_, ?_⟩
      . decide
      . decide
      . decide

end Fs
end Franklin
