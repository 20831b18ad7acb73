import Franklin.Fs.Lemmas.Trailing

/-!
This module contains what `lookup` does with a component that only begins with `..`: in the root of a file
system it is taken for `..`.
-/

namespace Franklin
namespace Fs

def Resolve.ordinary (st : St) (L : Loc) (name : Name) : Option Resolve.Round :=
  let len := compLen name
  let next := name.drop len
  match (st.nodes (L.node st)).dentry.find? fun de => de.name = name.takeWhile (· ≠ '/') with
  | none => some (.done (.missing L name len))
  | some de =>
    match cross st L (st.nextVfs + 1) (Loc.get st [L] (L.vfs st) de.node) with
    | none => none
    | some V =>
      if V.type st = .VLNK ∧ (st.junk.follow ∨ next.head? = some '/') then
        some (.done (.link L V next))
      else
        some (nextname L V next)

/--
The round of `lookup` returns, with what the entry of this name leads to, or with `-ENOENT` if there is none.
-/
def LooksUpEntry (st s : St) (v : Nat) (L : Loc) (nd : Nameidata) : Prop :=
  wp (lookup.round st.junk.follow v nd)
    (fun r s' => ∃ R, Resolve.ordinary st L nd.name = some R ∧ Rounded st s' R r) (fun _ _ => False) s

/--
The directory is neither the root directory nor the root of another file system, and the first of its entries
whose name begins with the component is the one with this name.
-/
structure PlainDir (st : St) (L : Loc) (name : Name) : Prop where
  isRootvn : L.isRootvn st = false
  vroot : L.vroot st = false
  entry : ((st.nodes (L.node st)).dentry.find? fun de => name.takeWhile (· ≠ '/') <+: de.name).map (·.node) =
    ((st.nodes (L.node st)).dentry.find? fun de => de.name = name.takeWhile (· ≠ '/')).map (·.node)
  wild : ((st.nodes (L.node st)).dentry.find? fun de => name.takeWhile (· ≠ '/') <+: de.name) = none →
    (st.nodes (L.node st)).wild = false

def Resolve.Round.vdir : Resolve.Round → Loc
  | .done e => e.vdir
  | .next vdir _ _ => vdir

def Resolve.Round.vn : Resolve.Round → Option Loc
  | .done e => e.vn
  | .next _ vn _ => some vn

section Ends

variable {st s : St} {e : Exit} {error : Code} {nd : Nameidata}

theorem Ended.of_vdir (h : Ended st s e (error, nd)) : Loc.of st s nd.vdir = e.vdir := by
  cases h with
  | found d v D V name len hw => exact hw.locOf (List.mem_cons_of_mem _ List.mem_cons_self)
  | here d D name len hw => exact hw.locOf List.mem_cons_self
  | tail d v D V name len hw => exact hw.locOf List.mem_cons_self
  | link d v D V name len hw => exact hw.locOf (List.mem_cons_of_mem _ List.mem_cons_self)
  | missing d D name len hw => exact hw.locOf List.mem_cons_self
  | notdir d D vn name len hw => exact hw.locOf List.mem_cons_self

theorem Ended.error_iff (h : Ended st s e (error, nd)) : error = none ↔ e.vn ≠ none := by
  cases h with
  | _ => simp [Exit.vn]

theorem Ended.vn_eq {e' : Exit} (h : Ended st s e (none, nd)) (h' : Ended st s e' (none, nd)) (hinv : Inv st)
    : e.vn = e'.vn := by
  rcases h.taken hinv with ⟨v, V, hv, hV, hof, _⟩
  rcases h'.taken hinv with ⟨v', V', hv', hV', hof', _⟩
  have hvv' : v = v' := Option.some.inj (hv.symm.trans hv')
  rw [hV, hV', ← hof, ← hof', hvv']

theorem Rounded.vn_eq {R R' : Resolve.Round} {r : lookup.Round} (h : Rounded st s R r)
    (h' : Rounded st s R' r) (hinv : Inv st) : R.vn = R'.vn := by
  cases h with
  | done e error nd h =>
    cases h' with
    | done e' _ _ h' =>
      change e.vn = e'.vn
      cases error with
      | none => exact h.vn_eq h' hinv
      | some code =>
        have hvn := h.error_iff
        have hvn' := h'.error_iff
        simp only [reduceCtorEq, false_iff, not_not] at hvn hvn'
        rw [hvn, hvn']
  | next v D V nd hnd hw hbehind =>
    cases h' with
    | next _ D' V' _ _ hw' hbehind' =>
      change some V = some V'
      rw [← hw.locOf List.mem_cons_self, ← hw'.locOf List.mem_cons_self]

theorem Rounded.vdir_eq {R R' : Resolve.Round} {r : lookup.Round} {w : Nat} (h : Rounded st s R r)
    (h' : Rounded st s R' r) (hold : R.vdir = .old w) : R'.vdir = .old w := by
  cases h with
  | done e error nd h =>
    cases h' with
    | done e' _ _ h' =>
      change e.vdir = _ at hold
      change e'.vdir = _
      rw [← h'.of_vdir, h.of_vdir, hold]
  | next v D V nd hnd hw hbehind =>
    cases h' with
    | next _ D' V' _ _ hw' hbehind' =>
      change D = _ at hold
      change D' = _
      subst hold
      rcases hbehind with ⟨hvdir, hlt, _⟩
      cases D' with
      | old w' => rw [← hbehind'.1, hvdir]
      | new vfs n =>
        unfold Behind at hbehind'
        dsimp only at hbehind'
        split at hbehind'
        . next hV =>
          subst hV
          rw [hbehind'] at hlt
          have := (hw'.heldOld v _ List.mem_cons_self hlt).1
          cases this
        . omega

end Ends

section Plain

variable {st s : St} {own : Nat → Nat} {L : Loc} {name : Name} {prev : Option Loc} (h : Grove none own st)

theorem dotdot_long (hlong : 2 < compLen name) : strcmp name ['.'] ≠ 0 ∧ strcmp name ['.', '.'] ≠ 0 := by
  constructor
  . apply strcmp_ne
    rintro rfl
    exact absurd hlong (by decide)
  . apply strcmp_ne
    rintro rfl
    exact absurd hlong (by decide)

include h

theorem Placed.entry_ne {n : Nat} (hn : n ∈ (st.hier.node (L.node st)).entries) : n ≠ L.node st := by
  rintro rfl
  have hisDir := Hier.isDir_of_mem h.forest.wf hn
  have hlt := (h.forest.wf.parent _ _ hn hisDir).2.1
  omega

theorem Placed.entry {n : Nat} (hL : Placed own st L) (hdir : L.type st = .VDIR)
    (hn : n ∈ (st.hier.node (L.node st)).entries) : Placed own st (Loc.get st [L] (L.vfs st) n) := by
  apply Placed.get h
  . intro L' hL'
    rw [List.mem_singleton] at hL'
    rw [hL']
    apply hL
  . exact Or.inr ⟨_, hn⟩
  . intro htype
    rw [hL.vfs hdir, h.entry _ _ hn htype]
  . apply hL.live

theorem Resolve.component_plain (hL : Placed own st L) (hdir : L.type st = .VDIR) (hlong : 2 < compLen name)
    (hplain : PlainDir st L name)
    : Resolve.component st L name = Resolve.ordinary st L name ∧ ∃ R, Resolve.ordinary st L name = some R := by
  rcases dotdot_long hlong with ⟨hdot, hdots⟩
  have hentry := hplain.entry
  have hwild := hplain.wild
  have halive := (hL.secure h).1
  unfold Resolve.component Resolve.ordinary Resolve.look
  dsimp only
  rw [if_neg (by simp [halive]), if_neg (by simp [hdir]), if_neg hdot, if_neg hdots, find_takeWhile]
  cases hfind : (st.nodes (L.node st)).dentry.find? fun de => name.takeWhile (· ≠ '/') <+: de.name with
  | none =>
    rw [hfind] at hentry
    rw [hwild hfind]
    cases hexact : (st.nodes (L.node st)).dentry.find? fun de => de.name = name.takeWhile (· ≠ '/') with
    | none => exact ⟨rfl, _, rfl⟩
    | some de =>
      rw [hexact] at hentry
      cases hentry
  | some de =>
    rw [hfind] at hentry
    cases hexact : (st.nodes (L.node st)).dentry.find? fun de => de.name = name.takeWhile (· ≠ '/') with
    | none =>
      rw [hexact] at hentry
      cases hentry
    | some de' =>
      rw [hexact] at hentry
      have hnode : de.node = de'.node := Option.some.inj hentry
      have hmem := Forest.mem_entries (List.mem_of_find?_eq_some hfind)
      dsimp only
      rw [if_neg (not_or.mpr ⟨Placed.entry_ne h hmem, by simp [(h.forest.secure (Or.inr ⟨_, hmem⟩)).1]⟩), ← hnode]
      have hfuel : st.nextVfs < st.nextVfs + 1 + (Loc.get st [L] (L.vfs st) de.node).vfs st := by omega
      rcases Resolve.cross_some h hL (Placed.entry h hL hdir hmem) hfuel (by omega) with ⟨V, hV⟩
      dsimp only
      rw [hV]
      dsimp only
      refine ⟨rfl, ?_⟩
      split
      . exact ⟨_, rfl⟩
      . exact ⟨_, rfl⟩

theorem Resolve.round_plain (hL : Placed own st L) (hdir : L.type st = .VDIR) (hdotdot : ['.', '.'] <+: name)
    (hlong : 2 < compLen name) (hplain : PlainDir st L name)
    : Resolve.round st prev L name = Resolve.ordinary st L name ∧ ∃ R, Resolve.ordinary st L name = some R := by
  have hne : name ≠ [] := by
    rintro rfl
    exact absurd hlong (by decide)
  have hup : Resolve.up st (st.nextVfs + 1) L = some (.dir L) := by
    unfold Resolve.up
    rw [if_neg (by simp [hplain.isRootvn]), if_pos (by simp [hplain.vroot])]
  unfold Resolve.round
  rw [if_neg hne, if_pos ((strncmp_dotdot name).mpr hdotdot), hup]
  apply Resolve.component_plain h hL hdir hlong hplain

theorem Resolve.up_vfs {fuel : Nat} {U : Resolve.Up} (hL : Placed own st L) (hup : Resolve.up st fuel L = some U)
    (hroot : L.isRootvn st = false) (hvroot : L.vroot st = true)
    : ∃ w, (U = .root (.old w) ∨ U = .dir (.old w)) ∧ (st.vnodes w).vfs < L.vfs st := by
  induction fuel generalizing L with
  | zero => cases hup
  | succ fuel ih =>
    unfold Resolve.up at hup
    rw [if_neg (by simp [hroot]), if_neg (by simp [hvroot])] at hup
    split at hup
    . next v hmp =>
      cases hfreed : (st.vnodes v).freed with
      | true =>
        rw [hfreed] at hup
        cases hup
      | false =>
        rw [hfreed, if_neg (by simp)] at hup
        rcases h.mountpoint _ v hmp hfreed (Or.inr hL.live) with ⟨hmounted, hattached⟩
        have hlt := (h.covered v _ hfreed hmounted).2.2.1
        have hv := Placed.old h hfreed hattached
        by_cases htop : (Loc.old v).isRootvn st = false ∧ (Loc.old v).vroot st = true
        . rcases ih hv hup htop.1 htop.2 with ⟨w, hw, hlt'⟩
          change (st.vnodes w).vfs < (st.vnodes v).vfs at hlt'
          exact ⟨w, hw, by omega⟩
        . refine ⟨v, ?_, hlt⟩
          cases fuel with
          | zero => cases hup
          | succ fuel =>
            unfold Resolve.up at hup
            split at hup
            . exact Or.inl (Option.some.inj hup).symm
            . next hnot =>
              rw [Bool.not_eq_true] at hnot
              rw [not_and, Bool.not_eq_true] at htop
              rw [htop hnot, if_pos (by simp)] at hup
              exact Or.inr (Option.some.inj hup).symm
    . cases hup

theorem Resolve.cross_inj {fuel n n' : Nat} {V : Loc} (hL : Placed own st L) (hdir : L.type st = .VDIR)
    (hn : n ∈ (st.hier.node (L.node st)).entries) (hn' : n' ∈ (st.hier.node (L.node st)).entries)
    (hcross : Resolve.cross st L fuel (Loc.get st [L] (L.vfs st) n) = some V)
    (hcross' : Resolve.cross st L fuel (Loc.get st [L] (L.vfs st) n') = some V) : n = n' := by
  have hnode : ∀ m, (Loc.get st [L] (L.vfs st) m).node st = m := Loc.node_get h.forest.inv _ _
  have hW := Placed.entry h hL hdir hn
  have hW' := Placed.entry h hL hdir hn'
  have hvfs : ∀ m, m ∈ (st.hier.node (L.node st)).entries →
      (Loc.get st [L] (L.vfs st) m).type st = .VDIR →
      (Loc.get st [L] (L.vfs st) m).vfs st = L.vfs st := by
    intro m hm htype
    have hnodedir : (st.nodes m).type = .VDIR := by
      have := (Placed.entry h hL hdir hm).type
      rw [htype, hnode] at this
      exact this.symm
    rw [(Placed.entry h hL hdir hm).vfs htype, hnode,
      Placed.own_eq h hL (Placed.entry_ne h hm) (Or.inr hm) hdir hnodedir, hL.vfs hdir]
  have hsame : Loc.get st [L] (L.vfs st) n = Loc.get st [L] (L.vfs st) n' := by
    rcases Resolve.cross_vfs h hL hW hcross with hV | ⟨htype, _⟩
    . rcases Resolve.cross_vfs h hL hW' hcross' with hV' | ⟨htype', hlt'⟩
      . rw [← hV, hV']
      . -- a mounted root is no entry of this file system
        rw [hvfs n' hn' htype'] at hlt'
        rcases Placed.cross_root h hL hW' hcross' with heq | ⟨_, hVdir⟩
        . rw [← hV, heq]
        . rw [hV] at hVdir hlt'
          rw [hvfs n hn hVdir] at hlt'
          omega
    . rcases Resolve.cross_vfs h hL hW' hcross' with hV' | ⟨htype', _⟩
      . rcases Placed.cross_root h hL hW hcross with heq | ⟨_, hVdir⟩
        . rw [← heq, hV']
        . have hlt := Resolve.cross_vfs h hL hW hcross
          rw [hV'] at hVdir hlt
          rcases hlt with heq | ⟨_, hlt⟩
          . exact heq.symm
          . rw [hvfs n' hn' hVdir, hvfs n hn htype] at hlt
            omega
      . apply Covers.eq_of_chain h hL (Resolve.cross_chain h hL hW hcross)
          (Resolve.cross_chain h hL hW' hcross')
        rw [hvfs n hn htype, hvfs n' hn' htype']
  have := hnode n
  rw [hsame, hnode] at this
  exact this.symm

omit h in
theorem Resolve.nextname_ends (D V : Loc) (next : Name)
    : (Resolve.nextname D V next).vdir = D ∧ (Resolve.nextname D V next).vn = some V := by
  unfold Resolve.nextname
  split
  . exact ⟨rfl, rfl⟩
  . exact ⟨rfl, rfl⟩

omit h in
theorem Resolve.component_vdir {R : Resolve.Round} (hR : Resolve.component st L name = some R) : R.vdir = L := by
  unfold Resolve.component at hR
  dsimp only at hR
  split at hR
  . cases hR
  . rw [← Option.some.inj hR]
    rfl
  . rw [← Option.some.inj hR]
    rfl
  . split at hR
    . cases hR
    . split at hR
      . rw [← Option.some.inj hR]
        rfl
      . rw [← Option.some.inj hR]
        exact (Resolve.nextname_ends _ _ _).1

omit h in
theorem Resolve.ordinary_ends {R : Resolve.Round} (hR : Resolve.ordinary st L name = some R)
    : R.vdir = L ∧
        match (st.nodes (L.node st)).dentry.find? fun de => de.name = name.takeWhile (· ≠ '/') with
        | none => R.vn = none
        | some de => ∃ V, R.vn = some V ∧
            Resolve.cross st L (st.nextVfs + 1) (Loc.get st [L] (L.vfs st) de.node) = some V := by
  unfold Resolve.ordinary at hR
  dsimp only at hR
  cases hfind : (st.nodes (L.node st)).dentry.find? fun de => de.name = name.takeWhile (· ≠ '/') with
  | none =>
    rw [hfind] at hR
    rw [← Option.some.inj hR]
    exact ⟨rfl, rfl⟩
  | some de =>
    rw [hfind] at hR
    dsimp only at hR ⊢
    cases hcross : Resolve.cross st L (st.nextVfs + 1) (Loc.get st [L] (L.vfs st) de.node) with
    | none =>
      rw [hcross] at hR
      cases hR
    | some V =>
      rw [hcross] at hR
      dsimp only at hR
      split at hR
      . rw [← Option.some.inj hR]
        exact ⟨rfl, V, rfl, rfl⟩
      . rw [← Option.some.inj hR]
        exact ⟨(Resolve.nextname_ends _ _ _).1, V, (Resolve.nextname_ends _ _ _).2, rfl⟩

theorem plainDir_of_rounds {R R' : Resolve.Round} (hL : Placed own st L) (hdir : L.type st = .VDIR)
    (hdotdot : ['.', '.'] <+: name) (hlong : 2 < compLen name)
    (hround : Resolve.round st prev L name = some R) (hordinary : Resolve.ordinary st L name = some R')
    (hvn : R.vn = R'.vn) (hvdir : ∀ w, R.vdir = .old w → R'.vdir = .old w) : PlainDir st L name := by
  rcases Resolve.ordinary_ends hordinary with ⟨hparent, hentry⟩
  have hother : R.vn ≠ some L := by
    intro hself
    rw [hvn] at hself
    cases hexact : (st.nodes (L.node st)).dentry.find? fun de => de.name = name.takeWhile (· ≠ '/') with
    | none =>
      rw [hexact, hself] at hentry
      cases hentry
    | some de =>
      rw [hexact] at hentry
      rcases hentry with ⟨V, hV, hcross⟩
      have hmem := Forest.mem_entries (List.mem_of_find?_eq_some hexact)
      rw [hself, Option.some.injEq] at hV
      exact Resolve.cross_ne h hL hdir (Placed.entry_ne h hmem) (Or.inr hmem) (Placed.entry h hL hdir hmem)
        hcross hV.symm
  have hne : name ≠ [] := by
    rintro rfl
    exact absurd hlong (by decide)
  unfold Resolve.round at hround
  rw [if_neg hne, if_pos ((strncmp_dotdot name).mpr hdotdot)] at hround
  cases hup : Resolve.up st (st.nextVfs + 1) L with
  | none =>
    rw [hup] at hround
    cases hround
  | some U =>
  rw [hup] at hround
  have hroot : L.isRootvn st = false := by
    by_contra hroot
    rw [Bool.not_eq_false] at hroot
    unfold Resolve.up at hup
    rw [if_pos hroot, Option.some.injEq] at hup
    subst hup
    apply hother
    rw [← Option.some.inj hround]
    exact (Resolve.nextname_ends _ _ _).2
  have hvroot : L.vroot st = false := by
    by_contra hvroot
    rw [Bool.not_eq_false] at hvroot
    rcases Resolve.up_vfs h hL hup hroot hvroot with ⟨w, hU, hlt⟩
    have hold : R.vdir = .old w := by
      rcases hU with rfl | rfl
      . rw [← Option.some.inj hround]
        exact (Resolve.nextname_ends _ _ _).1
      . apply Resolve.component_vdir hround
    have hLw := hvdir w hold
    rw [hparent] at hLw
    rw [hLw] at hlt
    exact Nat.lt_irrefl _ hlt
  have hU : U = .dir L := by
    unfold Resolve.up at hup
    rw [if_neg (by simp [hroot]), if_pos (by simp [hvroot])] at hup
    exact (Option.some.inj hup).symm
  subst hU
  rcases dotdot_long hlong with ⟨hdot, hdots⟩
  have halive := (hL.secure h).1
  dsimp only at hround
  unfold Resolve.component Resolve.look at hround
  dsimp only at hround
  rw [if_neg (by simp [halive]), if_neg (by simp [hdir]), if_neg hdot, if_neg hdots, find_takeWhile] at hround
  refine ⟨hroot, hvroot, ?_, ?_⟩
  . cases hfind : (st.nodes (L.node st)).dentry.find? fun de => name.takeWhile (· ≠ '/') <+: de.name with
    | none =>
      cases hexact : (st.nodes (L.node st)).dentry.find? fun de => de.name = name.takeWhile (· ≠ '/') with
      | none => rfl
      | some de =>
        have hde := List.find?_some hexact
        have hnot := List.find?_eq_none.mp hfind de (List.mem_of_find?_eq_some hexact)
        rw [decide_eq_true_eq] at hde
        rw [hde] at hnot
        simp at hnot
    | some de =>
      rw [hfind] at hround
      have hmem := Forest.mem_entries (List.mem_of_find?_eq_some hfind)
      dsimp only at hround
      rw [if_neg (not_or.mpr ⟨Placed.entry_ne h hmem, by simp [(h.forest.secure (Or.inr ⟨_, hmem⟩)).1]⟩)] at hround
      dsimp only at hround
      cases hcross : Resolve.cross st L (st.nextVfs + 1) (Loc.get st [L] (L.vfs st) de.node) with
      | none =>
        rw [hcross] at hround
        cases hround
      | some V =>
        rw [hcross] at hround
        have hV : R.vn = some V := by
          dsimp only at hround
          split at hround
          . rw [← Option.some.inj hround]
            rfl
          . rw [← Option.some.inj hround]
            exact (Resolve.nextname_ends _ _ _).2
        cases hexact : (st.nodes (L.node st)).dentry.find? fun de => de.name = name.takeWhile (· ≠ '/') with
        | none =>
          rw [hexact, ← hvn, hV] at hentry
          cases hentry
        | some de' =>
          rw [hexact] at hentry
          rcases hentry with ⟨V', hV', hcross'⟩
          rw [← hvn, hV, Option.some.injEq] at hV'
          subst hV'
          have hmem' := Forest.mem_entries (List.mem_of_find?_eq_some hexact)
          simp only [Option.map_some, Option.some.injEq]
          apply Resolve.cross_inj h hL hdir hmem hmem' hcross hcross'
  . intro hfind
    rw [hfind] at hround
    by_contra hwild
    rw [Bool.not_eq_false] at hwild
    dsimp only at hround
    rw [if_pos hwild] at hround
    cases hround

end Plain

section Lookup

variable {st s : St} {own : Nat → Nat} {v : Nat} {L : Loc} {nd : Nameidata} {prev : Option Loc}
  (h : Sown own st) (hw : Walked st s [(v, L)] [] []) (hbehind : Behind st s nd.vdir v L prev)
  (hsym : nd.issymlink = false) (hL : Placed own st L) (hdir : L.type st = .VDIR)
  (hdotdot : ['.', '.'] <+: nd.name) (hlong : 2 < compLen nd.name)

include h hw hbehind hsym hL hdir hdotdot hlong

theorem LooksUpEntry.plainDir (hlooks : LooksUpEntry st s v L nd) : PlainDir st L nd.name := by
  have hinv := h.grove.forest.inv
  rcases wp_and hlooks (hw.wp_round hinv hbehind hsym) with
    ⟨r, s', ⟨R', hordinary, hrounded'⟩, R, hR, hrounded⟩
  apply plainDir_of_rounds h.grove hL hdir hdotdot hlong hR hordinary (hrounded.vn_eq hrounded' hinv)
  intro w hold
  apply hrounded.vdir_eq hrounded' hold

theorem PlainDir.looksUpEntry (hquiet : Quiet st) (hplain : PlainDir st L nd.name)
    : LooksUpEntry st s v L nd := by
  rcases @Resolve.round_plain st own L nd.name prev h.grove hL hdir hdotdot hlong hplain with
    ⟨heq, R, hordinary⟩
  apply wp_mono (hw.wp_round h.grove.forest.inv hbehind hsym)
  . intro r s' hs'
    rcases hs' with ⟨R', hR', hrounded⟩
    rw [heq] at hR'
    exact ⟨R', hR', hrounded⟩
  . intro e s' hs'
    have hnone := hs'.2 hquiet
    rw [heq, hordinary] at hnone
    cases hnone

/--
A component that is longer than `..` and begins with it is looked up like any other name if and only if the
directory is no root of a file system and the first of its entries with a name that begins with the component
is the one with this name.
-/
theorem lookup_dotdots_iff (hquiet : Quiet st)
    : LooksUpEntry st s v L nd ↔ PlainDir st L nd.name := by
  constructor
  . apply LooksUpEntry.plainDir h hw hbehind hsym hL hdir hdotdot hlong
  . apply PlainDir.looksUpEntry h hw hbehind hsym hL hdir hdotdot hlong hquiet

end Lookup

theorem walked_booted
    : Walked (booted zeroed) (after (namei.start "/...".toList none) (booted zeroed)) [(0, .old 0)] [] [] := by
  have hinv := (Tree.of_booted zeroed).forest.inv
  have hstart := (Starting.first (.init _)).wp_start hinv "/...".toList
  have hresult : result (namei.start "/...".toList none) (booted zeroed) = some 0 := rfl
  have hroot : Resolve.start (booted zeroed) "/...".toList none = some (.old 0) := rfl
  rw [wp_of_ok (ok_of_result hresult)] at hstart
  rcases hstart with ⟨V, hV, hw⟩
  rw [hroot, Option.some.injEq] at hV
  rw [hV]
  apply hw

theorem placed_booted {own : Nat → Nat} (h : Sown own (booted zeroed)) : Placed own (booted zeroed) (.old 0) := by
  have hroot : resolve (booted zeroed) "/".toList 1 = some (.here (.old 0)) := rfl
  cases Placed.resolve h.grove hroot with
  | here hD => apply hD

theorem lookup_dotdots_iff_booted
    : ∃ own s, Sown own (booted zeroed) ∧ Walked (booted zeroed) s [(0, .old 0)] [] [] ∧
        (LooksUpEntry (booted zeroed) s 0 (.old 0) ⟨0, none, "...".toList, 0, false⟩ ↔
          PlainDir (booted zeroed) (.old 0) "...".toList) := by
  rcases Grown.booted with ⟨own, h⟩
  refine ⟨own, _, h, walked_booted, ?_⟩
  apply @lookup_dotdots_iff _ _ own 0 (.old 0) ⟨0, none, "...".toList, 0, false⟩ none h walked_booted rfl rfl
    (placed_booted h) rfl (by decide) (by decide) Quiet.booted

theorem not_looksUpEntry_booted
    : (∃ s, namei "/...".toList 1 (booted zeroed) = .ok (none, ⟨0, some 0, "...".toList, 3, false⟩) s) ∧
        ((booted zeroed).nodes 0).dentry = [] ∧
        ∃ s, Walked (booted zeroed) s [(0, .old 0)] [] [] ∧
          ¬ LooksUpEntry (booted zeroed) s 0 (.old 0) ⟨0, none, "...".toList, 0, false⟩ := by
  have hresult : result (namei "/...".toList 1) (booted zeroed) =
      some (none, ⟨0, some 0, "...".toList, 3, false⟩) := by
    rfl
  refine ⟨⟨_, ok_of_result hresult⟩, booted_dentry zeroed 0, _, walked_booted, ?_⟩
  intro hlooks
  rcases Grown.booted with ⟨own, h⟩
  have hplain := @LooksUpEntry.plainDir _ _ own 0 (.old 0) ⟨0, none, "...".toList, 0, false⟩ none h walked_booted
    rfl rfl (placed_booted h) rfl (by decide) (by decide) hlooks
  have hroot : (Loc.old 0).isRootvn (booted zeroed) = true := rfl
  rw [hplain.isRootvn] at hroot
  cases hroot

end Fs
end Franklin
