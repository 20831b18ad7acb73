import Franklin.Fs.Lemmas.Joined

/-!
This module contains what slashes at the end of a path change: the walk does not end at the directory that
the path without them leads to, but at the one in which that was found.
-/

namespace Franklin
namespace Fs

def slashed (k : Nat) (name : Name) : Name :=
  if name = [] then [] else name ++ List.replicate (k + 1) '/'

section Names

variable {k : Nat} {name : Name}

theorem slashed_of_ne (h : name ≠ []) : slashed k name = name ++ List.replicate (k + 1) '/' := by
  unfold slashed
  rw [if_neg h]

theorem head_replicate : (List.replicate (k + 1) '/').head? = some '/' := by
  rfl

theorem slashed_eq_joined (k : Nat) (name : Name) : slashed k name = joined (List.replicate (k + 1) '/') name := by
  have hskip := SameRuns.skipSlashes_replicate (k + 1) []
  rw [List.append_nil] at hskip
  unfold slashed joined
  rw [hskip]
  rfl

theorem skipSlashes_slashed (name : Name)
    : skipSlashes (slashed k name) = slashed k (skipSlashes name) := by
  by_cases hname : name = []
  . rw [hname]
    rfl
  . rw [slashed_of_ne hname, skipSlashes_append, slashed_eq_joined]

end Names

namespace Resolve

def Round.slashed (k : Nat) : Round → Round
  | .done (.found D V) => .next D V []
  | .done (.link D V rest) => .done (.link D V (rest ++ List.replicate (k + 1) '/'))
  | .done (.missing D name len) => .done (.missing D (name ++ List.replicate (k + 1) '/') len)
  | .done e => .done e
  | .next D V name => .next D V (Fs.slashed k name)

section Round

variable {st : St} {k : Nat} {L D V : Loc} {prev : Option Loc} {name : Name} {R : Round}

theorem Round.slashed_eq_joined (k : Nat) (R : Round) : R.slashed k = R.joined (List.replicate (k + 1) '/') := by
  have hskip := SameRuns.skipSlashes_replicate (k + 1) []
  rw [List.append_nil] at hskip
  cases R with
  | done e =>
    cases e with
    | found D V =>
      unfold slashed joined
      rw [hskip]
      rfl
    | _ => rfl
  | next D V name =>
    unfold slashed joined
    dsimp only
    rw [Fs.slashed_eq_joined]

theorem nextname_slashed (D V : Loc) (next : Name)
    : nextname D V (next ++ List.replicate (k + 1) '/') = (nextname D V next).slashed k := by
  rw [Round.slashed_eq_joined]
  exact nextname_joined head_replicate D V next

theorem round_slashed (hname : name ≠ []) (hdot : name ≠ ['.'])
    (hdots : name = ['.', '.'] → ∃ D, up st (st.nextVfs + 1) L = some (.root D))
    (h : round st prev L name = some R) (hfound : ∀ D V, R = .done (.found D V) → V.type st ≠ .VLNK)
    : round st prev L (name ++ List.replicate (k + 1) '/') = some (R.slashed k) := by
  rw [Round.slashed_eq_joined]
  exact round_joined head_replicate hname hdot hdots h hfound

theorem start_slashed (L : Option Loc) : start st (slashed k name) L = start st name L := by
  unfold start slashed
  split
  . next heq =>
    rw [heq]
  . next hne =>
    rw [List.head?_append_of_ne_nil _ hne]

theorem concat_slashed (link rest : Name)
    : namei.concat link (rest ++ List.replicate (k + 1) '/') = slashed k (namei.concat link rest) := by
  unfold namei.concat
  split
  . rfl
  . next hlink =>
    rw [slashed_of_ne (by simp [hlink]), List.append_assoc]

end Round

section Namei

variable {st : St} {own : Nat → Nat} {k : Nat} {name : Name} {e : Exit} (h : Grove none own st)

include h

theorem lookup_slashed {fuel fuel' : Nat} {prev : Option Loc} {L : Loc}
    (hprev : ∀ P, prev = some P → Placed own st P) (hL : Placed own st L)
    (hlookup : lookup st fuel prev L name = some e)
    (hhead : name.head? ≠ some '/') (hfuel : (slashed k name).length < fuel')
    : ∃ prev' L' fuel'', Placed own st L' ∧
        round st prev' L' (lookupName st fuel prev L name) = some (.done e) ∧
        (slashed k (lookupName st fuel prev L name)).length < fuel'' ∧
        lookup st fuel' prev L (slashed k name) =
          lookup st fuel'' prev' L' (slashed k (lookupName st fuel prev L name)) := by
  simp only [slashed_eq_joined] at hfuel ⊢
  exact lookup_joined h head_replicate hprev hL hlookup hhead hfuel

theorem namei_slashed {fuel : Nat} {L : Option Loc} (hL : ∀ D, L = some D → Placed own st D)
    (hnamei : namei st fuel name L = some e)
    : (∃ q ∈ joins st fuel name L, namei.bufsize ≤ q.length + (k + 1)) ∧
          namei st fuel (slashed k name) L = none ∨
        (∀ q ∈ joins st fuel name L, q.length + (k + 1) < namei.bufsize) ∧
          ∃ fuel' prev' L' fuel'', round st prev' L' (nameiName st fuel name L) = some (.done e) ∧
            (slashed k (nameiName st fuel name L)).length < fuel'' ∧
            namei st fuel (slashed k name) L =
              finish st fuel' (lookup st fuel'' prev' L' (slashed k (nameiName st fuel name L))) := by
  induction fuel generalizing name L with
  | zero => cases hnamei
  | succ fuel ih =>
    rw [namei_succ] at hnamei ⊢
    rw [start_slashed, skipSlashes_slashed]
    unfold joins nameiName
    cases hstart : start st name L with
    | none =>
      rw [hstart] at hnamei
      cases hnamei
    | some V =>
      rw [hstart] at hnamei
      dsimp only at hnamei ⊢
      have hV := Placed.start h hL hstart
      cases hlookup : lookup st ((skipSlashes name).length + 1) none V (skipSlashes name) with
      | none =>
        rw [hlookup] at hnamei
        cases hnamei
      | some e' =>
        rw [hlookup] at hnamei
        rcases lookup_slashed h (by simp) hV hlookup (head_skipSlashes name) (Nat.lt_succ_self _) with
          ⟨prev', L', fuel'', hL', hround, hfuel, hsame⟩
        have he' := Placed.lookup h (by simp) hV hlookup
        cases e' with
        | link D W next =>
          rcases link_name h hL' hround with ⟨hdot, hdots⟩
          dsimp only
          generalize hnm : lookupName st ((skipSlashes name).length + 1) none V (skipSlashes name) = nm at *
          have hne : nm ≠ [] := by
            rintro rfl
            unfold round at hround
            rw [if_pos rfl] at hround
            split at hround
            . cases hround
            . cases hround
            . split at hround
              . cases hround
              . cases hround
          have hslashed := @round_slashed st k L' prev' nm _ hne hdot (fun heq => absurd heq hdots) hround
            (by simp)
          rw [slashed_of_ne hne] at hfuel hsame
          have hlink : lookup st fuel'' prev' L' (nm ++ List.replicate (k + 1) '/') =
              some (.link D W (next ++ List.replicate (k + 1) '/')) := by
            cases fuel'' with
            | zero => omega
            | succ fuel'' =>
              unfold lookup
              rw [hslashed]
              rfl
          rw [hsame, hlink]
          unfold finish at hnamei ⊢
          dsimp only at hnamei ⊢
          split at hnamei
          . cases hnamei
          . next hsize =>
            have hlen : ((st.nodes (W.node st)).link ++ (next ++ List.replicate (k + 1) '/')).length =
                ((st.nodes (W.node st)).link ++ next).length + (k + 1) := by
              rw [← List.append_assoc, List.length_append, List.length_replicate]
            rw [hlen]
            by_cases hlong : namei.bufsize ≤ ((st.nodes (W.node st)).link ++ next).length + (k + 1)
            . left
              rw [if_pos hlong]
              exact ⟨⟨_, List.mem_cons_self, hlong⟩, rfl⟩
            . rw [if_neg hlong, concat_slashed]
              have hnext : ∀ P, some D = some P → Placed own st P := by
                intro P hP
                cases he' with
                | link hD hW =>
                  rw [← Option.some.inj hP]
                  apply hD
              rcases ih hnext hnamei with ⟨⟨q, hq, hlong'⟩, hnone⟩ | ⟨hfit, hlast⟩
              . exact Or.inl ⟨⟨q, List.mem_cons_of_mem _ hq, hlong'⟩, hnone⟩
              . refine Or.inr ⟨?_, hlast⟩
                intro q hq
                rcases List.mem_cons.mp hq with rfl | hq
                . omega
                . apply hfit q hq
        | found D W =>
          rw [← show Exit.found D W = e from Option.some.inj hnamei]
          exact Or.inr ⟨by simp, fuel, prev', L', fuel'', hround, hfuel, by rw [hsame]⟩
        | here D =>
          rw [← show Exit.here D = e from Option.some.inj hnamei]
          exact Or.inr ⟨by simp, fuel, prev', L', fuel'', hround, hfuel, by rw [hsame]⟩
        | tail D W =>
          rw [← show Exit.tail D W = e from Option.some.inj hnamei]
          exact Or.inr ⟨by simp, fuel, prev', L', fuel'', hround, hfuel, by rw [hsame]⟩
        | missing D nm len =>
          rw [← show Exit.missing D nm len = e from Option.some.inj hnamei]
          exact Or.inr ⟨by simp, fuel, prev', L', fuel'', hround, hfuel, by rw [hsame]⟩
        | notdir D =>
          rw [← show Exit.notdir D = e from Option.some.inj hnamei]
          exact Or.inr ⟨by simp, fuel, prev', L', fuel'', hround, hfuel, by rw [hsame]⟩

theorem cross_vfs {fuel : Nat} {D L V : Loc} (hD : Placed own st D) (hL : Placed own st L)
    (hcross : cross st D fuel L = some V) : V = L ∨ L.type st = .VDIR ∧ L.vfs st < V.vfs st := by
  rcases Relation.reflTransGen_iff_eq_or_transGen.mp (cross_chain h hD hL hcross) with heq | hchain
  . exact Or.inl heq
  . refine Or.inr ⟨?_, Covers.lt_of_chain h hD hchain⟩
    rcases Relation.TransGen.head'_iff.mp hchain with ⟨R, ⟨w, vfs, rfl, hfreed, hmounted, _⟩, _⟩
    exact (h.covered w vfs hfreed hmounted).2.1

theorem cross_ne {fuel n : Nat} {D V : Loc} (hD : Placed own st D) (hdir : D.type st = .VDIR)
    (hne : n ≠ D.node st) (hn : n = (st.nodes (D.node st)).parent ∨ n ∈ (st.hier.node (D.node st)).entries)
    (hW : Placed own st (Loc.get st [D] (D.vfs st) n))
    (hcross : cross st D fuel (Loc.get st [D] (D.vfs st) n) = some V) : V ≠ D := by
  have hnode : (Loc.get st [D] (D.vfs st) n).node st = n := Loc.node_get h.forest.inv _ _ _
  rcases cross_vfs h hD hW hcross with rfl | ⟨htype, hlt⟩
  . intro heq
    rw [heq] at hnode
    exact hne hnode.symm
  . rintro rfl
    have hnodedir : (st.nodes n).type = .VDIR := by
      rw [← hnode, ← hW.type, htype]
    have hvfs := hW.vfs htype
    rw [hnode, Placed.own_eq h hD hne hn hdir hnodedir, ← hD.vfs hdir] at hvfs
    omega

theorem look_cross_ne {len fuel : Nat} {D W V : Loc} (hD : Placed own st D)
    (hlook : look st D name len = some (.ok W)) (hdot : name ≠ ['.'])
    (hcross : cross st D fuel W = some V) : V ≠ D := by
  have hdir := type_of_look hlook (by simp)
  have hW := Placed.look h hD hlook
  rcases Placed.look_eq hlook with ⟨heq, _⟩ | ⟨_, n, hne, hget, hn⟩
  . exact absurd heq (strcmp_ne hdot)
  . rw [hget] at hW hcross
    apply cross_ne h hD hdir hne hn hW hcross

end Namei

end Resolve

def Loc.of (st s : St) (v : Nat) : Loc :=
  if v < st.nextVnode then .old v else .new (s.vnodes v).vfs (s.vnodes v).data

def taken (st s : St) : Loc → Int
  | .old v => if v < st.nextVnode then (s.vnodes v).refcount - (st.vnodes v).refcount else 0
  | .new vfs n =>
    match (s.nodes n).vnode with
    | none => 0
    | some v => if st.nextVnode ≤ v ∧ (s.vnodes v).vfs = vfs then (s.vnodes v).refcount else 0

def Exit.held : Exit → List Loc
  | found vdir vn => [vn, vdir]
  | here vdir => [vdir, vdir]
  | tail vdir vn => [vdir, vn]
  | link vdir vn _ => [vn, vdir]
  | missing vdir _ _ => [vdir]
  | notdir vdir => [vdir]

section Taken

variable {st s : St} {held : List (Nat × Loc)} {vl nl : List Nat} {v : Nat} {L : Loc}

theorem Walked.locOf (h : Walked st s held vl nl) (hv : (v, L) ∈ held) : Loc.of st s v = L := by
  unfold Loc.of
  split
  . next hlt => exact (h.heldOld v L hv hlt).1.symm
  . next hge =>
    rcases h.heldNew v L hv (by omega) with ⟨_, vfs, n, rfl, _⟩
    rcases h.members hv with ⟨hdata, _, hvfs, _⟩
    rw [hdata, hvfs]
    rfl

theorem refs_eq_count (hiff : ∀ p ∈ held, p.1 = v ↔ p.2 = L) : refs held v = (held.map Prod.snd).count L := by
  unfold refs
  rw [List.count, List.countP_map]
  apply List.countP_congr
  intro p hp
  simp only [decide_eq_true_eq, Function.comp_apply, beq_iff_eq]
  apply hiff p hp

theorem Walked.taken (h : Walked st s held vl nl) (hinv : Inv st) (L : Loc)
    : Fs.taken st s L = (held.map Prod.snd).count L := by
  have hnone : (∀ p ∈ held, p.2 ≠ L) → (held.map Prod.snd).count L = 0 := by
    intro hne
    rw [List.count_eq_zero]
    intro hmem
    rcases List.mem_map.mp hmem with ⟨p, hp, rfl⟩
    exact hne p hp rfl
  cases L with
  | old x =>
    unfold Fs.taken
    dsimp only
    split
    . next hlt =>
      rw [h.old x hlt]
      dsimp only
      rw [refs_eq_count (L := .old x)]
      . omega
      . rintro ⟨y, M⟩ hp
        constructor
        . rintro rfl
          exact (h.heldOld _ _ hp hlt).1
        . rintro rfl
          apply h.old_held hp
    . next hge =>
      rw [hnone]
      . rfl
      . rintro ⟨y, M⟩ hp rfl
        have hyx := h.old_held hp
        subst hyx
        rcases h.heldNew _ _ hp (by omega) with ⟨_, vfs, n, heq, _⟩
        cases heq
  | new vfs n =>
    unfold Fs.taken
    dsimp only
    have hvnode : ∀ {x : Nat}, (x, Loc.new vfs n) ∈ held → (s.nodes n).vnode = some x := by
      intro x hx
      by_cases hlt : x < st.nextVnode
      . have := (h.heldOld x _ hx hlt).1
        cases this
      . rcases h.heldNew x _ hx (by omega) with ⟨_, vfs', n', heq, _, _, hs⟩
        rw [Loc.new.injEq] at heq
        rw [heq.2, hs]
    cases hnode : (s.nodes n).vnode with
    | none =>
      rw [hnone]
      . rfl
      . rintro ⟨y, M⟩ hp rfl
        rw [hvnode hp] at hnode
        cases hnode
    | some v =>
      dsimp only
      split
      . next hnew =>
        have hheld : (v, Loc.new vfs n) ∈ held := by
          rcases h.node n with hold | ⟨_, v', vfs', hv', _, hmem⟩
          . rw [hold] at hnode
            have := (hinv.linked n v hnode).1
            omega
          . rw [hnode, Option.some.injEq] at hv'
            subst hv'
            have hvfs := (h.members hmem).2.2.1
            rw [hnew.2] at hvfs
            rw [hvfs]
            apply hmem
        rcases h.heldNew v _ hheld hnew.1 with ⟨_, _, _, _, heq, _⟩
        rw [heq]
        change (refs held v : Int) = _
        rw [refs_eq_count]
        rintro ⟨y, M⟩ hp
        constructor
        . rintro rfl
          apply h.loc_eq hp hheld
        . rintro rfl
          apply h.eq_of_loc_eq hp hheld
      . next hnot =>
        rw [hnone]
        . rfl
        . rintro ⟨y, M⟩ hp rfl
          have hy := hvnode hp
          rw [hnode, Option.some.injEq] at hy
          subst hy
          apply hnot
          by_cases hlt : v < st.nextVnode
          . have := (h.heldOld v _ hp hlt).1
            cases this
          . exact ⟨by omega, (h.members hp).2.2.1⟩

theorem Ended.taken {e : Exit} {nd : Nameidata} (h : Ended st s e (none, nd)) (hinv : Inv st)
    : ∃ v V, nd.vn = some v ∧ e.vn = some V ∧ Loc.of st s v = V ∧ (s.vnodes v).type = V.type st ∧
        ∀ L, Fs.taken st s L = e.held.count L := by
  have hmember : ∀ {v : Nat} {V : Loc} {held : List (Nat × Loc)} {vl : List Nat}, Walked st s held vl [] →
      (v, V) ∈ held → Loc.of st s v = V ∧ (s.vnodes v).type = V.type st ∧
        ∀ L, Fs.taken st s L = (held.map Prod.snd).count L := by
    intro v V held vl hw hv
    exact ⟨hw.locOf hv, (hw.members hv).2.1, hw.taken hinv⟩
  cases h with
  | found d v D V name len hw => exact ⟨v, V, rfl, rfl, hmember hw List.mem_cons_self⟩
  | here d D name len hw => exact ⟨d, D, rfl, rfl, hmember hw List.mem_cons_self⟩
  | tail d v D V name len hw => exact ⟨d, D, rfl, rfl, hmember hw List.mem_cons_self⟩
  | link d v D V name len hw => exact ⟨v, V, rfl, rfl, hmember hw List.mem_cons_self⟩

end Taken

/--
A path that leads to a directory leads to the same one with slashes behind it, with the same references.
-/
def TrailingAgrees (st : St) (g : Garbage) (path : Name) (fuel k : Nat) : Prop :=
  ∀ nd s v, namei path fuel st = .ok (none, nd) s → nd.vn = some v → (s.vnodes v).type = .VDIR →
    ∃ nd' s' v', namei (path ++ List.replicate (k + 1) '/') fuel (st.withGarbage g) = .ok (none, nd') s' ∧
      nd'.vn = some v' ∧ Loc.of st s' v' = Loc.of st s v ∧ ∀ L, taken st s' L = taken st s L

/--
The directory is the one in which the walk starts or the path ends in a slash already, or the last component
begins with `..` and is looked up in the root directory. What is put together at a symbolic link stays
shorter than the buffer with the slashes behind it.
-/
def TrailingKept (st : St) (path : Name) (fuel k : Nat) : Prop :=
  ∀ e V, resolve st path fuel = some e → e.vn = some V → V.type st = .VDIR →
    (∀ q ∈ Resolve.joins st fuel path none, q.length + (k + 1) < namei.bufsize) ∧
      ∀ D W, e = .found D W → ['.', '.'] <+: lastName st path fuel ∧ D.isRootvn st

/--
The last component is `.` or `..`, and its directory has a symbolic link whose name begins with it.
-/
def DotLink (st : St) (path : Name) (fuel : Nat) : Prop :=
  ∃ D V de, resolve st path fuel = some (.found D V) ∧
    (lastName st path fuel = ['.'] ∨ lastName st path fuel = ['.', '.']) ∧
      de ∈ (st.nodes (D.node st)).dentry ∧ lastName st path fuel <+: de.name ∧
        (st.nodes de.node).type = .VLNK

section Trailing

variable {st : St} {own : Nat → Nat} {path : Name} {fuel k : Nat} {e : Exit} (h : Grove none own st)

theorem Resolve.lookup_behind {fuel : Nat} {D V : Loc} {e : Exit} (hfuel : 0 < fuel)
    (hlookup : Resolve.lookup st fuel (some D) V [] = some e) : e = .tail D V := by
  cases fuel with
  | zero => omega
  | succ fuel =>
    unfold Resolve.lookup Resolve.round at hlookup
    rw [if_pos rfl] at hlookup
    cases D with
    | old v => exact (Option.some.inj hlookup).symm
    | new vfs n =>
      dsimp only at hlookup
      split at hlookup
      . next hbranch =>
        split at hbranch
        . cases hbranch
        . cases hlookup
      . next hbranch =>
        split at hbranch
        . next heq =>
          rw [← Option.some.inj hlookup, heq]
          simp only [Option.some.injEq, Resolve.Round.done.injEq] at hbranch
          exact hbranch.symm
        . cases hbranch
      . next hbranch =>
        split at hbranch
        . cases hbranch
        . cases hbranch

theorem Resolve.look_entry {len : Nat} {D W : Loc} {name : Name} (hdot : strcmp name ['.'] ≠ 0)
    (hdots : strcmp name ['.', '.'] ≠ 0) (hlook : Resolve.look st D name len = some (.ok W))
    : ∃ de, ramfs_lookup.find name len (st.nodes (D.node st)).dentry = some de ∧
        W = Loc.get st [D] (D.vfs st) de.node := by
  unfold Resolve.look at hlook
  dsimp only at hlook
  rw [if_neg hdot, if_neg hdots] at hlook
  split at hlook
  . cases hlook
  split at hlook
  . simp at hlook
  . split at hlook
    . next de hfind =>
      split at hlook
      . cases hlook
      . simp only [Option.some.injEq, Except.ok.injEq] at hlook
        exact ⟨de, hfind, hlook.symm⟩
    . split at hlook
      . cases hlook
      . simp at hlook

include h

theorem resolve_of_kept {V : Loc} (hpath : path ≠ []) (hresolve : resolve st path fuel = some e)
    (hV : e.vn = some V) (hdir : V.type st = .VDIR) (hkept : TrailingKept st path fuel k)
    : ∃ e', resolve st (path ++ List.replicate (k + 1) '/') fuel = some e' ∧ e'.vn = some V ∧
        ∀ L, e'.held.count L = e.held.count L := by
  rcases hkept e V hresolve hV hdir with ⟨hfit, hfound⟩
  have hnotlink := Resolve.namei_ne_link hresolve
  have hslashed := slashed_of_ne (k := k) hpath
  rcases Resolve.namei_slashed h (k := k) (by simp) hresolve with
    ⟨⟨q, hq, hlong⟩, _⟩ | ⟨_, fuel', prev', L', fuel'', hround, hfuel, hsame⟩
  . have := hfit q hq
    omega
  . change Resolve.round st prev' L' (lastName st path fuel) = _ at hround
    change (slashed k (lastName st path fuel)).length < fuel'' at hfuel
    change _ = Resolve.finish st fuel' (Resolve.lookup st fuel'' prev' L' (slashed k (lastName st path fuel)))
      at hsame
    rw [hslashed] at hsame
    unfold resolve
    rw [hsame]
    have hnil : lastName st path fuel = [] → Resolve.finish st fuel'
        (Resolve.lookup st fuel'' prev' L' (slashed k (lastName st path fuel))) = some e := by
      intro hname
      rw [hname] at hround hfuel ⊢
      cases fuel'' with
      | zero => omega
      | succ fuel'' =>
        unfold Resolve.lookup slashed
        rw [if_pos rfl, hround]
        dsimp only
        cases e with
        | link D W next => exact absurd rfl (hnotlink D W next)
        | _ => rfl
    cases e with
    | found D W =>
      rcases hfound D W rfl with ⟨hbegins, hrootvn⟩
      rcases Resolve.round_found hround with ⟨hne, hroot⟩
      rcases hroot with ⟨_, _, rfl, hup⟩ | ⟨hnot, _⟩
      . have hdot : lastName st path fuel ≠ ['.'] := by
          intro heq
          rw [heq] at hbegins
          exact absurd hbegins (by decide)
        have hdirD : D = V := Option.some.inj hV
        have hnext := Resolve.round_slashed (k := k) hne hdot (fun _ => ⟨D, hup⟩) hround (by
          intro D' W' heq
          simp only [Resolve.Round.done.injEq, Exit.found.injEq] at heq
          rw [← heq.2, hdirD, hdir]
          simp)
        rw [slashed_of_ne hne, List.length_append, List.length_replicate] at hfuel
        rw [slashed_of_ne hne]
        refine ⟨.tail D D, ?_, ?_, fun L => rfl⟩
        . cases fuel'' with
          | zero => omega
          | succ fuel'' =>
            unfold Resolve.lookup
            rw [hnext]
            cases fuel'' with
            | zero => omega
            | succ fuel'' =>
              unfold Loc.isRootvn at hrootvn
              cases D with
              | old v => rfl
              | new vfs n => cases hrootvn
        . rw [← hdirD]
          rfl
      . exact absurd ⟨hbegins, hrootvn⟩ hnot
    | here D => exact ⟨_, hnil (Resolve.round_nil hround (Or.inl rfl)), hV, fun L => rfl⟩
    | tail D W => exact ⟨_, hnil (Resolve.round_nil hround (Or.inr ⟨W, rfl⟩)), hV, fun L => rfl⟩
    | link D W next => exact absurd rfl (hnotlink D W next)
    | missing D nm len => cases hV
    | notdir D => cases hV

theorem kept_of_resolve {V : Loc} {e' : Exit} (hpath : path ≠ []) (hresolve : resolve st path fuel = some e)
    (hV : e.vn = some V) (hdir : V.type st = .VDIR) (hdots : ¬ DotLink st path fuel)
    (hresolve' : resolve st (path ++ List.replicate (k + 1) '/') fuel = some e') (hV' : e'.vn = some V)
    (hheld : ∀ L, e'.held.count L = e.held.count L)
    : (∀ q ∈ Resolve.joins st fuel path none, q.length + (k + 1) < namei.bufsize) ∧
        ∀ D W, e = .found D W → ['.', '.'] <+: lastName st path fuel ∧ D.isRootvn st := by
  have hslashed := slashed_of_ne (k := k) hpath
  have hplaced := Placed.resolve h hresolve
  rcases Resolve.namei_slashed h (k := k) (by simp) hresolve with
    ⟨_, hnone⟩ | ⟨hfit, fuel', prev', L', fuel'', hround, hfuel, hsame⟩
  . rw [hslashed] at hnone
    unfold resolve at hresolve'
    rw [hnone] at hresolve'
    cases hresolve'
  . refine ⟨hfit, ?_⟩
    rintro D W rfl
    change Resolve.round st prev' L' (lastName st path fuel) = _ at hround
    change (slashed k (lastName st path fuel)).length < fuel'' at hfuel
    change _ = Resolve.finish st fuel' (Resolve.lookup st fuel'' prev' L' (slashed k (lastName st path fuel)))
      at hsame
    rw [hslashed] at hsame
    unfold resolve at hresolve'
    rw [hsame] at hresolve'
    have hWV : W = V := Option.some.inj hV
    subst hWV
    rcases Resolve.round_found hround with ⟨hne, ⟨hbegins, hrootvn, _⟩ | ⟨hnot, hcomponent, hagain⟩⟩
    . exact ⟨hbegins, hrootvn⟩
    . exfalso
      cases hplaced with
      | found hD hW _ =>
      rw [slashed_of_ne hne] at hfuel hresolve'
      have hagain := hagain _ (@head_replicate k)
      cases fuel'' with
      | zero => omega
      | succ fuel'' =>
      unfold Resolve.lookup at hresolve'
      rw [hagain] at hresolve'
      rcases Resolve.component_found hcomponent with ⟨W0, hlook0, hcross0, hdrop⟩
      cases hR : Resolve.component st D (lastName st path fuel ++ List.replicate (k + 1) '/') with
      | none =>
        rw [hR] at hresolve'
        cases hresolve'
      | some R =>
      rw [hR] at hresolve'
      have hvn : ∀ e'', R = .done e'' → e''.vn ≠ none := by
        rintro e'' rfl hnone
        have hend : Resolve.finish st fuel' (some e'') = some e'' := by
          cases e'' with
          | link _ _ _ => cases hnone
          | _ => rfl
        dsimp only at hresolve'
        rw [hend, Option.some.injEq] at hresolve'
        rw [hresolve', hV'] at hnone
        cases hnone
      rcases Resolve.component_ok hR hvn with ⟨W1, V1, hlook1, hcross1, ⟨hlink, _⟩ | hnext⟩
      . -- the symbolic link is found only through `.` or `..`
        by_cases hdot : lastName st path fuel = ['.'] ∨ lastName st path fuel = ['.', '.']
        . have hW1 := Placed.look h hD hlook1
          have hV1 : V1 = W1 := by
            rcases Placed.cross_root h hD hW1 hcross1 with heq | ⟨_, hVdir⟩
            . exact heq
            . exact absurd (hVdir.symm.trans hlink) (by simp)
          subst hV1
          rcases Resolve.look_entry (strcmp_append head_replicate (by decide))
            (strcmp_append head_replicate (by decide)) hlook1 with ⟨de, hfind, hget⟩
          rw [find_takeWhile, takeWhile_append head_replicate] at hfind
          have hmem := List.mem_of_find?_eq_some hfind
          have hbegins := List.find?_some hfind
          have hall : (lastName st path fuel).takeWhile (· ≠ '/') = lastName st path fuel := by
            rcases hdot with heq | heq
            . rw [heq]
              rfl
            . rw [heq]
              rfl
          rw [hall, decide_eq_true_eq] at hbegins
          apply hdots
          refine ⟨D, W, de, hresolve, hdot, hmem, hbegins, ?_⟩
          rw [← hlink, hW1.type, hget, Loc.node_get h.forest.inv]
        . rw [not_or] at hdot
          rw [compLen_append head_replicate, Resolve.look_joined head_replicate hdot.1 hdot.2, hlook0, Option.some.injEq,
            Except.ok.injEq] at hlook1
          rw [← hlook1, hcross0, Option.some.injEq] at hcross1
          rw [← hcross1, hdir] at hlink
          cases hlink
      . rw [compLen_append head_replicate, drop_append, hdrop, List.nil_append] at hnext
        have hslash := Resolve.nextname_slashed (k := k) D V1 []
        rw [List.nil_append] at hslash
        rw [hslash] at hnext
        rw [hnext] at hresolve'
        change Resolve.finish st fuel' (Resolve.lookup st fuel'' (some D) V1 []) = some e' at hresolve'
        cases hlast : Resolve.lookup st fuel'' (some D) V1 [] with
        | none =>
          rw [hlast] at hresolve'
          cases hresolve'
        | some e'' =>
          have hpos : 0 < fuel'' := by
            rw [List.length_append, List.length_replicate] at hfuel
            omega
          have htail := Resolve.lookup_behind hpos hlast
          rw [hlast, htail] at hresolve'
          have he' : e' = .tail D V1 := (Option.some.inj hresolve').symm
          subst he'
          have hDW : D = W := Option.some.inj hV'
          have hcount := hheld D
          rw [← hDW] at hcount
          have hV1 : V1 ≠ D := by
            apply Resolve.look_cross_ne h hD hlook1 _ hcross1
            intro heq
            have hstrcmp := @strcmp_append _ (lastName st path fuel) (@head_replicate k) ['.'] (by decide)
            rw [heq] at hstrcmp
            exact hstrcmp rfl
          simp [Exit.held, hV1] at hcount

end Trailing

/--
Slashes at the end of a path lead to the same directory if and only if that is no entry of another directory.
-/
theorem namei_trailing_iff {st : St} (h : Grown st) (hquiet : Quiet st) {g : Garbage} (hclear : Clear st g)
    {path : Name} (habs : path.head? = some '/') (fuel k : Nat)
    : (TrailingKept st path fuel k → TrailingAgrees st g path fuel k) ∧
        (¬ DotLink st path fuel → TrailingAgrees st g path fuel k → TrailingKept st path fuel k) := by
  unfold TrailingAgrees
  rw [hclear.eq]
  rcases h with ⟨own, hown⟩
  have hinv := hown.grove.forest.inv
  have hpath : path ≠ [] := by
    rintro rfl
    cases habs
  constructor
  . intro hkept nd s v hrun hv htype
    have hnamei := wp_namei hinv path fuel
    rw [wp_of_ok hrun] at hnamei
    rcases hnamei with ⟨e, hresolve, hended, _⟩
    rcases hended.taken hinv with ⟨w, V, hw, hV, hof, htypeV, htaken⟩
    have hwv : w = v := Option.some.inj (hw.symm.trans hv)
    subst hwv
    rw [htypeV] at htype
    rcases resolve_of_kept hown.grove hpath hresolve hV htype hkept with ⟨e', hresolve', hV', hheld⟩
    rcases ok_of_wp (wp_namei_at hinv hquiet hresolve') with ⟨⟨error, nd'⟩, s', hrun', hended', _⟩
    have herror : error = none := by
      cases hended' with
      | missing d D name len hw => cases hV'
      | notdir d D vn name len hw => cases hV'
      | _ => rfl
    subst herror
    rcases hended'.taken hinv with ⟨v', W, hv', hW, hof', _, htaken'⟩
    rw [hV', Option.some.injEq] at hW
    subst hW
    refine ⟨nd', s', v', hrun', hv', hof'.trans hof.symm, ?_⟩
    intro L
    rw [htaken, htaken', hheld]
  . intro hdots hagrees e V hresolve hV hdir
    rcases ok_of_wp (wp_namei_at hinv hquiet hresolve) with ⟨⟨error, nd⟩, s, hrun, hended, _⟩
    have herror : error = none := by
      cases hended with
      | missing d D name len hw => cases hV
      | notdir d D vn name len hw => cases hV
      | _ => rfl
    subst herror
    rcases hended.taken hinv with ⟨v, W, hv, hW, hof, htype, htaken⟩
    rw [hV, Option.some.injEq] at hW
    subst hW
    rw [hdir] at htype
    rcases hagrees nd s v hrun hv htype with ⟨nd', s', v', hrun', hv', hsame, htaken'⟩
    have hnamei := wp_namei hinv (path ++ List.replicate (k + 1) '/') fuel
    rw [wp_of_ok hrun'] at hnamei
    rcases hnamei with ⟨e', hresolve', hended', _⟩
    rcases hended'.taken hinv with ⟨w, W, hw, hW, hof', _, htaken''⟩
    have hwv : w = v' := Option.some.inj (hw.symm.trans hv')
    subst hwv
    have hWV : W = V := by rw [← hof', hsame, hof]
    subst hWV
    apply kept_of_resolve hown.grove hpath hresolve hV hdir hdots hresolve' hW
    intro L
    have hcount := htaken' L
    rw [htaken, htaken''] at hcount
    omega

theorem Clear.madeDir : Clear madeDir ⟨false, fun _ => false⟩ := by
  unfold Fs.madeDir
  rw [rootMounted_eq]
  exact ⟨rfl, fun _ => rfl, fun _ => rfl⟩

theorem madeDir_walks
    : result (namei "/a".toList 1) madeDir = some (none, ⟨0, some 1, "a".toList, 1, false⟩) ∧
        ((after (namei "/a".toList 1) madeDir).vnodes 1).type = .VDIR ∧
        result (namei "/a/".toList 1) madeDir = some (none, ⟨0, some 0, [], 0, false⟩) ∧
        resolve madeDir "/a/".toList 1 = some (.tail (.old 0) (.old 1)) ∧
        Resolve.joins madeDir 1 "/a/".toList none = [] ∧ 1 < madeDir.nextVnode := by
  refine ⟨?_, ?_, ?_, ?_, ?_, ?_⟩
  . decide +kernel
  . decide +kernel
  . decide +kernel
  . decide +kernel
  . decide +kernel
  . decide +kernel

theorem namei_trailing_iff_madeDir : TrailingAgrees madeDir ⟨false, fun _ => false⟩ "/a/".toList 1 1 := by
  apply (namei_trailing_iff madeDir_reached.grown Quiet.madeDir Clear.madeDir (by decide) 1 1).1
  rcases madeDir_walks with ⟨_, _, _, hresolve, hjoins, _⟩
  intro e V he _ _
  rw [hresolve, Option.some.injEq] at he
  subst he
  refine ⟨?_, by simp⟩
  intro q hq
  rw [hjoins] at hq
  cases hq

theorem not_trailingAgrees_madeDir
    : KCall.Reached KCall.Orderly zeroed madeDir ∧
        (∃ s, namei "/a".toList 1 madeDir = .ok (none, ⟨0, some 1, "a".toList, 1, false⟩) s ∧
          (s.vnodes 1).type = .VDIR) ∧
        (∃ s, namei "/a/".toList 1 madeDir = .ok (none, ⟨0, some 0, [], 0, false⟩) s) ∧
        ∀ g, Clear madeDir g → ¬ TrailingAgrees madeDir g "/a".toList 1 0 := by
  rcases madeDir_walks with ⟨hdir, htype, hroot, _, _, h1⟩
  refine ⟨madeDir_reached, ⟨_, ok_of_result hdir, htype⟩, ⟨_, ok_of_result hroot⟩, ?_⟩
  intro g hclear h
  rcases h _ _ 1 (ok_of_result hdir) rfl htype with ⟨nd', s', v', hrun, hv', hof, _⟩
  rw [hclear.eq] at hrun
  change namei "/a/".toList 1 madeDir = _ at hrun
  rw [ok_of_result hroot, EStateM.Result.ok.injEq, Prod.mk.injEq] at hrun
  rw [← hrun.1.2, Option.some.injEq] at hv'
  subst hv'
  have h0 : 0 < madeDir.nextVnode := Nat.zero_lt_of_lt h1
  unfold Loc.of at hof
  rw [if_pos h0, if_pos h1] at hof
  cases hof

end Fs
end Franklin
