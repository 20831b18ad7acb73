import Franklin.Fs.Lemmas.Extended

/-!
This module contains that going up is the inverse of crossing mountpoints, and when `..` behind an entry of a
directory leads back to the directory.
-/

namespace Franklin
namespace Fs

section Up

variable {st : St} {own : Nat → Nat} {D U V W : Loc} (h : Grove none own st)

include h

theorem Placed.get_eq {held : Loc} (hV : Placed own st V) (hdir : V.type st = .VDIR)
    (hheld : held.node st ≠ V.node st) : Loc.get st [held] (V.vfs st) (V.node st) = V := by
  unfold Loc.get
  split
  . next v hv =>
    cases V with
    | old w =>
      have hback := h.forest.back w (h.lt_of_alive (hV.alive w rfl)) (hV.alive w rfl)
      rw [Option.some.inj (hv.symm.trans hback)]
    | new vfs n =>
      have := hv.symm.trans (hV.unmade vfs n rfl)
      cases this
  . next hnone =>
    cases V with
    | old w =>
      have hback := h.forest.back w (h.lt_of_alive (hV.alive w rfl)) (hV.alive w rfl)
      have := hnone.symm.trans hback
      cases this
    | new vfs n =>
      split
      . next L hfind =>
        have hmem := List.mem_of_find?_eq_some hfind
        have hsame := List.find?_some hfind
        rw [List.mem_singleton] at hmem
        subst hmem
        cases L with
        | old v => simp at hsame
        | new vfs' m => exact absurd (of_decide_eq_true hsame) hheld
      . rfl

end Up

/--
A name that is one component of a path and neither `.` nor `..`.
-/
structure Ordinary (c : Name) : Prop where
  ne : c ≠ []
  slash : '/' ∉ c
  dot : c ≠ ['.']
  dots : c ≠ ['.', '.']

section Back

variable {st : St} {own : Nat → Nat} {S U W X : Loc} {c : Name} {e : Exit} (h : Grove none own st)

theorem Ordinary.takeWhile (hc : Ordinary c) : c.takeWhile (· ≠ '/') = c := by
  rw [List.takeWhile_eq_self_iff]
  intro a ha
  rw [decide_eq_true_eq]
  rintro rfl
  exact hc.slash ha

theorem Ordinary.drop (hc : Ordinary c) : c.drop (compLen c) = [] := by
  unfold compLen
  rw [hc.takeWhile, List.drop_length]

include h

end Back

/--
Nothing is mounted on the directory `V` that the walk has come to in `D`, unless the walk could not go up from it.
-/
def Uncovered (st : St) (D V : Loc) : Prop :=
  D = V ∨ (V.type st = .VDIR → V.mountedhere st = none)

section Stand

variable {st : St} {own : Nat → Nat} {D L V W : Loc} {prev : Option Loc} {name nm x : Name} {e : Exit} {fuel : Nat}
  (h : Grove none own st)

include h

theorem Resolve.round_uncovered (hL : Placed own st L) (hround : round st prev L name = some (.next D V nm))
    : Uncovered st D V := by
  have hcomponent : ∀ {L : Loc}, Placed own st L → component st L name = some (.next D V nm) →
      Uncovered st D V := by
    intro L hL hcomponent
    rcases component_ok hcomponent (by simp) with ⟨U, S, hlook, hcross, ⟨_, heq⟩ | hnext⟩
    . cases heq
    . right
      have hS := (Placed.cross h rfl hL (Placed.look h hL hlook) hcross).2
      unfold nextname at hnext
      split at hnext
      . cases hnext
      . rw [Round.next.injEq] at hnext
        rw [hnext.2.1]
        exact hS
  unfold round at hround
  split at hround
  . split at hround
    . cases hround
    . cases hround
    . split at hround
      . cases hround
      . cases hround
  . split at hround
    . cases hup : up st (st.nextVfs + 1) L with
      | none =>
        rw [hup] at hround
        cases hround
      | some U =>
        rw [hup] at hround
        cases U with
        | root M =>
          left
          have hnext := Option.some.inj hround
          unfold nextname at hnext
          split at hnext
          . cases hnext
          . rw [Round.next.injEq] at hnext
            rw [← hnext.1, hnext.2.1]
        | dir M => exact hcomponent ((Placed.up h hL).2 M hup) hround
    . exact hcomponent hL hround

theorem Resolve.lookup_uncovered (hprev : ∀ P, prev = some P → Placed own st P ∧ Uncovered st P L)
    (hL : Placed own st L) (hlookup : lookup st fuel prev L name = some (.tail D W)) : Uncovered st D W := by
  induction fuel generalizing prev L name with
  | zero => cases hlookup
  | succ fuel ih =>
    unfold lookup at hlookup
    cases hround : round st prev L name with
    | none =>
      rw [hround] at hlookup
      cases hlookup
    | some R =>
      rw [hround] at hlookup
      cases R with
      | done e =>
        rw [Option.some.inj hlookup] at hround
        have hname := round_nil hround (Or.inr ⟨W, rfl⟩)
        rw [hname] at hround
        unfold round at hround
        rw [if_pos rfl] at hround
        cases prev with
        | none => simp at hround
        | some P =>
          have hP := (hprev P rfl).2
          cases P with
          | old v =>
            rw [Option.some.injEq, Round.done.injEq, Exit.tail.injEq] at hround
            rw [← hround.1, ← hround.2]
            exact hP
          | new vfs n =>
            dsimp only at hround
            split at hround
            . rw [Option.some.injEq, Round.done.injEq, Exit.tail.injEq] at hround
              exact Or.inl (hround.1.symm.trans hround.2)
            . cases hround
      | next D' V' nm =>
        have hD' := Placed.round h (fun P hP => (hprev P hP).1) hL hround
        cases hD' with
        | next hD hV =>
          apply ih _ hV hlookup
          intro P hP
          rw [← Option.some.inj hP]
          exact ⟨hD, round_uncovered h hL hround⟩

omit h in
theorem Resolve.look_append {y : Name} (hx : x.head? = some '/') (hy : y.head? = some '/')
    : look st D (name ++ x) (compLen (name ++ x)) = look st D (name ++ y) (compLen (name ++ y)) := by
  unfold look
  dsimp only
  rw [if_neg (strcmp_append hx (by decide)), if_neg (strcmp_append hx (by decide)),
    if_neg (strcmp_append hy (by decide)), if_neg (strcmp_append hy (by decide)), find_takeWhile, find_takeWhile,
    takeWhile_append hx, takeWhile_append hy]

omit h in
theorem Resolve.look_dots {len : Nat} (hlook : look st D ['.', '.'] len = some (.ok V))
    : (st.nodes (D.node st)).parent ≠ D.node st ∧
        V = Loc.get st [D] (D.vfs st) (st.nodes (D.node st)).parent := by
  unfold look at hlook
  dsimp only at hlook
  split at hlook
  . cases hlook
  split at hlook
  . simp at hlook
  . rw [if_neg (by decide), if_pos (by decide)] at hlook
    split at hlook
    . cases hlook
    . next hne =>
      simp only [Option.some.injEq, Except.ok.injEq] at hlook
      exact ⟨fun h => hne (Or.inl h), hlook.symm⟩

theorem Placed.parent_lt (hD : Placed own st D) (hdir : D.type st = .VDIR)
    (hne : (st.nodes (D.node st)).parent ≠ D.node st) : (st.nodes (D.node st)).parent < D.node st := by
  cases hD.attached with
  | inl hroot => exact absurd hroot.2.2.1 hne
  | inr hentry =>
    rcases hentry with ⟨m, hm⟩
    have hisDir : (st.hier.node (D.node st)).isDir = true := by
      simpa [St.hier_node, RamNode.hnode, ← hD.type] using hdir
    rcases h.forest.wf.parent _ _ hm hisDir with ⟨hparent, hlt, _⟩
    rw [St.hier_node] at hparent
    change (st.nodes (D.node st)).parent = m at hparent
    rw [hparent]
    exact hlt

theorem Resolve.component_dotted (hD : Placed own st D) (hdots : name = ['.'] ∨ name = ['.', '.'])
    (hcomponent : component st D name = some (.done (.found D V))) (hV : V.type st = .VDIR)
    (hx : x.head? = some '/') {R : Round} (hR : component st D (name ++ x) = some R)
    (hvn : ∀ e, R = .done e → e.vn ≠ none ∧ ∀ D V next, e ≠ .link D V next)
    : ∃ S, Placed own st S ∧ S ≠ V ∧ (S.type st = .VDIR → S.mountedhere st = none) ∧
        ∀ y, y.head? = some '/' → component st D (name ++ y) = some (.next D S (skipSlashes y)) := by
  have hdrop : ∀ y : Name, y.head? = some '/' → (name ++ y).drop (compLen (name ++ y)) = y := by
    intro y hy
    rw [compLen_append hy, drop_append]
    rcases hdots with rfl | rfl
    . rfl
    . rfl
  rcases component_ok hR (fun e he => (hvn e he).1) with ⟨U, S, hlook, hcross, hcase⟩
  rw [hdrop x hx] at hcase
  have hU := Placed.look h hD hlook
  rcases Placed.cross h rfl hD hU hcross with ⟨hS, huncovered⟩
  rcases look_entry (strcmp_append hx (by decide)) (strcmp_append hx (by decide)) hlook with ⟨de, hfind, hget⟩
  have hdir := type_of_look hlook (by simp)
  have hmem := Forest.mem_entries (List.mem_of_find?_eq_some (find_takeWhile (name ++ x) _ ▸ hfind))
  have hnotlink : S.type st ≠ .VLNK := by
    intro htype
    have hlink : component st D (name ++ x) = some (.done (.link D S x)) := by
      unfold component
      dsimp only
      rw [hlook]
      dsimp only
      rw [hcross]
      dsimp only
      rw [hdrop x hx, if_pos ⟨htype, Or.inr hx⟩]
    rw [hR, Option.some.injEq] at hlink
    exact (hvn _ hlink).2 _ _ _ rfl
  refine ⟨S, hS, ?_, huncovered, ?_⟩
  . rintro rfl
    rcases component_found hcomponent with ⟨V0, hlook0, hcross0, _⟩
    have hV0 := Placed.look h hD hlook0
    have hUnode : U.node st = de.node := by
      rw [hget]
      exact Loc.node_get h.forest.inv _ _ _
    have hUdir : U.type st = .VDIR := by
      rcases cross_vfs h hD hU hcross with rfl | ⟨hUdir, _⟩
      . exact hV
      . exact hUdir
    have hnode : (st.nodes de.node).type = .VDIR := by
      rw [← hUnode, ← hU.type, hUdir]
    have hUvfs : U.vfs st = D.vfs st := by
      rw [hU.vfs hUdir, hUnode, h.entry _ _ hmem hnode, hD.vfs hdir]
    have hwf := (h.forest.wf.parent _ _ hmem (by simpa [St.hier_node, RamNode.hnode] using hnode)).2.1
    have hV0dir := dots_dir h hD hdots hlook0
    have hsame : V0.vfs st = D.vfs st → V0.node st = de.node := by
      intro hvfs
      rw [Covers.eq_of_chain h hD (cross_chain h hD hV0 hcross0) (cross_chain h hD hU hcross)
        (hvfs.trans hUvfs.symm), hUnode]
    rcases hdots with rfl | rfl
    . rcases Placed.look_eq hlook0 with ⟨_, rfl⟩ | ⟨hdot, _⟩
      . exact Placed.entry_ne h hmem (hsame rfl).symm
      . exact absurd (by decide) hdot
    . rcases look_dots hlook0 with ⟨hne, rfl⟩
      have hnode0 : (Loc.get st [D] (D.vfs st) (st.nodes (D.node st)).parent).node st =
          (st.nodes (D.node st)).parent := Loc.node_get h.forest.inv _ _ _
      have htype : (st.nodes (st.nodes (D.node st)).parent).type = .VDIR := by
        have := hV0.type
        rw [hV0dir, hnode0] at this
        exact this.symm
      have hlt := hD.parent_lt h hdir hne
      rw [← hsame, hnode0] at hwf
      . omega
      . rw [hV0.vfs hV0dir, hnode0, Placed.own_eq h hD hne (Or.inl rfl) hdir htype, hD.vfs hdir]
  . intro y hy
    unfold component
    dsimp only
    rw [look_append hy hx, hlook]
    dsimp only
    rw [hcross]
    dsimp only
    rw [hdrop y hy, if_neg (by simp [hnotlink])]
    unfold nextname
    rw [if_neg]
    rintro rfl
    cases hy

omit h in
theorem Resolve.namei_one_iff {L : Option Loc}
    : namei st 1 name L = some e ↔ ∃ P, start st name L = some P ∧
        lookup st ((skipSlashes name).length + 1) none P (skipSlashes name) = some e ∧
          ∀ D V next, e ≠ .link D V next := by
  constructor
  . intro hnamei
    have hne := namei_ne_link hnamei
    rw [namei_succ] at hnamei
    cases hstart : start st name L with
    | none =>
      rw [hstart] at hnamei
      cases hnamei
    | some P =>
      rw [hstart] at hnamei
      dsimp only at hnamei
      cases hlookup : lookup st ((skipSlashes name).length + 1) none P (skipSlashes name) with
      | none =>
        rw [hlookup] at hnamei
        cases hnamei
      | some e' =>
        rw [hlookup] at hnamei
        cases e' with
        | link D V next =>
          unfold finish at hnamei
          dsimp only at hnamei
          split at hnamei
          . cases hnamei
          . cases hnamei
        | _ => exact ⟨P, rfl, hlookup.trans hnamei, hne⟩
  . rintro ⟨P, hstart, hlookup, hne⟩
    rw [namei_succ, hstart]
    dsimp only
    rw [hlookup]
    cases e with
    | link D V next => exact absurd rfl (hne D V next)
    | _ => rfl

end Stand

def Reaches (st : St) (path : Name) (S : Loc) : Prop :=
  ∀ x, x.head? = some '/' → skipSlashes x ≠ [] →
    resolve st (path ++ x) 1 = Resolve.namei st 1 (skipSlashes x) (some S)

section Reaches

variable {st : St} {own : Nat → Nat} {path x : Name} {e e' : Exit} {V : Loc} (h : Grove none own st)

include h

theorem Resolve.reaches (hpath : path ≠ []) (hresolve : resolve st path 1 = some e) (hV : e.vn = some V)
    (hdir : V.type st = .VDIR) (hx : x.head? = some '/') (hmore : resolve st (path ++ x) 1 = some e')
    (hvn : e'.vn ≠ none)
    : ∃ S, Placed own st S ∧ Reaches st path S ∧ (S = V ∧ Stands st path 1 e ∨
        S ≠ V ∧ ¬ Stands st path 1 e ∧ (S.type st = .VDIR → S.mountedhere st = none)) := by
  rcases namei_one_iff.mp hresolve with ⟨P, hstart, hlookup, hne⟩
  have hP := Placed.start h (by simp) hstart
  have he := Placed.lookup h (by simp) hP hlookup
  have hname : lastName st path 1 =
      lookupName st ((skipSlashes path).length + 1) none P (skipSlashes path) := by
    unfold lastName nameiName
    rw [hstart]
    dsimp only
    rw [hlookup]
    cases e with
    | link D V next => exact absurd rfl (hne D V next)
    | _ => rfl
  have hjoined : ∀ x : Name, x.head? = some '/' → ∃ prev L fuel, round st prev L (lastName st path 1) = some (.done e) ∧
      (joined x (lastName st path 1)).length < fuel ∧
      resolve st (path ++ x) 1 = finish st 0 (lookup st fuel prev L (joined x (lastName st path 1))) := by
    intro x hx
    rcases lookup_joined h hx (by simp) hP hlookup (head_skipSlashes path) (Nat.lt_succ_self _) with
      ⟨prev, L, fuel, _, hround, hfuel, hsame⟩
    rw [← hname] at hround hfuel hsame
    refine ⟨prev, L, fuel, hround, hfuel, ?_⟩
    unfold resolve
    rw [← joined_of_ne hpath, namei_succ, start_joined, hstart, skipSlashes_joined]
    dsimp only
    rw [hsame]
  have hfrom : ∀ (S : Loc) (x : Name), namei st 1 (skipSlashes x) (some S) =
      finish st 0 (lookup st ((skipSlashes x).length + 1) none S (skipSlashes x)) := by
    intro S x
    rw [namei_succ, skipSlashes_of_head (head_skipSlashes x)]
    unfold start
    rw [if_neg (head_skipSlashes x)]
  have hstands : ∀ S, e.stand = some S → (∀ D, e = .found D S → S.type st = .VDIR) →
      (∀ D W, e = .found D W → lastName st path 1 ≠ ['.'] ∧
        (lastName st path 1 = ['.', '.'] → D.isRootvn st)) → Reaches st path S := by
    intro S hS hSdir hlast x hx hskip
    rcases hjoined x hx with ⟨prev, L, fuel, hround, hfuel, hsame⟩
    rw [hsame, lookup_stand hx hskip hround hS hSdir hlast hfuel, hfrom]
  cases he with
  | @here D hD =>
    have hDV : D = V := Option.some.inj hV
    subst hDV
    exact ⟨D, hD, hstands D rfl (by simp) (by simp), Or.inl ⟨rfl, rfl, by simp⟩⟩
  | @tail D W hD hW =>
    have hDV : D = V := Option.some.inj hV
    subst hDV
    refine ⟨W, hW, hstands W rfl (by simp) (by simp), ?_⟩
    by_cases hWD : W = D
    . subst hWD
      exact Or.inl ⟨rfl, rfl, by simp⟩
    . right
      refine ⟨hWD, ?_, ?_⟩
      . intro hstand
        exact hWD (Option.some.inj hstand.stand)
      . rcases lookup_uncovered h (by simp) hP hlookup with heq | huncovered
        . exact absurd heq.symm hWD
        . exact huncovered
  | @found D W hD hW _ =>
    have hWV : W = V := Option.some.inj hV
    subst hWV
    by_cases hlast : lastName st path 1 ≠ ['.'] ∧ (lastName st path 1 = ['.', '.'] → D.isRootvn st)
    . have hall : ∀ D' W', Exit.found D W = .found D' W' → lastName st path 1 ≠ ['.'] ∧
          (lastName st path 1 = ['.', '.'] → D'.isRootvn st) := by
        intro D' W' heq
        rw [Exit.found.injEq] at heq
        rw [← heq.1]
        exact hlast
      exact ⟨W, hW, hstands W rfl (fun _ _ => hdir) hall, Or.inl ⟨rfl, rfl, hall⟩⟩
    . have hdots : lastName st path 1 = ['.'] ∨
          lastName st path 1 = ['.', '.'] ∧ D.isRootvn st = false := by
        by_cases hdot : lastName st path 1 = ['.']
        . exact Or.inl hdot
        . right
          by_contra hnot
          apply hlast
          refine ⟨hdot, ?_⟩
          intro heq
          rw [not_and, Bool.not_eq_false] at hnot
          exact hnot heq
      have hcomponent : ∀ {prev : Option Loc} {L : Loc},
          round st prev L (lastName st path 1) = some (.done (.found D W)) →
          component st D (lastName st path 1) = some (.done (.found D W)) ∧
            ∀ x, x.head? = some '/' → round st prev L (lastName st path 1 ++ x) =
              component st D (lastName st path 1 ++ x) := by
        intro prev L hround
        rcases round_found hround with ⟨_, ⟨hbegins, hroot, _⟩ | ⟨_, hfound⟩⟩
        . rcases hdots with heq | ⟨_, hnot⟩
          . rw [heq] at hbegins
            exact absurd hbegins (by decide)
          . rw [hroot] at hnot
            cases hnot
        . exact hfound
      have hne' : lastName st path 1 ≠ [] := by
        rcases hdots with heq | ⟨heq, _⟩
        . simp [heq]
        . simp [heq]
      rcases hjoined x hx with ⟨prev, L, fuel, hround, hfuel, hsame⟩
      rcases hcomponent hround with ⟨hfound, hagain⟩
      rw [hsame, joined_of_ne hne'] at hmore
      cases fuel with
      | zero => omega
      | succ fuel =>
      unfold lookup at hmore
      rw [hagain x hx] at hmore
      cases hR : component st D (lastName st path 1 ++ x) with
      | none =>
        rw [hR] at hmore
        cases hmore
      | some R =>
      rw [hR] at hmore
      have hend : ∀ e'', R = .done e'' → e''.vn ≠ none ∧ ∀ D V next, e'' ≠ .link D V next := by
        rintro e'' rfl
        change finish st 0 (some e'') = some e' at hmore
        cases e'' with
        | link D' V' next =>
          unfold finish at hmore
          dsimp only at hmore
          split at hmore
          . cases hmore
          . cases hmore
        | _ =>
          rw [Option.some.inj hmore]
          exact ⟨hvn, by rw [← Option.some.inj hmore]; simp⟩
      have hdots' := hdots.imp_right And.left
      rcases component_dotted h hD hdots' hfound hdir hx hR hend with ⟨S, hS, hSW, huncovered, hnext⟩
      refine ⟨S, hS, ?_, Or.inr ⟨hSW, fun hstand => hlast (hstand.last D W rfl), huncovered⟩⟩
      intro y hy hskip
      rcases hjoined y hy with ⟨prev', L', fuel', hround', hfuel', hsame'⟩
      rw [joined_of_ne hne'] at hfuel' hsame'
      rw [hsame', hfrom]
      cases fuel' with
      | zero => omega
      | succ fuel' =>
      conv => lhs; unfold lookup
      rw [(hcomponent hround').2 y hy, hnext y hy]
      dsimp only
      have hle := (List.dropWhile_suffix (l := y) (· = '/')).length_le
      have hpos := List.length_pos_iff.mpr hne'
      rw [List.length_append] at hfuel'
      have hshort : (skipSlashes y).length < fuel' := by
        unfold skipSlashes
        omega
      rw [lookup_prev hskip (some D) none, lookup_fuel (head_skipSlashes y) hshort (Nat.lt_succ_self _)]
  | link hD hW => exact absurd rfl (hne _ _ _)
  | missing hD _ => cases hV
  | notdir hD => cases hV

end Reaches

/--
No vnode says by accident that it is the root of a file system, and none that a walk makes will.
-/
structure RootsClear (st : St) : Prop where
  new : FlagsClear st
  old : ∀ v, (st.vnodes v).freed = false → (st.vnodes v).vroot = true →
    (st.nodes (st.vnodes v).data).parent = (st.vnodes v).data

theorem RootsClear.entry {own : Nat → Nat} {st : St} {S : Loc} {n : Nat} (h : RootsClear st)
    (hgrove : Grove none own st) (hS : Placed own st S) (hSdir : S.type st = .VDIR)
    (hn : n ∈ (st.hier.node (S.node st)).entries) (hdir : (st.nodes n).type = .VDIR)
    : (Loc.get st [S] (S.vfs st) n).vroot st = false := by
  have hU := Placed.entry hgrove hS hSdir hn
  have hnode : (Loc.get st [S] (S.vfs st) n).node st = n := Loc.node_get hgrove.forest.inv _ _ _
  have hisDir : (st.hier.node n).isDir = true := by
    simpa [St.hier_node, RamNode.hnode] using hdir
  have hparent : (st.nodes n).parent = S.node st := (hgrove.forest.wf.parent _ _ hn hisDir).1
  have hne := Placed.entry_ne hgrove hn
  by_contra hflag
  rw [Bool.not_eq_false] at hflag
  generalize Loc.get st [S] (S.vfs st) n = U at hU hnode hflag
  cases U with
  | old v =>
    have hself := h.old v (hU.alive v rfl) hflag
    change (st.vnodes v).data = n at hnode
    rw [hnode, hparent] at hself
    exact hne hself.symm
  | new vfs m =>
    change m = n at hnode
    unfold Loc.vroot at hflag
    dsimp only at hflag
    rw [hnode, h.new n, hparent] at hflag
    simp [Ne.symm hne] at hflag

end Fs
end Franklin
