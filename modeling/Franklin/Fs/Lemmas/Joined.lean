import Franklin.Fs.Lemmas.Parents
import Franklin.Fs.Lemmas.Slashes
import Franklin.Fs.Lemmas.Removal
import Franklin.Fs.Lemmas.Leaks

/-!
This module contains walks of a path with another one behind it: they come to where the walk of the first one ends
and go on with the second one there.
-/

namespace Franklin
namespace Fs

def joined (x name : Name) : Name :=
  if name = [] then skipSlashes x else name ++ x

section Names

variable {x name : Name}

theorem joined_of_ne (h : name ≠ []) : joined x name = name ++ x := by
  unfold joined
  rw [if_neg h]

theorem strcmp_ne {c : Name} (h : name ≠ c) : strcmp name c ≠ 0 := by
  unfold strcmp
  rw [if_neg h]
  decide

theorem length_joined_le : (joined x name).length ≤ name.length + x.length := by
  unfold joined
  split
  . have hle := (List.dropWhile_suffix (l := x) (· = '/')).length_le
    unfold skipSlashes
    omega
  . rw [List.length_append]

theorem skipSlashes_append (name : Name) : skipSlashes (name ++ x) = joined x (skipSlashes name) := by
  induction name with
  | nil => rfl
  | cons c name ih =>
    by_cases hc : c = '/'
    . subst hc
      exact ih
    . unfold skipSlashes
      rw [List.cons_append, List.dropWhile_cons_of_neg (by simpa using hc),
        List.dropWhile_cons_of_neg (by simpa using hc), joined_of_ne (by simp), List.cons_append]

theorem skipSlashes_of_head (h : name.head? ≠ some '/') : skipSlashes name = name := by
  cases name with
  | nil => rfl
  | cons c name =>
    have hc : c ≠ '/' := by simpa using h
    unfold skipSlashes
    rw [List.dropWhile_cons_of_neg (by simpa using hc)]

theorem skipSlashes_joined (name : Name) : skipSlashes (joined x name) = joined x (skipSlashes name) := by
  by_cases hname : name = []
  . rw [hname]
    exact skipSlashes_of_head (head_skipSlashes x)
  . rw [joined_of_ne hname, skipSlashes_append]

theorem concat_append {link : Name} (hlink : link ≠ []) (rest : Name)
    : namei.concat link (rest ++ x) = joined x (namei.concat link rest) := by
  unfold namei.concat
  rw [if_neg hlink, if_neg hlink, joined_of_ne (by simp [hlink]), List.append_assoc]

theorem head_joined (hname : name.head? ≠ some '/') : (joined x name).head? ≠ some '/' := by
  unfold joined
  split
  . apply head_skipSlashes
  . next hne => rwa [List.head?_append_of_ne_nil _ hne]

theorem drop_append (name : Name) : (name ++ x).drop (compLen name) = name.drop (compLen name) ++ x := by
  apply List.drop_append_of_le_length
  apply (List.takeWhile_prefix _).length_le

variable (hx : x.head? = some '/')

include hx

theorem takeWhile_append (name : Name) : (name ++ x).takeWhile (· ≠ '/') = name.takeWhile (· ≠ '/') := by
  induction name with
  | nil =>
    cases x with
    | nil => cases hx
    | cons c x =>
      have hc : c = '/' := Option.some.inj hx
      simp [hc]
  | cons c name ih =>
    by_cases hc : c = '/'
    . simp [hc]
    . rw [List.cons_append, List.takeWhile_cons_of_pos (by simpa using hc),
        List.takeWhile_cons_of_pos (by simpa using hc), ih]

theorem compLen_append (name : Name) : compLen (name ++ x) = compLen name := by
  unfold compLen
  rw [takeWhile_append hx]

theorem dotdot_append (name : Name) : strncmp (name ++ x) ['.', '.'] 2 = 0 ↔ strncmp name ['.', '.'] 2 = 0 := by
  rw [strncmp_dotdot, strncmp_dotdot, ← dotdot_prefix_takeWhile, takeWhile_append hx, dotdot_prefix_takeWhile]

theorem mem_of_head : '/' ∈ x := by
  exact List.mem_of_mem_head? hx

theorem strcmp_append {c : Name} (hc : '/' ∉ c) : strcmp (name ++ x) c ≠ 0 := by
  apply strcmp_ne
  rintro rfl
  exact hc (List.mem_append_right _ (mem_of_head hx))

theorem head_append {next : Name} : (next ++ x).head? = some '/' ↔ next = [] ∨ next.head? = some '/' := by
  cases next with
  | nil => simpa using hx
  | cons c next => simp

end Names

def Exit.stand : Exit → Option Loc
  | found _ vn => some vn
  | here vdir => some vdir
  | tail _ vn => some vn
  | link _ _ _ => none
  | missing _ _ _ => none
  | notdir _ => none

namespace Resolve

def Round.joined (x : Name) : Round → Round
  | .done (.found D V) => .next D V (skipSlashes x)
  | .done (.link D V rest) => .done (.link D V (rest ++ x))
  | .done (.missing D name len) => .done (.missing D (name ++ x) len)
  | .done e => .done e
  | .next D V name => .next D V (Fs.joined x name)

section Round

variable {st : St} {L D V : Loc} {prev : Option Loc} {x name : Name} {R : Round}

theorem nextname_next {nm : Name} {A B : Loc} {next : Name} (h : nextname A B next = .next D V nm)
    : next ≠ [] := by
  unfold nextname at h
  split at h
  . cases h
  . next hnext => apply hnext

theorem round_next_ne {nm : Name} (h : round st prev L name = some (.next D V nm))
    : name.drop (compLen name) ≠ [] := by
  have hcomponent : ∀ {L : Loc}, component st L name = some (.next D V nm) →
      name.drop (compLen name) ≠ [] := by
    intro L h
    unfold component at h
    dsimp only at h
    split at h
    . cases h
    . cases h
    . cases h
    . split at h
      . cases h
      . split at h
        . cases h
        . apply nextname_next (Option.some.inj h)
  unfold round at h
  split at h
  . split at h
    . cases h
    . cases h
    . split at h
      . cases h
      . cases h
  . split at h
    . split at h
      . cases h
      . apply nextname_next (Option.some.inj h)
      . apply hcomponent h
    . apply hcomponent h

theorem lookup_fuel {fuel fuel' : Nat} (hhead : name.head? ≠ some '/') (hfuel : name.length < fuel)
    (hfuel' : name.length < fuel') : lookup st fuel prev L name = lookup st fuel' prev L name := by
  induction fuel generalizing fuel' prev L name with
  | zero => omega
  | succ fuel ih =>
    cases fuel' with
    | zero => omega
    | succ fuel' =>
      unfold lookup
      cases hround : round st prev L name with
      | none => rfl
      | some R =>
        cases R with
        | done e => rfl
        | next D V nm =>
          dsimp only
          have hne : name ≠ [] := by
            intro heq
            rw [heq] at hround
            exact round_next_ne hround List.drop_nil
          have hlt := length_next_lt hne hhead
          rw [← round_next_name hround] at hlt
          apply ih
          . rw [round_next_name hround]
            apply head_skipSlashes
          . omega
          . omega

def joins (st : St) : Nat → Name → Option Loc → List Name
  | 0, _, _ => []
  | fuel + 1, name, L =>
    match start st name L with
    | none => []
    | some L =>
      match lookup st ((skipSlashes name).length + 1) none L (skipSlashes name) with
      | some (.link vdir vn next) =>
        let link := (st.nodes (vn.node st)).link
        (link ++ next) :: joins st fuel (namei.concat link next) (some vdir)
      | _ => []

/--
The links and rests of a path that the walk puts together.
-/
def copies (st : St) : Nat → Name → Option Loc → List (Name × Name)
  | 0, _, _ => []
  | fuel + 1, name, L =>
    match start st name L with
    | none => []
    | some L =>
      match lookup st ((skipSlashes name).length + 1) none L (skipSlashes name) with
      | some (.link vdir vn next) =>
        let link := (st.nodes (vn.node st)).link
        (link, next) :: copies st fuel (namei.concat link next) (some vdir)
      | _ => []

theorem copies_of_link (fuel : Nat) {L : Option Loc} {W : Loc} {rest : Name} (hstart : start st name L = some V)
    (hlookup : lookup st ((skipSlashes name).length + 1) none V (skipSlashes name) = some (.link D W rest))
    : copies st (fuel + 1) name L =
        ((st.nodes (W.node st)).link, rest) ::
          copies st fuel (namei.concat (st.nodes (W.node st)).link rest) (some D) := by
  rw [copies, hstart]
  dsimp only
  rw [hlookup]

def finish (st : St) (fuel : Nat) : Option Exit → Option Exit
  | some (.link vdir vn next) =>
    let link := (st.nodes (vn.node st)).link
    if namei.bufsize ≤ (link ++ next).length then
      none
    else
      namei st fuel (namei.concat link next) (some vdir)
  | e => e

theorem namei_succ {fuel : Nat} {L : Option Loc}
    : namei st (fuel + 1) name L =
        match start st name L with
        | none => none
        | some L => finish st fuel (lookup st ((skipSlashes name).length + 1) none L (skipSlashes name)) := by
  rw [namei]
  cases start st name L with
  | none => rfl
  | some L =>
    dsimp only
    cases lookup st ((skipSlashes name).length + 1) none L (skipSlashes name) with
    | none => rfl
    | some e =>
      cases e with
      | _ => rfl


theorem lookup_prev {fuel : Nat} (hname : name ≠ []) (prev prev' : Option Loc)
    : lookup st fuel prev L name = lookup st fuel prev' L name := by
  cases fuel with
  | zero => rfl
  | succ fuel =>
    have hround : round st prev L name = round st prev' L name := by
      unfold round
      rw [if_neg hname, if_neg hname]
    unfold lookup
    rw [hround]

variable (hx : x.head? = some '/')

include hx

theorem nextname_joined (D V : Loc) (next : Name)
    : nextname D V (next ++ x) = (nextname D V next).joined x := by
  have hne : next ++ x ≠ [] := by
    intro hnil
    have hmem := mem_of_head hx
    rw [(List.append_eq_nil_iff.mp hnil).2] at hmem
    cases hmem
  unfold nextname
  rw [if_neg hne, skipSlashes_append]
  split
  . next hnil =>
    rw [hnil]
    rfl
  . rfl

theorem look_joined (hdot : name ≠ ['.']) (hdots : name ≠ ['.', '.'])
    : look st L (name ++ x) (compLen name) = look st L name (compLen name) := by
  have hfind := find_takeWhile (name ++ x) (st.nodes (L.node st)).dentry
  rw [compLen_append hx, takeWhile_append hx, ← find_takeWhile] at hfind
  unfold look
  dsimp only
  rw [if_neg (strcmp_append hx (by decide)), if_neg (strcmp_append hx (by decide)),
    if_neg (strcmp_ne hdot), if_neg (strcmp_ne hdots), hfind]

theorem component_joined (hdot : name ≠ ['.']) (hdots : name ≠ ['.', '.'])
    (h : component st L name = some R) (hfound : ∀ D V, R = .done (.found D V) → V.type st ≠ .VLNK)
    : component st L (name ++ x) = some (R.joined x) := by
  unfold component at h ⊢
  dsimp only at h ⊢
  rw [compLen_append hx, drop_append, look_joined hx hdot hdots]
  cases hlook : look st L name (compLen name) with
  | none =>
    rw [hlook] at h
    cases h
  | some r =>
    rw [hlook] at h
    cases r with
    | error e =>
      cases e with
      | ENOTDIR =>
        rw [← Option.some.inj h]
        rfl
      | _ =>
        rw [← Option.some.inj h]
        rfl
    | ok V =>
      dsimp only at h ⊢
      cases hcross : cross st L (st.nextVfs + 1) V with
      | none =>
        rw [hcross] at h
        cases h
      | some V =>
        rw [hcross] at h
        dsimp only at h ⊢
        have hhead := @head_append x hx (name.drop (compLen name))
        split at h
        . next hlink =>
          rw [← Option.some.inj h, if_pos]
          . rfl
          . exact ⟨hlink.1, hlink.2.imp_right fun hslash => hhead.mpr (Or.inr hslash)⟩
        . next hlink =>
          rw [if_neg, nextname_joined hx, Option.some.inj h]
          rintro ⟨htype, hfollow⟩
          rw [not_and, not_or] at hlink
          have hnot := hlink htype
          rcases hfollow with hfollow | hslash
          . exact hnot.1 hfollow
          . rcases hhead.mp hslash with hnil | hslash
            . rw [hnil] at h
              apply hfound L V _ htype
              rw [← Option.some.inj h]
              rfl
            . exact hnot.2 hslash

theorem round_joined (hname : name ≠ []) (hdot : name ≠ ['.'])
    (hdots : name = ['.', '.'] → ∃ D, up st (st.nextVfs + 1) L = some (.root D))
    (h : round st prev L name = some R) (hfound : ∀ D V, R = .done (.found D V) → V.type st ≠ .VLNK)
    : round st prev L (name ++ x) = some (R.joined x) := by
  unfold round at h ⊢
  rw [if_neg hname] at h
  rw [if_neg (by simp [hname]), if_congr (dotdot_append hx name) rfl rfl]
  split at h
  . next hdotdot =>
    rw [if_pos hdotdot]
    cases hup : up st (st.nextVfs + 1) L with
    | none =>
      rw [hup] at h
      cases h
    | some U =>
      rw [hup] at h
      cases U with
      | root D =>
        dsimp only at h ⊢
        rw [compLen_append hx, drop_append, nextname_joined hx, Option.some.inj h]
      | dir D =>
        have hnot : name ≠ ['.', '.'] := by
          intro heq
          rcases hdots heq with ⟨W, hW⟩
          rw [hup] at hW
          cases hW
        apply component_joined hx hdot hnot h hfound
  . next hdotdot =>
    rw [if_neg hdotdot]
    have hnot : name ≠ ['.', '.'] := by
      intro heq
      rw [heq] at hdotdot
      exact hdotdot (by decide)
    apply component_joined hx hdot hnot h hfound

omit hx in
theorem start_joined (L : Option Loc) : start st (joined x name) L = start st name L := by
  unfold start
  by_cases hname : name = []
  . have hhead : (joined x name).head? ≠ some '/' := head_joined (by simp [hname])
    rw [if_neg hhead, if_neg (by simp [hname])]
  . rw [joined_of_ne hname, List.head?_append_of_ne_nil _ hname]

end Round

section Namei

variable {st : St} {own : Nat → Nat} {x name : Name} {e : Exit} (h : Grove none own st)

include h

theorem dots_dir {len : Nat} {L W : Loc} (hL : Placed own st L) (hdots : name = ['.'] ∨ name = ['.', '.'])
    (hlook : look st L name len = some (.ok W)) : W.type st = .VDIR := by
  have hdir := type_of_look hlook (by simp)
  have halive := alive_of_look hlook
  have hW := Placed.look h hL hlook
  unfold look at hlook
  dsimp only at hlook
  rw [if_neg (by simp [halive]), if_neg (by simp [hdir])] at hlook
  rcases hdots with rfl | rfl
  . rw [if_pos (by decide), Option.some.injEq, Except.ok.injEq] at hlook
    rw [← hlook, hdir]
  . rw [if_neg (by decide), if_pos (by decide)] at hlook
    split at hlook
    . cases hlook
    . rw [Option.some.injEq, Except.ok.injEq] at hlook
      rw [hW.type, ← hlook, Loc.node_get h.forest.inv]
      apply h.parent_dir hL.attached
      rw [← hL.type, hdir]

omit h in
theorem component_ok {L : Loc} {R : Round} (hcomponent : component st L name = some R)
    (hR : ∀ e, R = .done e → e.vn ≠ none)
    : ∃ W V, look st L name (compLen name) = some (.ok W) ∧ cross st L (st.nextVfs + 1) W = some V ∧
        (V.type st = .VLNK ∧ R = .done (.link L V (name.drop (compLen name))) ∨
          R = nextname L V (name.drop (compLen name))) := by
  unfold component at hcomponent
  dsimp only at hcomponent
  split at hcomponent
  . cases hcomponent
  . exact absurd rfl (hR _ (Option.some.inj hcomponent).symm)
  . exact absurd rfl (hR _ (Option.some.inj hcomponent).symm)
  . next W hlook =>
    cases hcross : cross st L (st.nextVfs + 1) W with
    | none =>
      rw [hcross] at hcomponent
      cases hcomponent
    | some V =>
      rw [hcross] at hcomponent
      dsimp only at hcomponent
      refine ⟨W, V, hlook, hcross, ?_⟩
      split at hcomponent
      . next hlink => exact Or.inl ⟨hlink.1, (Option.some.inj hcomponent).symm⟩
      . exact Or.inr (Option.some.inj hcomponent).symm

theorem link_name {prev : Option Loc} {L D V : Loc} {next : Name} (hL : Placed own st L)
    (hround : round st prev L name = some (.done (.link D V next))) : name ≠ ['.'] ∧ name ≠ ['.', '.'] := by
  have hnextname : ∀ {A B : Loc} {rest : Name}, nextname A B rest ≠ .done (.link D V next) := by
    intro A B rest heq
    unfold nextname at heq
    split at heq
    . cases heq
    . cases heq
  have hcomponent : ∀ {L : Loc}, Placed own st L → component st L name = some (.done (.link D V next)) →
      ¬ (name = ['.'] ∨ name = ['.', '.']) := by
    intro L hL hcomponent hdots
    rcases component_ok hcomponent (by simp [Exit.vn]) with ⟨W, V', hlook, hcross, hlink | hnext⟩
    . have hdir := dots_dir h hL hdots hlook
      have hW := Placed.look h hL hlook
      rcases Placed.cross_root h hL hW hcross with rfl | ⟨_, hVdir⟩
      . exact absurd (hdir.symm.trans hlink.1) (by simp)
      . exact absurd (hVdir.symm.trans hlink.1) (by simp)
    . exact hnextname hnext.symm
  have hneither : ¬ (name = ['.'] ∨ name = ['.', '.']) := by
    unfold round at hround
    split at hround
    . split at hround
      . cases hround
      . cases hround
      . split at hround
        . cases hround
        . cases hround
    . split at hround
      . cases hup : up st (st.nextVfs + 1) L with
        | none =>
          rw [hup] at hround
          cases hround
        | some U =>
          rw [hup] at hround
          cases U with
          | root W => exact absurd (Option.some.inj hround) hnextname
          | dir W => exact hcomponent ((Placed.up h hL).2 W hup) hround
      . exact hcomponent hL hround
  rw [not_or] at hneither
  exact hneither


omit h

theorem up_dir {fuel : Nat} {L D : Loc} (hup : Resolve.up st fuel L = some (.dir D))
    : D.isRootvn st = false ∧ D.vroot st = false := by
  induction fuel generalizing L with
  | zero => cases hup
  | succ fuel ih =>
    unfold Resolve.up at hup
    split at hup
    . simp at hup
    . next hroot =>
      split at hup
      . next hvroot =>
        simp only [Option.some.injEq, Resolve.Up.dir.injEq] at hup
        rw [← hup]
        exact ⟨by simpa using hroot, by simpa using hvroot⟩
      . split at hup
        . split at hup
          . cases hup
          . apply ih hup
        . cases hup

theorem round_found {prev : Option Loc} {L D V : Loc} {name : Name}
    (hround : Resolve.round st prev L name = some (.done (.found D V)))
    : name ≠ [] ∧ ((['.', '.'] <+: name ∧ D.isRootvn st ∧ D = V ∧
        Resolve.up st (st.nextVfs + 1) L = some (.root D)) ∨
      (¬ (['.', '.'] <+: name ∧ D.isRootvn st) ∧ Resolve.component st D name = some (.done (.found D V)) ∧
        ∀ x, x.head? = some '/' → Resolve.round st prev L (name ++ x) = Resolve.component st D (name ++ x))) := by
  have hcomponent : ∀ {L : Loc}, Resolve.component st L name = some (.done (.found D V)) → L = D := by
    intro L hL
    rcases Resolve.component_ok hL (by simp [Exit.vn]) with ⟨_, _, _, _, hlink | hnext⟩
    . simp at hlink
    . unfold Resolve.nextname at hnext
      split at hnext
      . simp only [Resolve.Round.done.injEq, Exit.found.injEq] at hnext
        exact hnext.1.symm
      . cases hnext
  unfold Resolve.round at hround
  split at hround
  . split at hround
    . simp at hround
    . simp at hround
    . split at hround
      . simp at hround
      . cases hround
  . next hne =>
    refine ⟨hne, ?_⟩
    have happend : ∀ x, name ++ x ≠ [] := by
      simp [hne]
    split at hround
    . next hdotdot =>
      cases hup : Resolve.up st (st.nextVfs + 1) L with
      | none =>
        rw [hup] at hround
        cases hround
      | some U =>
        rw [hup] at hround
        cases U with
        | root W =>
          left
          dsimp only at hround
          unfold Resolve.nextname at hround
          split at hround
          . simp only [Option.some.injEq, Resolve.Round.done.injEq, Exit.found.injEq] at hround
            rcases hround with ⟨rfl, rfl⟩
            rcases Placed.up_root hup with ⟨v, rfl, hrootvn⟩
            exact ⟨(strncmp_dotdot _).mp hdotdot, by simpa [Loc.isRootvn] using hrootvn, rfl, rfl⟩
          . cases hround
        | dir W =>
          right
          have hW := hcomponent hround
          subst hW
          refine ⟨?_, hround, ?_⟩
          . rintro ⟨_, hroot⟩
            rw [(Resolve.up_dir hup).1] at hroot
            cases hroot
          . intro x hx
            unfold Resolve.round
            rw [if_neg (happend x), if_pos ((dotdot_append hx _).mpr hdotdot), hup]
    . next hdotdot =>
      right
      have hL := hcomponent hround
      subst hL
      refine ⟨?_, hround, ?_⟩
      . rintro ⟨hbegins, _⟩
        exact hdotdot ((strncmp_dotdot _).mpr hbegins)
      . intro x hx
        unfold Resolve.round
        rw [if_neg (happend x), if_neg (fun hd => hdotdot ((dotdot_append hx _).mp hd))]

theorem component_found {D V : Loc} {name : Name}
    (hcomponent : Resolve.component st D name = some (.done (.found D V)))
    : ∃ W, Resolve.look st D name (compLen name) = some (.ok W) ∧
        Resolve.cross st D (st.nextVfs + 1) W = some V ∧ name.drop (compLen name) = [] := by
  rcases Resolve.component_ok hcomponent (by simp [Exit.vn]) with ⟨W, V', hlook, hcross, hlink | hnext⟩
  . simp at hlink
  . unfold Resolve.nextname at hnext
    split at hnext
    . next hnil =>
      simp only [Resolve.Round.done.injEq, Exit.found.injEq] at hnext
      rw [hnext.2]
      exact ⟨W, hlook, hcross, hnil⟩
    . cases hnext

theorem round_nil {prev : Option Loc} {L : Loc} {name : Name} {D : Loc}
    (hround : Resolve.round st prev L name = some (.done e)) (he : e = .here D ∨ ∃ V, e = .tail D V)
    : name = [] := by
  have hnextname : ∀ {A B : Loc} {next : Name}, Resolve.nextname A B next ≠ .done e := by
    intro A B next heq
    unfold Resolve.nextname at heq
    split at heq
    . rcases he with rfl | ⟨V, rfl⟩
      . cases heq
      . cases heq
    . cases heq
  have hcomponent : ∀ {L : Loc}, Resolve.component st L name ≠ some (.done e) := by
    intro L heq
    have hvn : ∀ e', Resolve.Round.done e = .done e' → e'.vn ≠ none := by
      rintro e' heq
      rw [← Resolve.Round.done.inj heq]
      rcases he with rfl | ⟨V, rfl⟩
      . simp [Exit.vn]
      . simp [Exit.vn]
    rcases Resolve.component_ok heq hvn with ⟨_, _, _, _, hlink | hnext⟩
    . rcases he with rfl | ⟨V, rfl⟩
      . simp at hlink
      . simp at hlink
    . exact hnextname hnext.symm
  by_contra hne
  unfold Resolve.round at hround
  rw [if_neg hne] at hround
  split at hround
  . split at hround
    . cases hround
    . exact hnextname (Option.some.inj hround)
    . exact hcomponent hround
  . exact hcomponent hround

include h

theorem lookup_joined {fuel fuel' : Nat} {prev : Option Loc} {L : Loc} (hx : x.head? = some '/')
    (hprev : ∀ P, prev = some P → Placed own st P) (hL : Placed own st L)
    (hlookup : lookup st fuel prev L name = some e)
    (hhead : name.head? ≠ some '/') (hfuel : (joined x name).length < fuel')
    : ∃ prev' L' fuel'', Placed own st L' ∧
        round st prev' L' (lookupName st fuel prev L name) = some (.done e) ∧
        (joined x (lookupName st fuel prev L name)).length < fuel'' ∧
        lookup st fuel' prev L (joined x name) =
          lookup st fuel'' prev' L' (joined x (lookupName st fuel prev L name)) := by
  induction fuel generalizing fuel' prev L name with
  | zero => cases hlookup
  | succ fuel ih =>
    unfold lookup at hlookup
    unfold lookupName
    cases hround : round st prev L name with
    | none =>
      rw [hround] at hlookup
      cases hlookup
    | some R =>
      rw [hround] at hlookup
      cases R with
      | done e' =>
        rw [← Option.some.inj hlookup]
        exact ⟨prev, L, fuel', hL, hround, hfuel, rfl⟩
      | next D V nm =>
        dsimp only at hlookup ⊢
        have hdrop := round_next_ne hround
        have hne : name ≠ [] := by
          intro heq
          rw [heq] at hdrop
          exact hdrop List.drop_nil
        have hjoined := @round_joined st L prev x name (.next D V nm) hx hne
          (by rintro rfl; exact hdrop rfl) (by rintro rfl; exact absurd rfl hdrop) hround (by simp)
        have hnm := round_next_name hround
        rw [joined_of_ne hne] at hfuel ⊢
        cases fuel' with
        | zero => omega
        | succ fuel' =>
          have hshort : (joined x nm).length < fuel' := by
            have hlt := length_next_lt hne hhead
            have hle := @length_joined_le x nm
            rw [← hnm] at hlt
            rw [List.length_append] at hfuel
            omega
          conv => enter [1, prev', 1, L', 1, fuel'', 2, 2, 2, 1]; unfold lookup
          rw [hjoined]
          cases Placed.round h hprev hL hround with
          | next hD hV =>
            apply ih _ hV hlookup _ hshort
            . intro P hP
              rw [← Option.some.inj hP]
              apply hD
            . rw [hnm]
              apply head_skipSlashes

theorem lookup_link_joined {fuel fuel' : Nat} {prev : Option Loc} {L D W : Loc} {next : Name}
    (hx : x.head? = some '/') (hprev : ∀ P, prev = some P → Placed own st P) (hL : Placed own st L)
    (hlookup : lookup st fuel prev L name = some (.link D W next)) (hhead : name.head? ≠ some '/')
    (hfuel : (joined x name).length < fuel')
    : lookup st fuel' prev L (joined x name) = some (.link D W (next ++ x)) := by
  rcases lookup_joined h hx hprev hL hlookup hhead hfuel with ⟨prev', L', fuel'', hL', hround, hfuel, hsame⟩
  rw [hsame]
  generalize lookupName st fuel prev L name = nm at *
  rcases link_name h hL' hround with ⟨hdot, hdots⟩
  have hne : nm ≠ [] := by
    rintro rfl
    unfold round at hround
    rw [if_pos rfl] at hround
    split at hround
    . cases hround
    . cases hround
    . split at hround
      . cases hround
      . cases hround
  have hjoined := round_joined hx hne hdot (fun heq => absurd heq hdots) hround (by simp)
  rw [joined_of_ne hne] at hfuel ⊢
  cases fuel'' with
  | zero => omega
  | succ fuel'' =>
    unfold lookup
    rw [hjoined]
    rfl

omit h in
theorem lookup_stand {fuel : Nat} {prev : Option Loc} {L V : Loc} (hx : x.head? = some '/')
    (hskip : skipSlashes x ≠ []) (hround : round st prev L name = some (.done e)) (hstand : e.stand = some V)
    (hdir : ∀ D, e = .found D V → V.type st = .VDIR)
    (hlast : ∀ D W, e = .found D W → name ≠ ['.'] ∧ (name = ['.', '.'] → D.isRootvn st))
    (hfuel : (joined x name).length < fuel)
    : lookup st fuel prev L (joined x name) = lookup st ((skipSlashes x).length + 1) none V (skipSlashes x) := by
  have hnil : name = [] → L = V →
      lookup st fuel prev L (joined x name) = lookup st ((skipSlashes x).length + 1) none V (skipSlashes x) := by
    rintro rfl rfl
    have hjoined : joined x [] = skipSlashes x := rfl
    rw [hjoined] at hfuel ⊢
    rw [lookup_prev hskip prev none]
    exact lookup_fuel (head_skipSlashes x) hfuel (Nat.lt_succ_self _)
  cases e with
  | here D =>
    have hname := round_nil hround (Or.inl rfl)
    apply hnil hname
    rw [hname] at hround
    unfold round at hround
    rw [if_pos rfl] at hround
    have hV : D = V := Option.some.inj hstand
    rw [← hV]
    cases prev with
    | none =>
      rw [Option.some.injEq, Round.done.injEq, Exit.here.injEq] at hround
      exact hround
    | some P =>
      cases P with
      | old v => simp at hround
      | new vfs n =>
        dsimp only at hround
        split at hround
        . simp at hround
        . cases hround
  | tail D W =>
    have hname := round_nil hround (Or.inr ⟨W, rfl⟩)
    apply hnil hname
    rw [hname] at hround
    unfold round at hround
    rw [if_pos rfl] at hround
    have hV : W = V := Option.some.inj hstand
    rw [← hV]
    cases prev with
    | none => simp at hround
    | some P =>
      cases P with
      | old v =>
        rw [Option.some.injEq, Round.done.injEq, Exit.tail.injEq] at hround
        exact hround.2
      | new vfs n =>
        dsimp only at hround
        split at hround
        . rw [Option.some.injEq, Round.done.injEq, Exit.tail.injEq] at hround
          exact hround.2
        . cases hround
  | found D W =>
    have hV : W = V := Option.some.inj hstand
    subst hV
    rcases hlast D W rfl with ⟨hdot, hroot⟩
    rcases round_found hround with ⟨hne, hcase⟩
    have hdots : name = ['.', '.'] → ∃ D, up st (st.nextVfs + 1) L = some (.root D) := by
      intro heq
      rcases hcase with ⟨_, _, _, hup⟩ | ⟨hnot, _⟩
      . exact ⟨D, hup⟩
      . exact absurd ⟨by rw [heq], hroot heq⟩ hnot
    have hnext := round_joined hx hne hdot hdots hround (by
      intro D' W' heq
      rw [Round.done.injEq, Exit.found.injEq] at heq
      rw [← heq.2, hdir D rfl]
      simp)
    rw [joined_of_ne hne] at hfuel ⊢
    cases fuel with
    | zero => omega
    | succ fuel =>
      conv => lhs; unfold lookup
      rw [hnext]
      have hshort : (skipSlashes x).length < fuel := by
        have hle := (List.dropWhile_suffix (l := x) (· = '/')).length_le
        have hpos := List.length_pos_iff.mpr hne
        rw [List.length_append] at hfuel
        unfold skipSlashes
        omega
      change lookup st fuel (some D) W (skipSlashes x) = _
      rw [lookup_prev hskip (some D) none]
      exact lookup_fuel (head_skipSlashes x) hshort (Nat.lt_succ_self _)
  | _ => cases hstand

theorem namei_joined {fuel : Nat} {L : Option Loc} {V : Loc} (hx : x.head? = some '/') (hskip : skipSlashes x ≠ [])
    (hL : ∀ D, L = some D → Placed own st D) (hnamei : namei st fuel name L = some e) (hstand : e.stand = some V)
    (hdir : V.type st = .VDIR)
    (hfit : ∀ p ∈ copies st fuel name L, p.1 ≠ [] ∧ (p.1 ++ p.2).length + x.length < namei.bufsize)
    (hlast : ∀ D W, e = .found D W → nameiName st fuel name L ≠ ['.'] ∧
      (nameiName st fuel name L = ['.', '.'] → D.isRootvn st))
    : namei st fuel (joined x name) L =
        namei st (fuel - (copies st fuel name L).length) (skipSlashes x) (some V) := by
  induction fuel generalizing name L with
  | zero => cases hnamei
  | succ fuel ih =>
    rw [namei_succ] at hnamei ⊢
    rw [start_joined]
    unfold nameiName at hlast
    cases hstart : start st name L with
    | none =>
      rw [hstart] at hnamei
      cases hnamei
    | some P =>
      rw [hstart] at hnamei hlast
      dsimp only at hnamei hlast ⊢
      have hP := Placed.start h hL hstart
      cases hlookup : lookup st ((skipSlashes name).length + 1) none P (skipSlashes name) with
      | none =>
        rw [hlookup] at hnamei
        cases hnamei
      | some e' =>
        rw [hlookup] at hnamei hlast
        rw [skipSlashes_joined]
        rcases lookup_joined h hx (by simp) hP hlookup (head_skipSlashes name) (Nat.lt_succ_self _) with
          ⟨prev', L', fuel'', hL', hround, hfuel, hsame⟩
        have hend : ∀ {e : Exit}, e' = e → (∀ D W next, e ≠ .link D W next) → e.stand = some V →
            (∀ D W, e = .found D W →
              lookupName st ((skipSlashes name).length + 1) none P (skipSlashes name) ≠ ['.'] ∧
                (lookupName st ((skipSlashes name).length + 1) none P (skipSlashes name) = ['.', '.'] →
                  D.isRootvn st)) →
            finish st fuel (lookup st ((joined x (skipSlashes name)).length + 1) none P
                (joined x (skipSlashes name))) =
              namei st (fuel + 1 - (copies st (fuel + 1) name L).length) (skipSlashes x) (some V) := by
          intro e heq hne hstand hlast
          have hcopies : copies st (fuel + 1) name L = [] := by
            rw [copies, hstart]
            dsimp only
            rw [hlookup, heq]
            cases e with
            | link D W next => exact absurd rfl (hne D W next)
            | _ => rfl
          rw [hsame, lookup_stand hx hskip (heq ▸ hround) hstand (fun _ _ => hdir) hlast hfuel, hcopies, List.length_nil,
            Nat.sub_zero, namei_succ, skipSlashes_of_head (head_skipSlashes x)]
          unfold start
          rw [if_neg (head_skipSlashes x)]
        have he' := Placed.lookup h (by simp) hP hlookup
        cases e' with
        | link D W next =>
          have hcopies := copies_of_link fuel hstart hlookup
          rw [hcopies] at hfit ⊢
          rcases hfit _ List.mem_cons_self with ⟨hlink, hsize⟩
          dsimp only at hnamei hlast hlink hsize
          have hlinked := lookup_link_joined h hx (by simp) hP hlookup (head_skipSlashes name)
            (Nat.lt_succ_self _)
          rw [hlinked]
          unfold finish at hnamei ⊢
          dsimp only at hnamei ⊢
          rw [if_neg (by omega)] at hnamei
          rw [← List.append_assoc, List.length_append, if_neg (by omega), concat_append hlink, List.length_cons,
            Nat.add_sub_add_right]
          apply ih _ hnamei
          . intro p hp
            exact hfit p (List.mem_cons_of_mem _ hp)
          . exact hlast
          . intro D' hD'
            cases he' with
            | link hD hW =>
              rw [← Option.some.inj hD']
              apply hD
        | found D W =>
          have heq : Exit.found D W = e := Option.some.inj hnamei
          exact hend heq (by rw [← heq]; simp) hstand hlast
        | here D =>
          have heq : Exit.here D = e := Option.some.inj hnamei
          exact hend heq (by rw [← heq]; simp) hstand hlast
        | tail D W =>
          have heq : Exit.tail D W = e := Option.some.inj hnamei
          exact hend heq (by rw [← heq]; simp) hstand hlast
        | missing D nm len =>
          rw [← show Exit.missing D nm len = e from Option.some.inj hnamei] at hstand
          cases hstand
        | notdir D =>
          rw [← show Exit.notdir D = e from Option.some.inj hnamei] at hstand
          cases hstand

end Namei

end Resolve

end Fs
end Franklin
