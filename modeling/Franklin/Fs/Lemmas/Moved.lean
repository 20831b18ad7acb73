import Franklin.Fs.Lemmas.Dotdots

/-!
This module contains that a path walk takes the same way in two states whose vnodes and ramnodes correspond,
as long as it finds the same dentries.
-/

namespace Franklin
namespace Fs

def Exit.map (f : Loc → Loc) : Exit → Exit
  | found vdir vn => .found (f vdir) (f vn)
  | here vdir => .here (f vdir)
  | tail vdir vn => .tail (f vdir) (f vn)
  | link vdir vn rest => .link (f vdir) (f vn) rest
  | missing vdir name len => .missing (f vdir) name len
  | notdir vdir => .notdir (f vdir)

def Resolve.Up.map (f : Loc → Loc) : Resolve.Up → Resolve.Up
  | root L => .root (f L)
  | dir L => .dir (f L)

def Resolve.Round.map (f : Loc → Loc) : Resolve.Round → Resolve.Round
  | done e => .done (e.map f)
  | next vdir vn name => .next (f vdir) (f vn) name

structure Moved (own : Nat → Nat) (st s : St) (f : Loc → Loc) : Prop where
  node : ∀ L, Placed own st L → (f L).node s = L.node st
  type : ∀ L, Placed own st L → (f L).type s = L.type st
  vroot : ∀ L, Placed own st L → (f L).vroot s = L.vroot st
  mountedhere : ∀ L, Placed own st L → (f L).mountedhere s = L.mountedhere st
  isRootvn : ∀ L, Placed own st L → (f L).isRootvn s = L.isRootvn st
  vfs : ∀ L, Placed own st L → L.vroot st = true ∨ L.type st = .VDIR → (f L).vfs s = L.vfs st
  get : ∀ held vfs n, st.hier.Attached n → f (Loc.get st held vfs n) = Loc.get s (held.map f) vfs n
  old : ∀ v, (st.vnodes v).freed = false → f (.old v) = .old v ∧ (s.vnodes v).freed = false
  parent : ∀ n, st.hier.Attached n → (s.nodes n).parent = (st.nodes n).parent
  alive : ∀ n, st.hier.Attached n → (s.nodes n).freed = false
  link : ∀ n, st.hier.Attached n → (s.nodes n).link = (st.nodes n).link
  wild : ∀ n, st.hier.Attached n → (s.nodes n).wild = (st.nodes n).wild
  mountpoint : ∀ v, (s.vfss v).mountpoint = (st.vfss v).mountpoint
  root : ∀ v, (s.vfss v).root = (st.vfss v).root
  nextVfs : s.nextVfs = st.nextVfs
  follow : s.junk.follow = st.junk.follow
  rootfs : s.rootfs = st.rootfs

def SameFind (st s : St) (n : Nat) (name : Name) : Prop :=
  (ramfs_lookup.find name (compLen name) (s.nodes n).dentry).map (·.node) =
    (ramfs_lookup.find name (compLen name) (st.nodes n).dentry).map (·.node)

namespace Resolve

def lookupAsks (st : St) : Nat → Option Loc → Loc → Name → List (Loc × Name)
  | 0, _, _, _ => []
  | fuel + 1, prev, L, name =>
    match round st prev L name with
    | some (.next vdir vn rest) => (vdir, name) :: lookupAsks st fuel (some vdir) vn rest
    | _ => []

def asks (st : St) : Nat → Name → Option Loc → List (Loc × Name)
  | 0, _, _ => []
  | fuel + 1, name, L =>
    match start st name L with
    | none => []
    | some L =>
      let fuel' := (skipSlashes name).length + 1
      let before := lookupAsks st fuel' none L (skipSlashes name)
      match lookup st fuel' none L (skipSlashes name) with
      | some (.link vdir vn next) =>
        before ++ (vdir, lookupName st fuel' none L (skipSlashes name)) ::
          asks st fuel (namei.concat (st.nodes (vn.node st)).link next) (some vdir)
      | _ => before

end Resolve

namespace Moved

variable {own : Nat → Nat} {st s : St} {f : Loc → Loc} {L D V : Loc} {name : Name} {fuel : Nat}
  {prev : Option Loc} (h : Moved own st s f) (hgrove : Grove none own st)

omit h in
theorem nextname (D V : Loc) (next : Name)
    : Resolve.nextname (f D) (f V) next = (Resolve.nextname D V next).map f := by
  unfold Resolve.nextname
  split
  . rfl
  . rfl

include h hgrove

theorem up {U : Resolve.Up} (hL : Placed own st L) (hup : Resolve.up st fuel L = some U)
    : Resolve.up s fuel (f L) = some (U.map f) := by
  induction fuel generalizing L with
  | zero => cases hup
  | succ fuel ih =>
    unfold Resolve.up at hup ⊢
    rw [h.isRootvn L hL, h.vroot L hL]
    split at hup
    . next hroot =>
      rw [if_pos hroot, ← Option.some.inj hup]
      rfl
    . next hroot =>
      rw [if_neg hroot]
      split at hup
      . next hvroot =>
        rw [if_pos hvroot, ← Option.some.inj hup]
        rfl
      . next hvroot =>
        have hflag : L.vroot st = true := by simpa using hvroot
        rw [if_neg hvroot, h.vfs L hL (Or.inl hflag), h.mountpoint]
        cases hmp : (st.vfss (L.vfs st)).mountpoint with
        | ref v =>
          rw [hmp] at hup
          dsimp only at hup ⊢
          cases hfreed : (st.vnodes v).freed with
          | true =>
            rw [hfreed] at hup
            cases hup
          | false =>
            rw [hfreed, if_neg (by simp)] at hup
            rw [(h.old v hfreed).2, if_neg (by simp), ← (h.old v hfreed).1]
            apply ih _ hup
            apply Placed.old hgrove hfreed (hgrove.mountpoint _ v hmp hfreed (Or.inr hL.live)).2
        | _ =>
          rw [hmp] at hup
          cases hup

theorem cross (hD : Placed own st D) (hL : Placed own st L) (hcross : Resolve.cross st D fuel L = some V)
    : Resolve.cross s (f D) fuel (f L) = some (f V) := by
  induction fuel generalizing L with
  | zero => cases hcross
  | succ fuel ih =>
    unfold Resolve.cross at hcross ⊢
    rw [h.type L hL, h.mountedhere L hL]
    cases hmounted : if L.type st = .VDIR then L.mountedhere st else none with
    | none =>
      rw [hmounted] at hcross
      rw [Option.some.inj hcross]
    | some vfs =>
      rw [hmounted] at hcross
      dsimp only at hcross ⊢
      split at hmounted
      . cases L with
        | new w m => cases hmounted
        | old w =>
          have hfreed := hL.alive w rfl
          have hlive := (hgrove.covered w vfs hfreed hmounted).2.2.2.2 (by simp)
          rw [h.root, show [f D] = [D].map f from rfl, ← h.get _ _ _ (Or.inl hlive.1),
            if_neg (by simp [h.alive _ (Or.inl hlive.1)])]
          rw [if_neg (by simp [(hgrove.forest.secure (Or.inl hlive.1)).1])] at hcross
          apply ih (Covers.vfs_eq hgrove hD hfreed hmounted).1 hcross
      . cases hmounted

theorem look {r : Except Errno Loc} (hL : Placed own st L) (hfind : SameFind st s (L.node st) name)
    (hlook : Resolve.look st L name (compLen name) = some r)
    : Resolve.look s (f L) name (compLen name) = some (r.map f) := by
  have hget : ∀ n, n ≠ L.node st → st.hier.Attached n → L.type st = .VDIR →
      (if n = (f L).node s ∨ (s.nodes n).freed then none else some (.ok (Loc.get s [f L] ((f L).vfs s) n))) =
        some ((Except.ok (Loc.get st [L] (L.vfs st) n) : Except Errno Loc).map f) := by
    intro n hne hn hdir
    rw [h.node L hL, if_neg (not_or.mpr ⟨hne, by simp [h.alive n hn]⟩), h.vfs L hL (Or.inr hdir)]
    change _ = some (Except.ok (f (Loc.get st [L] (L.vfs st) n)))
    rw [h.get _ _ _ hn]
    rfl
  have hattached := hL.attached
  have hfound := fun V hV => hgrove.forest.attached_look hattached hL.type (hlook.trans (congrArg some hV))
    (V := V)
  unfold Resolve.look at hlook ⊢
  dsimp only at hlook ⊢
  rw [h.type L hL, if_neg (by rw [h.node L hL]; simp [h.alive _ hattached])]
  rw [if_neg (by simp [(hL.secure hgrove).1])] at hlook
  split at hlook
  . next hdir =>
    rw [if_pos hdir, ← Option.some.inj hlook]
    rfl
  . next hdir =>
    rw [if_neg hdir]
    rw [not_not] at hdir
    split at hlook
    . next hdot =>
      rw [if_pos hdot, ← Option.some.inj hlook]
      rfl
    . next hdot =>
      rw [if_neg hdot]
      split at hlook
      . next hdots =>
        rw [if_pos hdots]
        split at hlook
        . cases hlook
        . next hne =>
          have hparent := hfound _ (Option.some.inj hlook).symm
          rw [Loc.node_get hgrove.forest.inv] at hparent
          rw [← Option.some.inj hlook, h.node L hL, h.parent _ hattached]
          have := hget _ (fun heq => hne (Or.inl heq)) hparent hdir
          rw [h.node L hL] at this
          exact this
      . next hdots =>
        rw [if_neg hdots]
        unfold SameFind at hfind
        rw [h.node L hL, h.wild _ hattached]
        cases hst : ramfs_lookup.find name (compLen name) (st.nodes (L.node st)).dentry with
        | none =>
          rw [hst] at hfind hlook
          rw [Option.map_none, Option.map_eq_none_iff] at hfind
          rw [hfind]
          dsimp only at hlook ⊢
          split at hlook
          . cases hlook
          . next hwild =>
            rw [if_neg hwild, ← Option.some.inj hlook]
            rfl
        | some de =>
          rw [hst] at hfind hlook
          rw [Option.map_some, Option.map_eq_some_iff] at hfind
          rcases hfind with ⟨de', hde', hnode⟩
          rw [hde']
          dsimp only at hlook ⊢
          rw [hnode]
          split at hlook
          . cases hlook
          . next hne =>
            have hentry : st.hier.Attached de.node :=
              Or.inr ⟨_, Forest.mem_entries (List.mem_of_find?_eq_some hst)⟩
            rw [← Option.some.inj hlook]
            have := hget _ (fun heq => hne (Or.inl heq)) hentry hdir
            rw [h.node L hL] at this
            exact this

theorem component {R : Resolve.Round} (hL : Placed own st L) (hfind : SameFind st s (L.node st) name)
    (hR : Resolve.component st L name = some R) : Resolve.component s (f L) name = some (R.map f) := by
  unfold Resolve.component at hR ⊢
  dsimp only at hR ⊢
  cases hlook : Resolve.look st L name (compLen name) with
  | none =>
    rw [hlook] at hR
    cases hR
  | some r =>
    rw [hlook] at hR
    rw [h.look hgrove hL hfind hlook]
    cases r with
    | error e =>
      cases e with
      | ENOTDIR =>
        rw [← Option.some.inj hR]
        rfl
      | _ =>
        rw [← Option.some.inj hR]
        rfl
    | ok W =>
      have hW := Placed.look hgrove hL hlook
      dsimp only [Except.map] at hR ⊢
      cases hcross : Resolve.cross st L (st.nextVfs + 1) W with
      | none =>
        rw [hcross] at hR
        cases hR
      | some V =>
        have hV := (Placed.cross hgrove rfl hL hW hcross).1
        rw [hcross] at hR
        rw [h.nextVfs, h.cross hgrove hL hW hcross]
        dsimp only at hR ⊢
        rw [h.type V hV, h.follow]
        split at hR
        . next hlink =>
          rw [if_pos hlink, ← Option.some.inj hR]
          rfl
        . next hlink =>
          rw [if_neg hlink, ← Option.some.inj hR, nextname]

theorem round {R : Resolve.Round} (hL : Placed own st L) (hprev : ∀ P, prev = some P → Placed own st P)
    (hround : Resolve.round st prev L name = some R) (hfind : SameFind st s (R.vdir.node st) name)
    : Resolve.round s (prev.map f) (f L) name = some (R.map f) := by
  have hdirs : ∀ {X : Loc}, Placed own st X → Resolve.component st X name = some R →
      Resolve.component s (f X) name = some (R.map f) := by
    intro X hX hcomponent
    rw [Resolve.component_vdir hcomponent] at hfind
    apply h.component hgrove hX hfind hcomponent
  unfold Resolve.round at hround ⊢
  split at hround
  . next hname =>
    rw [if_pos hname]
    cases prev with
    | none =>
      rw [← Option.some.inj hround]
      rfl
    | some P =>
      have hP := hprev P rfl
      cases P with
      | old w =>
        rw [Option.map_some, (h.old w (hP.alive w rfl)).1, ← Option.some.inj hround]
        change some (Resolve.Round.done (Exit.tail (.old w) (f L))) =
          some (.done (Exit.tail (f (.old w)) (f L)))
        rw [(h.old w (hP.alive w rfl)).1]
      | new vfs n =>
        dsimp only at hround
        split at hround
        . next heq =>
          rw [← Option.some.inj hround, heq, Option.map_some]
          cases hfL : f L with
          | old v =>
            change _ = some (Resolve.Round.done (Exit.tail (f L) (f L)))
            rw [hfL]
          | new vfs' n' =>
            dsimp only
            rw [if_pos rfl]
            change _ = some (Resolve.Round.done (Exit.tail (f L) (f L)))
            rw [hfL]
        . cases hround
  . next hname =>
    rw [if_neg hname]
    split at hround
    . next hdotdot =>
      rw [if_pos hdotdot, h.nextVfs]
      cases hup : Resolve.up st (st.nextVfs + 1) L with
      | none =>
        rw [hup] at hround
        cases hround
      | some U =>
        rw [hup] at hround
        rw [h.up hgrove hL hup]
        cases U with
        | root X =>
          dsimp only [Resolve.Up.map] at hround ⊢
          rw [← Option.some.inj hround, nextname]
        | dir X => apply hdirs ((Placed.up hgrove hL).2 X hup) hround
    . next hdotdot =>
      rw [if_neg hdotdot]
      apply hdirs hL hround

theorem lookup {e : Exit} (hprev : ∀ P, prev = some P → Placed own st P) (hL : Placed own st L)
    (hlookup : Resolve.lookup st fuel prev L name = some e)
    (hasks : ∀ a ∈ Resolve.lookupAsks st fuel prev L name, Placed own st a.1 →
      SameFind st s (a.1.node st) a.2)
    : ∃ prev' L' fuel', Placed own st L' ∧ (∀ P, prev' = some P → Placed own st P) ∧
        Resolve.round st prev' L' (Resolve.lookupName st fuel prev L name) = some (.done e) ∧
        Resolve.lookup s fuel (prev.map f) (f L) name =
          Resolve.lookup s (fuel' + 1) (prev'.map f) (f L') (Resolve.lookupName st fuel prev L name) := by
  induction fuel generalizing prev L name with
  | zero => cases hlookup
  | succ fuel ih =>
    unfold Resolve.lookup at hlookup
    unfold Resolve.lookupAsks at hasks
    unfold Resolve.lookupName
    cases hround : Resolve.round st prev L name with
    | none =>
      rw [hround] at hlookup
      cases hlookup
    | some R =>
      rw [hround] at hlookup hasks
      cases R with
      | done e' =>
        rw [← Option.some.inj hlookup]
        exact ⟨prev, L, fuel, hL, hprev, hround, rfl⟩
      | next D V nm =>
        dsimp only at hlookup hasks ⊢
        cases Placed.round hgrove hprev hL hround with
        | next hD hV =>
          have hmoved := h.round hgrove hL hprev hround (hasks _ List.mem_cons_self hD)
          have hstep : Resolve.lookup s (fuel + 1) (prev.map f) (f L) name =
              Resolve.lookup s fuel ((some D).map f) (f V) nm := by
            rw [Resolve.lookup, hmoved]
            rfl
          rw [hstep]
          apply ih _ hV hlookup
          . intro a ha
            apply hasks a (List.mem_cons_of_mem _ ha)
          . intro P hP
            rw [← Option.some.inj hP]
            apply hD

theorem start {L' : Option Loc} (hstart : Resolve.start st name L' = some V)
    : Resolve.start s name (L'.map f) = some (f V) := by
  unfold Resolve.start at hstart ⊢
  rw [h.rootfs]
  split at hstart
  . next hslash =>
    rw [if_pos hslash]
    cases hrootfs : st.rootfs with
    | none =>
      rw [hrootfs] at hstart
      cases hstart
    | some rf =>
      rw [hrootfs] at hstart
      have hlive := (hgrove.rootfs rf hrootfs).2.2.2 (by simp)
      have hget := h.get [] rf _ (Or.inl hlive.1)
      dsimp only at hstart ⊢
      rw [if_neg (by simp [(hgrove.forest.secure (Or.inl hlive.1)).1]), Option.some.injEq] at hstart
      rw [h.root, if_neg (by simp [h.alive _ (Or.inl hlive.1)]), ← hstart, hget]
      rfl
  . next hslash =>
    rw [if_neg hslash, hstart]
    rfl

theorem namei {e : Exit} {L' : Option Loc} (hL : ∀ D, L' = some D → Placed own st D)
    (hnamei : Resolve.namei st fuel name L' = some e)
    (hasks : ∀ a ∈ Resolve.asks st fuel name L', Placed own st a.1 → SameFind st s (a.1.node st) a.2)
    : ∃ prev' L'' fuel' fuel'', Placed own st L'' ∧ (∀ P, prev' = some P → Placed own st P) ∧
        Resolve.round st prev' L'' (Resolve.nameiName st fuel name L') = some (.done e) ∧
        Resolve.namei s fuel name (L'.map f) =
          Resolve.finish s fuel'' (Resolve.lookup s (fuel' + 1) (prev'.map f) (f L'')
            (Resolve.nameiName st fuel name L')) := by
  induction fuel generalizing name L' with
  | zero => cases hnamei
  | succ fuel ih =>
    rw [Resolve.namei_succ] at hnamei ⊢
    unfold Resolve.asks at hasks
    unfold Resolve.nameiName
    cases hstart : Resolve.start st name L' with
    | none =>
      rw [hstart] at hnamei
      cases hnamei
    | some V =>
      rw [hstart] at hnamei hasks
      rw [h.start hgrove hstart]
      dsimp only at hnamei hasks ⊢
      have hV := Placed.start hgrove hL hstart
      cases hlookup : Resolve.lookup st ((skipSlashes name).length + 1) none V (skipSlashes name) with
      | none =>
        rw [hlookup] at hnamei
        cases hnamei
      | some e' =>
        rw [hlookup] at hnamei hasks
        have hbefore : ∀ a ∈ Resolve.lookupAsks st ((skipSlashes name).length + 1) none V (skipSlashes name),
            Placed own st a.1 → SameFind st s (a.1.node st) a.2 := by
          intro a ha
          cases e' with
          | link _ _ _ => exact hasks a (List.mem_append_left _ ha)
          | _ => exact hasks a ha
        rcases h.lookup hgrove (by simp) hV hlookup hbefore with
          ⟨prev', L'', fuel', hL'', hprev', hround, hsame⟩
        rw [Option.map_none] at hsame
        have he' := Placed.lookup hgrove (by simp) hV hlookup
        cases e' with
        | link D W next =>
          dsimp only at hasks ⊢
          cases he' with
          | link hD hW =>
            have hmoved := h.round hgrove hL'' hprev' hround
              (hasks _ (List.mem_append_right _ List.mem_cons_self) hD)
            have hlink : Resolve.lookup s (fuel' + 1) (prev'.map f) (f L'')
                (Resolve.lookupName st ((skipSlashes name).length + 1) none V (skipSlashes name)) =
                some (.link (f D) (f W) next) := by
              rw [Resolve.lookup, hmoved]
              rfl
            rw [hsame, hlink]
            unfold Resolve.finish at hnamei ⊢
            dsimp only at hnamei ⊢
            rw [h.node W hW, h.link _ hW.attached]
            split at hnamei
            . cases hnamei
            . next hsize =>
              rw [if_neg hsize]
              apply ih _ hnamei
              . intro a ha
                apply hasks a (List.mem_append_right _ (List.mem_cons_of_mem _ ha))
              . intro P hP
                rw [← Option.some.inj hP]
                apply hD
        | found D W =>
          rw [← show Exit.found D W = e from Option.some.inj hnamei]
          exact ⟨prev', L'', fuel', fuel, hL'', hprev', hround, by rw [hsame]⟩
        | here D =>
          rw [← show Exit.here D = e from Option.some.inj hnamei]
          exact ⟨prev', L'', fuel', fuel, hL'', hprev', hround, by rw [hsame]⟩
        | tail D W =>
          rw [← show Exit.tail D W = e from Option.some.inj hnamei]
          exact ⟨prev', L'', fuel', fuel, hL'', hprev', hround, by rw [hsame]⟩
        | missing D nm len =>
          rw [← show Exit.missing D nm len = e from Option.some.inj hnamei]
          exact ⟨prev', L'', fuel', fuel, hL'', hprev', hround, by rw [hsame]⟩
        | notdir D =>
          rw [← show Exit.notdir D = e from Option.some.inj hnamei]
          exact ⟨prev', L'', fuel', fuel, hL'', hprev', hround, by rw [hsame]⟩

theorem resolve {e : Exit} {path : Name} (hresolve : Fs.resolve st path fuel = some e)
    (hsame : ∀ n name, SameFind st s n name) : Fs.resolve s path fuel = some (e.map f) := by
  rcases h.namei hgrove (by simp) hresolve (fun _ _ _ => hsame _ _) with
    ⟨prev', L'', fuel', fuel'', hL'', hprev', hround, hwalk⟩
  have hmoved := h.round hgrove hL'' hprev' hround (hsame _ _)
  unfold Fs.resolve
  rw [Option.map_none] at hwalk
  rw [hwalk, Resolve.lookup, hmoved]
  cases e with
  | link D V next => exact absurd rfl (Resolve.namei_ne_link hresolve D V next)
  | _ => rfl

end Moved

end Fs
end Franklin
