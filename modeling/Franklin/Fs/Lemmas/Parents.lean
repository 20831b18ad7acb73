import Franklin.Fs.Lemmas.Mounting

/-!
This module contains that the parent with which a path walk ends is a directory, unless the walk ends because
it is none, and that crossing mountpoints leads from different vnodes of a file system to different ones.
-/

namespace Franklin
namespace Fs

def Exit.Inside (s : St) (e : Exit) : Prop :=
  e = .notdir e.vdir ∨ e.vdir.type s = .VDIR

def Resolve.Round.Inside (s : St) : Resolve.Round → Prop
  | .done e => e.Inside s
  | .next vdir _ _ => vdir.type s = .VDIR

theorem Resolve.type_of_look {s : St} {L : Loc} {name : Name} {len : Nat} {r : Except Errno Loc}
    (h : Resolve.look s L name len = some r) (hr : r ≠ .error .ENOTDIR) : L.type s = .VDIR := by
  unfold Resolve.look at h
  dsimp only at h
  split at h
  . cases h
  split at h
  . exact absurd (Option.some.inj h).symm hr
  . next htype => simpa using htype

theorem Resolve.alive_of_look {s : St} {L : Loc} {name : Name} {len : Nat} {r : Except Errno Loc}
    (h : Resolve.look s L name len = some r) : (s.nodes (L.node s)).freed = false := by
  unfold Resolve.look at h
  dsimp only at h
  split at h
  . cases h
  . next hfreed => simpa using hfreed

theorem Resolve.nextname_inside {s : St} {D V : Loc} {next : Name} (hD : D.type s = .VDIR)
    : (Resolve.nextname D V next).Inside s := by
  unfold Resolve.nextname
  split
  . exact Or.inr hD
  . exact hD

theorem Resolve.component_inside {s : St} {L : Loc} {name : Name} {R : Resolve.Round}
    (h : Resolve.component s L name = some R) : R.Inside s := by
  unfold Resolve.component at h
  dsimp only at h
  cases hlook : Resolve.look s L name (compLen name) with
  | none =>
    rw [hlook] at h
    cases h
  | some r =>
    rw [hlook] at h
    by_cases hr : r = .error .ENOTDIR
    . rw [hr] at h
      rw [← Option.some.inj h]
      exact Or.inl rfl
    . have hdir := Resolve.type_of_look hlook hr
      split at h
      . cases h
      . next heq => exact absurd (Option.some.inj heq) hr
      . rw [← Option.some.inj h]
        exact Or.inr hdir
      . split at h
        . cases h
        . split at h
          . rw [← Option.some.inj h]
            exact Or.inr hdir
          . rw [← Option.some.inj h]
            apply Resolve.nextname_inside hdir

theorem Resolve.namei_ne_link {s : St} {fuel : Nat} {name : Name} {L : Option Loc} {e : Exit}
    (h : Resolve.namei s fuel name L = some e) (D V : Loc) (next : Name) : e ≠ .link D V next := by
  induction fuel generalizing name L with
  | zero => cases h
  | succ fuel ih =>
    unfold Resolve.namei at h
    split at h
    . cases h
    . split at h
      . cases h
      . dsimp only at h
        split at h
        . cases h
        . apply ih h
      . next e' hne hlookup =>
        rw [← Option.some.inj h]
        apply hne

namespace Placed

variable {own : Nat → Nat} {s : St} {L V : Loc} {prev L' : Option Loc} {name : Name} {fuel : Nat}
  {e : Exit} (h : Grove none own s)

include h

omit h in
theorem type_of_live {vfs : Nat} (hL : Placed own s L) (hlive : Live own s vfs)
    (hnode : L.node s = (s.vfss vfs).root) : L.type s = .VDIR := by
  have hroot := hlive.1
  rw [← hnode] at hroot
  have hdir : (s.nodes (L.node s)).type = .VDIR := by
    simpa [St.hier_node, RamNode.hnode] using hroot.2.1
  rw [hL.type, hdir]

theorem round_inside {R : Resolve.Round} (hL : Placed own s L) (hprev : ∀ P, prev = some P → P.type s = .VDIR)
    (hfirst : prev = none → L.type s = .VDIR) (hround : Resolve.round s prev L name = some R)
    : R.Inside s := by
  unfold Resolve.round at hround
  split at hround
  . cases prev with
    | none =>
      rw [← Option.some.inj hround]
      exact Or.inr (hfirst rfl)
    | some P =>
      cases P with
      | old w =>
        rw [← Option.some.inj hround]
        exact Or.inr (hprev _ rfl)
      | new vfs n =>
        dsimp only at hround
        split at hround
        . next heq =>
          rw [← Option.some.inj hround, ← heq]
          exact Or.inr (hprev _ rfl)
        . cases hround
  . split at hround
    . cases hup : Resolve.up s (s.nextVfs + 1) L with
      | none =>
        rw [hup] at hround
        cases hround
      | some U =>
        rw [hup] at hround
        cases U with
        | root W =>
          have hW := (up h hL).1 W hup
          rcases up_root hup with ⟨v, rfl, hrootvn⟩
          rcases h.rootvn v hrootvn (hW.alive v rfl) with ⟨rf, _, hlive, hdata⟩
          rw [← Option.some.inj hround]
          apply Resolve.nextname_inside
          apply hW.type_of_live hlive hdata
        | dir W => apply Resolve.component_inside hround
    . apply Resolve.component_inside hround

theorem lookup_inside (hL : Placed own s L) (hprevPlaced : ∀ P, prev = some P → Placed own s P)
    (hprev : ∀ P, prev = some P → P.type s = .VDIR) (hfirst : prev = none → L.type s = .VDIR)
    (hlookup : Resolve.lookup s fuel prev L name = some e) : e.Inside s := by
  induction fuel generalizing prev L name with
  | zero => cases hlookup
  | succ fuel ih =>
    unfold Resolve.lookup at hlookup
    cases hround : Resolve.round s prev L name with
    | none =>
      rw [hround] at hlookup
      cases hlookup
    | some R =>
      rw [hround] at hlookup
      have hinside := round_inside h hL hprev hfirst hround
      have hplaced := round h hprevPlaced hL hround
      cases hplaced with
      | done he =>
        rw [← Option.some.inj hlookup]
        apply hinside
      | next hD hV =>
        apply ih hV _ _ (by simp) hlookup
        . intro P hP
          rw [← Option.some.inj hP]
          apply hD
        . intro P hP
          rw [← Option.some.inj hP]
          apply hinside

theorem start_dir (hL : ∀ D, L' = some D → D.type s = .VDIR) (hplaced : ∀ D, L' = some D → Placed own s D)
    (hstart : Resolve.start s name L' = some V) : V.type s = .VDIR := by
  have hV := start h hplaced hstart
  unfold Resolve.start at hstart
  split at hstart
  . cases hrootfs : s.rootfs with
    | none =>
      rw [hrootfs] at hstart
      cases hstart
    | some rf =>
      rw [hrootfs] at hstart
      dsimp only at hstart
      split at hstart
      . cases hstart
      have heq := Option.some.inj hstart
      apply hV.type_of_live ((h.rootfs rf hrootfs).2.2.2 (by simp))
      rw [← heq, Loc.node_get h.forest.inv]
  . apply hL V hstart

theorem namei_inside (hL : ∀ D, L' = some D → D.type s = .VDIR) (hplaced : ∀ D, L' = some D → Placed own s D)
    (hnamei : Resolve.namei s fuel name L' = some e) : e.Inside s := by
  induction fuel generalizing name L' with
  | zero => cases hnamei
  | succ fuel ih =>
    unfold Resolve.namei at hnamei
    cases hstart : Resolve.start s name L' with
    | none =>
      rw [hstart] at hnamei
      cases hnamei
    | some V =>
      rw [hstart] at hnamei
      dsimp only at hnamei
      cases hlookup : Resolve.lookup s ((skipSlashes name).length + 1) none V (skipSlashes name) with
      | none =>
        rw [hlookup] at hnamei
        cases hnamei
      | some e' =>
        rw [hlookup] at hnamei
        have hV := start h hplaced hstart
        have hVdir := start_dir h hL hplaced hstart
        have hinside := lookup_inside h hV (by simp) (by simp) (fun _ => hVdir) hlookup
        have he' := lookup h (by simp) hV hlookup
        cases he' with
        | link hD hW =>
          dsimp only at hnamei
          split at hnamei
          . cases hnamei
          . apply ih _ _ hnamei
            . intro P hP
              rw [← Option.some.inj hP]
              exact hinside.resolve_left (by simp)
            . intro P hP
              rw [← Option.some.inj hP]
              apply hD
        | found hD hW huncovered =>
          rw [← Option.some.inj hnamei]
          apply hinside
        | here hD =>
          rw [← Option.some.inj hnamei]
          apply hinside
        | tail hD hW =>
          rw [← Option.some.inj hnamei]
          apply hinside
        | missing hD hdir =>
          rw [← Option.some.inj hnamei]
          apply hinside
        | notdir hD =>
          rw [← Option.some.inj hnamei]
          apply hinside

theorem resolve_inside (hresolve : Fs.resolve s name fuel = some e) : e.Inside s :=
  namei_inside h (by simp) (by simp) hresolve

end Placed

section Cross

variable {st : St} {own : Nat → Nat} {D L V : Loc} (h : Grove none own st)

def Covers (st : St) (D L R : Loc) : Prop :=
  ∃ w vfs, L = .old w ∧ (st.vnodes w).freed = false ∧ (st.vnodes w).mountedhere = some vfs ∧
    R = Loc.get st [D] vfs (st.vfss vfs).root

include h

theorem Covers.vfs_eq {w vfs : Nat} (hD : Placed own st D) (hfreed : (st.vnodes w).freed = false)
    (hmounted : (st.vnodes w).mountedhere = some vfs)
    : Placed own st (Loc.get st [D] vfs (st.vfss vfs).root) ∧
        (Loc.get st [D] vfs (st.vfss vfs).root).vfs st = vfs ∧
        (Loc.get st [D] vfs (st.vfss vfs).root).type st = .VDIR := by
  rcases h.covered w vfs hfreed hmounted with ⟨_, _, hlt, _, hlive⟩
  have hlive := hlive (by simp)
  have hnode : (Loc.get st [D] vfs (st.vfss vfs).root).node st = (st.vfss vfs).root :=
    Loc.node_get h.forest.inv _ _ _
  have hroot : Placed own st (Loc.get st [D] vfs (st.vfss vfs).root) := by
    apply Placed.get h
    . intro L' hL'
      rw [List.mem_singleton] at hL'
      rw [hL']
      apply hD
    . exact Or.inl hlive.1
    . intro _
      exact hlive.2.symm
    . apply hlive
  have hdir := hroot.type_of_live hlive hnode
  have hvfs := hroot.vfs hdir
  rw [hnode, hlive.2] at hvfs
  exact ⟨hroot, hvfs, hdir⟩

theorem Covers.vfs_lt {R : Loc} (hD : Placed own st D) (hcovers : Covers st D L R) : L.vfs st < R.vfs st := by
  rcases hcovers with ⟨w, vfs, rfl, hfreed, hmounted, rfl⟩
  rcases Covers.vfs_eq h hD hfreed hmounted with ⟨_, hvfs, _⟩
  rw [hvfs]
  exact (h.covered w vfs hfreed hmounted).2.2.1

theorem Covers.eq {L' R : Loc} (hD : Placed own st D) (hcovers : Covers st D L R)
    (hcovers' : Covers st D L' R) : L = L' := by
  rcases hcovers with ⟨w, vfs, rfl, hfreed, hmounted, rfl⟩
  rcases hcovers' with ⟨w', vfs', rfl, hfreed', hmounted', hsame⟩
  have hvfs := (Covers.vfs_eq h hD hfreed hmounted).2.1
  have hvfs' := (Covers.vfs_eq h hD hfreed' hmounted').2.1
  rw [← hsame, hvfs] at hvfs'
  subst hvfs'
  have hmp := (h.covered w _ hfreed hmounted).1
  rw [(h.covered w' _ hfreed' hmounted').1, Ptr.ref.injEq] at hmp
  rw [hmp]

theorem Covers.lt_of_chain {L V : Loc} (hD : Placed own st D) (hchain : Relation.TransGen (Covers st D) L V)
    : L.vfs st < V.vfs st := by
  induction hchain with
  | single hcovers => apply Covers.vfs_lt h hD hcovers
  | tail _ hcovers ih => exact Nat.lt_trans ih (Covers.vfs_lt h hD hcovers)

theorem Covers.eq_of_chain {L' : Loc} (hD : Placed own st D) (hchain : Relation.ReflTransGen (Covers st D) L V)
    (hchain' : Relation.ReflTransGen (Covers st D) L' V) (hvfs : L.vfs st = L'.vfs st) : L = L' := by
  induction hchain with
  | refl =>
    rcases Relation.reflTransGen_iff_eq_or_transGen.mp hchain' with heq | hlt
    . exact heq
    . have := Covers.lt_of_chain h hD hlt
      omega
  | tail hLX hXV ih =>
    cases hchain' with
    | refl =>
      have := Covers.lt_of_chain h hD (Relation.TransGen.tail' hLX hXV)
      omega
    | tail hLX' hXV' =>
      have hX := Covers.eq h hD hXV hXV'
      rw [← hX] at hLX'
      apply ih hLX'

theorem Resolve.cross_chain {fuel : Nat} (hD : Placed own st D) (hL : Placed own st L)
    (hcross : Resolve.cross st D fuel L = some V) : Relation.ReflTransGen (Covers st D) L V := by
  induction fuel generalizing L with
  | zero => cases hcross
  | succ fuel ih =>
    unfold Resolve.cross at hcross
    split at hcross
    . rw [Option.some.inj hcross]
    . next vfs hsome =>
      split at hsome
      . cases L with
        | new w m => cases hsome
        | old w =>
          have hfreed := hL.alive w rfl
          have hroot := (Covers.vfs_eq h hD hfreed hsome).1
          split at hcross
          . cases hcross
          exact Relation.ReflTransGen.head ⟨w, vfs, rfl, hfreed, hsome, rfl⟩ (ih hroot hcross)
      . cases hsome

theorem Resolve.cross_some {fuel : Nat} (hD : Placed own st D) (hL : Placed own st L)
    (hfuel : st.nextVfs < fuel + L.vfs st) (hpos : 0 < fuel) : ∃ V, Resolve.cross st D fuel L = some V := by
  induction fuel generalizing L with
  | zero => omega
  | succ fuel ih =>
    unfold Resolve.cross
    split
    . exact ⟨L, rfl⟩
    . next vfs hsome =>
      split at hsome
      . cases L with
        | new w m => cases hsome
        | old w =>
          have hfreed := hL.alive w rfl
          rcases h.covered w vfs hfreed hsome with ⟨_, _, hlt, hlt', hlive⟩
          have halive := (h.forest.secure (Or.inl (hlive (by simp)).1)).1
          rcases Covers.vfs_eq h hD hfreed hsome with ⟨hroot, hvfs, _⟩
          change st.nextVfs < fuel + 1 + (st.vnodes w).vfs at hfuel
          rw [if_neg (by simp [halive])]
          apply ih hroot
          . rw [hvfs]
            omega
          . omega
      . cases hsome

end Cross

end Fs
end Franklin
