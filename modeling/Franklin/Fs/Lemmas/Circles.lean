import Mathlib.Data.FinEnum
import Mathlib.Data.Set.Finite.List
import Franklin.Lib.Orbit
import Franklin.Fs.Lemmas.Faults

/-!
This module contains that a path walk ends unless its symbolic links lead it to a path and directory at which
it has been before.
-/

namespace Franklin
namespace Fs

/--
The path that a round of `namei` goes on with behind a symbolic link, and the directory that it starts in.
-/
def Resolve.relink (st : St) (c : Name × Option Loc) : Option (Name × Option Loc) :=
  match start st c.1 c.2 with
  | none => none
  | some L =>
    match lookup st ((skipSlashes c.1).length + 1) none L (skipSlashes c.1) with
    | some (.link vdir vn next) =>
      let link := (st.nodes (vn.node st)).link
      if namei.bufsize ≤ (link ++ next).length then
        none
      else
        some (namei.concat link next, some vdir)
    | _ => none

def Terminates (st : St) (path : Name) : Prop :=
  ∃ fuel r s, namei path fuel st = .ok r s ∧ (r.1 = none → ∃ v, r.2.vn = some v)

/--
`namei` comes to an access that goes wrong, like the part of a path that does not fit in its buffer. Where the
program goes from there is not known.
-/
def Trips (st : St) (path : Name) : Prop :=
  ∃ fuel s, namei path fuel st = .error .fault s

section Placed

variable {own : Nat → Nat} {st s : St} {c c' : Name × Option Loc} {L : Option Loc} {name : Name}

theorem Resolve.relink_placed (hgrove : Grove none own st) (hc : ∀ D, c.2 = some D → Placed own st D)
    (h : relink st c = some c') : c'.1.length < namei.bufsize ∧ ∃ D, c'.2 = some D ∧ Placed own st D := by
  unfold relink at h
  cases hstart : start st c.1 c.2 with
  | none =>
    rw [hstart] at h
    cases h
  | some V =>
    rw [hstart] at h
    dsimp only at h
    have hV := Placed.start hgrove hc hstart
    cases hlookup : lookup st ((skipSlashes c.1).length + 1) none V (skipSlashes c.1) with
    | none =>
      rw [hlookup] at h
      cases h
    | some e =>
      rw [hlookup] at h
      have he := Placed.lookup hgrove (by simp) hV hlookup
      cases e with
      | link D W next =>
        dsimp only at h
        split at h
        . cases h
        . next hsize =>
          rw [← Option.some.inj h]
          cases he with
          | link hD _ =>
            refine ⟨?_, D, rfl, hD⟩
            unfold namei.concat
            dsimp only
            split
            . decide
            . omega
      | _ => cases h

theorem Resolve.orbit_placed (hgrove : Grove none own st) (hc : ∀ D, c.2 = some D → Placed own st D) (k : Nat)
    (h : orbit (relink st) c (k + 1) = some c')
    : c'.1.length < namei.bufsize ∧ ∃ D, c'.2 = some D ∧ Placed own st D := by
  induction k generalizing c' with
  | zero =>
    rw [orbit_succ] at h
    cases hrelink : relink st c with
    | none =>
      rw [hrelink] at h
      cases h
    | some c'' =>
      rw [hrelink, Option.bind_some] at h
      rw [← Option.some.inj h]
      apply relink_placed hgrove hc hrelink
  | succ k ih =>
    rw [orbit] at h
    rcases Option.bind_eq_some_iff.mp h with ⟨c'', hbefore, hrelink⟩
    rcases ih hbefore with ⟨_, D, hD, hplaced⟩
    apply relink_placed hgrove _ hrelink
    intro D' hD'
    rw [hD, Option.some.injEq] at hD'
    rw [← hD']
    apply hplaced

def locs (st : St) : Set Loc :=
  {L | (∃ v, v < st.nextVnode ∧ L = .old v) ∨ ∃ vfs n, vfs < st.nextVfs ∧ n < st.nextNode ∧ L = .new vfs n}

theorem Placed.mem_locs (hgrove : Grove none own st) {L : Loc} (hL : Placed own st L) : L ∈ locs st := by
  cases L with
  | old v => exact Or.inl ⟨v, hgrove.lt_of_alive (hL.alive v rfl), rfl⟩
  | new vfs n =>
    have hlt := (hgrove.roots _ hL.live.1).1
    rw [hL.live.2] at hlt
    have hnode := hL.attached.lt_next hgrove.forest.wf
    exact Or.inr ⟨vfs, n, hlt, hnode, rfl⟩

theorem locs_finite (st : St) : (locs st).Finite := by
  have hold := (Set.finite_lt_nat st.nextVnode).image Loc.old
  have hnew := ((Set.finite_lt_nat st.nextVfs).prod (Set.finite_lt_nat st.nextNode)).image
    fun p => Loc.new p.1 p.2
  apply (hold.union hnew).subset
  rintro L (⟨v, hv, rfl⟩ | ⟨vfs, n, hvfs, hn, rfl⟩)
  . exact Or.inl ⟨v, hv, rfl⟩
  . exact Or.inr ⟨(vfs, n), ⟨hvfs, hn⟩, rfl⟩

theorem Resolve.ends_iff (hgrove : Grove none own st) (path : Name)
    : (∃ k, orbit (relink st) (path, none) k = none) ↔ ¬ Circles (relink st) (path, none) := by
  have hchars : Finite Char := Finite.of_injective Char.val (fun _ _ h => Char.ext h)
  have hpaths : {name : Name | name.length < namei.bufsize}.Finite := List.finite_length_lt Char namei.bufsize
  apply Franklin.ends_iff (hpaths.prod ((locs_finite st).image some))
  intro k c hc
  rcases orbit_placed hgrove (by simp) k hc with ⟨hlength, D, hD, hplaced⟩
  refine ⟨hlength, ?_⟩
  rw [hD]
  exact ⟨D, hplaced.mem_locs hgrove, rfl⟩

end Placed

section Loop

variable {own : Nat → Nat} {st s : St} {vn : Option Nat} {L : Option Loc} {name : Name}
  (hgrove : Grove none own st) (hquiet : Quiet st)

include hgrove hquiet

theorem Starting.start_fault (h : Starting st s vn L) (hnone : Resolve.start st name L = none)
    : wp (namei.start name vn) (fun _ _ => False) (fun e _ => e = .fault) s := by
  unfold Resolve.start at hnone
  unfold namei.start
  split at hnone
  . next hslash =>
    rw [if_pos hslash]
    have hput : wp (vputOpt vn) (fun _ s' => Walked st s' [] [] []) (fun e _ => e = Stop.fault) s := by
      cases h with
      | first h => apply h
      | behindLink d D h =>
        apply wp_of_quiet hquiet id
        apply wp_mono (h.wp_vput hgrove.forest.inv)
        . intro _ s1 hs1
          simpa using hs1
        . intro e s1 hs1
          apply hs1
    apply wp_bind_of hput
    intro _ s1 hs1
    rw [wp_bind, wp_getSt, hs1.same.rootfs]
    cases hrootfs : st.rootfs with
    | none => exact rfl
    | some rf =>
      -- the root directory is not freed
      rw [hrootfs] at hnone
      have hlive := (hgrove.rootfs rf hrootfs).2.2.2 (by simp)
      dsimp only at hnone
      rw [if_neg (by simp [(hgrove.forest.secure (Or.inl hlive.1)).1])] at hnone
      cases hnone
  . next hslash =>
    rw [if_neg hslash]
    cases h with
    | first h => exact rfl
    | behindLink d D h => cases hnone

theorem Starting.loop_ends (h : Starting st s vn L) (hL : ∀ D, L = some D → Placed own st D) (nd : Nameidata)
    (fuel : Nat)
    : wp (namei.loop fuel name vn nd)
        (fun r _ => orbit (Resolve.relink st) (name, L) fuel = none ∧ (r.1 = none → ∃ v, r.2.vn = some v))
        (fun e _ => if orbit (Resolve.relink st) (name, L) fuel = none then e = .fault else e = .fuel) s := by
  have hinv := hgrove.forest.inv
  induction fuel generalizing s vn L name nd with
  | zero =>
    unfold namei.loop
    rw [wp_throw, if_neg (by simp [orbit])]
  | succ fuel ih =>
    have hstop : Resolve.relink st (name, L) = none → ∀ {α : Type} {x : Prog α} {Q : α → St → Prop} {s : St},
        wp x (fun _ _ => False) (fun e _ => e = Stop.fault) s →
        wp x Q (fun e _ => if orbit (Resolve.relink st) (name, L) (fuel + 1) = none then
          e = .fault else e = .fuel) s := by
      intro hnone α x Q s hx
      rw [orbit_succ_of_none hnone]
      apply wp_mono hx
      . intro _ _ hfalse
        exact hfalse.elim
      . intro e _ he
        rw [if_pos rfl, he]
    unfold namei.loop
    cases hstart : Resolve.start st name L with
    | none =>
      have hnone : Resolve.relink st (name, L) = none := by
        unfold Resolve.relink
        rw [hstart]
      apply wp_bind_of (hstop hnone (h.start_fault hgrove hquiet hstart)) (Q := fun _ _ => False)
      intro _ _ hfalse
      exact hfalse.elim
    | some V =>
      have hV := Placed.start hgrove hL hstart
      apply wp_bind_of (wp_of_quiet hquiet (by simp [hstart]) (h.wp_start hinv name))
      intro v s1 hs1
      rcases hs1 with ⟨V', hV', hs1⟩
      rw [hstart, Option.some.injEq] at hV'
      subst hV'
      cases hlookup : Resolve.lookup st ((skipSlashes name).length + 1) none V (skipSlashes name) with
      | none =>
        have hnone : Resolve.relink st (name, L) = none := by
          unfold Resolve.relink
          dsimp only
          rw [hstart]
          dsimp only
          rw [hlookup]
        have hfault : wp (lookup { nd with vdir := v, name := skipSlashes name }) (fun _ _ => False)
            (fun e _ => e = Stop.fault) s1 := by
          unfold lookup
          rw [wp_bind, wp_getSt, hs1.same.junk]
          have hbehind : Behind st s1 v v V none := rfl
          have hprev : ∀ P, (none : Option Loc) = some P → Placed own st P := by simp
          exact Walked.loop_fault hgrove hquiet hs1 hbehind rfl hV hprev (head_skipSlashes name)
            (Nat.lt_succ_self _) hlookup
        apply wp_bind_of (hstop hnone hfault) (Q := fun _ _ => False)
        intro _ _ hfalse
        exact hfalse.elim
      | some e =>
        have he := Placed.lookup hgrove (by simp) hV hlookup
        apply wp_bind_of (wp_of_quiet hquiet (by simp [hlookup]) (Walked.wp_lookup hinv (L := V) (by exact hs1)))
        intro r s2 hs2
        rcases hs2 with ⟨e', he', hs2⟩
        dsimp only at he'
        rw [hlookup, Option.some.injEq] at he'
        subst he'
        have hlast : (∀ D W next, e ≠ .link D W next) → orbit (Resolve.relink st) (name, L) (fuel + 1) = none := by
          intro hne
          apply orbit_succ_of_none
          unfold Resolve.relink
          dsimp only
          rw [hstart]
          dsimp only
          rw [hlookup]
          cases e with
          | link D W next => exact absurd rfl (hne D W next)
          | _ => rfl
        cases hs2 with
        | found d w D W name' len hs2 => exact ⟨hlast (by simp), fun _ => ⟨w, rfl⟩⟩
        | here d D name' len hs2 => exact ⟨hlast (by simp), fun _ => ⟨d, rfl⟩⟩
        | tail d w D W name' len hs2 => exact ⟨hlast (by simp), fun _ => ⟨d, rfl⟩⟩
        | missing d D name' len hs2 => exact ⟨hlast (by simp), by simp⟩
        | notdir d D vn' name' len hs2 => exact ⟨hlast (by simp), by simp⟩
        | link d w D W name' len hs2 =>
          dsimp only
          apply wp_bind_of (wp_of_quiet hquiet id (hs2.wp_ramfs_readlink List.mem_cons_self))
          intro link s3 hs3
          rcases hs3 with ⟨rfl, hs3⟩
          have hrelink : Resolve.relink st (name, L) =
              if namei.bufsize ≤ ((st.nodes (W.node st)).link ++ name'.drop len).length then none
              else some (namei.concat (st.nodes (W.node st)).link (name'.drop len), some D) := by
            unfold Resolve.relink
            dsimp only
            rw [hstart]
            dsimp only
            rw [hlookup]
          split
          . next hlong =>
            dsimp only [Nameidata.next] at hlong
            rw [if_pos hlong] at hrelink
            rw [wp_throw, orbit_succ_of_none hrelink, if_pos rfl]
          . next hlong =>
            dsimp only [Nameidata.next] at hlong
            rw [if_neg hlong] at hrelink
            rw [orbit_succ_of_some hrelink]
            apply wp_bind_of (wp_of_quiet hquiet id (hs3.wp_vput hinv))
            intro _ s4 hs4
            cases he with
            | link hD _ =>
              apply ih
              . apply Starting.behindLink
                simpa using hs4
              . intro D' hD'
                rw [← Option.some.inj hD']
                apply hD

theorem namei_ends (path : Name) (fuel : Nat)
    : wp (namei path fuel)
        (fun r _ => orbit (Resolve.relink st) (path, none) fuel = none ∧ (r.1 = none → ∃ v, r.2.vn = some v))
        (fun e _ => if orbit (Resolve.relink st) (path, none) fuel = none then e = .fault else e = .fuel) st := by
  unfold namei
  apply Starting.loop_ends hgrove hquiet (.first (.init st))
  simp

end Loop

theorem Resolve.orbit_of_namei {st : St} {fuel : Nat} {name : Name} {L : Option Loc} {e : Exit}
    (h : namei st fuel name L = some e) : orbit (relink st) (name, L) fuel = none := by
  induction fuel generalizing name L with
  | zero => cases h
  | succ fuel ih =>
    unfold namei at h
    rw [orbit_succ]
    unfold relink
    dsimp only
    cases hstart : start st name L with
    | none => rfl
    | some V =>
      rw [hstart] at h
      dsimp only at h ⊢
      cases hlookup : lookup st ((skipSlashes name).length + 1) none V (skipSlashes name) with
      | none => rfl
      | some e' =>
        rw [hlookup] at h
        cases e' with
        | link D W next =>
          dsimp only at h ⊢
          split at h
          . cases h
          . next hsize =>
            rw [if_neg hsize]
            apply ih h
        | _ => rfl

/--
`namei` terminates, where no access goes wrong, if and only if its symbolic links do not lead it to the same path in
the same directory twice. If they do, it goes on for ever.
-/
theorem namei_terminates_iff {st : St} (h : Grown st) (hquiet : Quiet st) (path : Name)
    : Terminates st path ∨ Trips st path ↔ ¬ Circles (Resolve.relink st) (path, none) := by
  rcases h with ⟨own, h⟩
  rw [← Resolve.ends_iff h.grove]
  have hends := namei_ends h.grove hquiet path
  constructor
  . rintro (⟨fuel, r, s, hrun, _⟩ | ⟨fuel, s, hrun⟩)
    . have hend := (wp_of_ok hrun).mp (hends fuel)
      exact ⟨fuel, hend.1⟩
    . have hend := (wp_of_error hrun).mp (hends fuel)
      refine ⟨fuel, ?_⟩
      by_contra hgoes
      rw [if_neg hgoes] at hend
      cases hend
  . rintro ⟨k, hk⟩
    have hend := hends k
    rw [hk] at hend
    cases hrun : namei path k st with
    | ok r s =>
      have hvn := ((wp_of_ok hrun).mp hend).2
      exact Or.inl ⟨k, r, s, hrun, hvn⟩
    | error e s =>
      have he := (wp_of_error hrun).mp hend
      rw [if_pos rfl] at he
      rw [he] at hrun
      exact Or.inr ⟨k, s, hrun⟩

@[irreducible]
def selfLinked : St :=
  after ((KCall.call (.vfs_symlink "/a".toList "/a".toList)).run 1) rootMounted

theorem selfLinked_reached : KCall.Reached KCall.Orderly zeroed selfLinked := by
  unfold selfLinked
  apply rootMounted_orderly.after
  . trivial
  . rw [rootMounted_eq]
    rfl

theorem Quiet.selfLinked : Quiet selfLinked where
  lock := by
    unfold Fs.selfLinked
    rw [rootMounted_eq]
    decide
  refcount := by
    unfold Fs.selfLinked
    rw [rootMounted_eq]
    decide
  ramlock := by
    intro n
    unfold Fs.selfLinked
    rw [rootMounted_eq]
    match n with
    | 0 => rfl
    | 1 => rfl
    | n + 2 => rfl
  idle := by
    intro n
    unfold Fs.selfLinked
    rw [rootMounted_eq]
    match n with
    | 0 => decide
    | 1 => decide
    | n + 2 => exact fun _ _ => rfl

theorem selfLinked_walks
    : result (namei "/a".toList 1) selfLinked = some (none, ⟨0, some 1, "a".toList, 1, false⟩) ∧
        Circles (Resolve.relink selfLinked) ("/a/".toList, none) := by
  constructor
  . decide +kernel
  . refine ⟨1, 2, ("/a/".toList, some (.old 0)), by decide, ?_, ?_⟩
    . decide +kernel
    . decide +kernel

theorem namei_terminates_iff_selfLinked
    : ¬ Circles (Resolve.relink selfLinked) ("/a".toList, none) ∧
        ¬ (Terminates selfLinked "/a/".toList ∨ Trips selfLinked "/a/".toList) := by
  rcases selfLinked_walks with ⟨hlink, hcircles⟩
  constructor
  . apply (namei_terminates_iff selfLinked_reached.grown Quiet.selfLinked _).mp
    exact Or.inl ⟨1, _, _, ok_of_result hlink, fun _ => ⟨1, rfl⟩⟩
  . rw [namei_terminates_iff selfLinked_reached.grown Quiet.selfLinked]
    exact not_not_intro hcircles

theorem not_terminates_selfLinked
    : KCall.Reached KCall.Orderly zeroed selfLinked ∧
        ∀ fuel r s, namei "/a/".toList fuel selfLinked ≠ .ok r s := by
  refine ⟨selfLinked_reached, ?_⟩
  intro fuel r s hrun
  rcases selfLinked_reached.grown with ⟨own, h⟩
  have hnamei := wp_namei h.grove.forest.inv "/a/".toList fuel
  rw [wp_of_ok hrun] at hnamei
  rcases hnamei with ⟨e, he, _⟩
  exact selfLinked_walks.2.orbit_ne_none fuel (Resolve.orbit_of_namei he)

end Fs
end Franklin
