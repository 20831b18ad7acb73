import Franklin.Fs.Lemmas.Namei
import Franklin.Fs.Lemmas.Paths

/-!
This module contains what `namei` leaves of the path in the `struct nameidata`: the name that its last
round has started with.
-/

namespace Franklin
namespace Fs

inductive RoundNames (nd : Nameidata) : lookup.Round → Prop where
  | done (error : Code) (nd' : Nameidata) (hname : nd'.name = nd.name) (hlen : nd'.len = compLen nd.name)
    : RoundNames nd (.done error nd')
  | next (v : Nat) (nd' : Nameidata) (hne : nd.name ≠ [])
    (hname : nd'.name = skipSlashes (nd.name.drop (compLen nd.name))) : RoundNames nd (.next v nd')

section Round

variable {follow : Bool} {v : Nat} {nd nd0 : Nameidata} {s : St}

theorem wp_nextname_names (hname : nd.name = nd0.name) (hlen : nd.len = compLen nd0.name)
    : wp (lookup.nextname v nd) (fun r _ => RoundNames nd0 r) (fun _ _ => True) s := by
  unfold lookup.nextname
  split
  . apply wp_bind_of wp_trivial
    intro _ s1 _
    exact .done none nd hname hlen
  . next hnext =>
    apply wp_bind_of wp_trivial
    intro _ s1 _
    apply wp_bind_of wp_trivial
    intro _ s2 _
    unfold Nameidata.next at hnext
    rw [hname, hlen] at hnext
    apply RoundNames.next
    . intro hnil
      rw [hnil] at hnext
      exact hnext List.drop_nil
    . unfold Nameidata.next
      dsimp only
      rw [hname, hlen]

theorem wp_component_names (hname : nd.name = nd0.name) (hlen : nd.len = compLen nd0.name)
    : wp (lookup.component follow v nd) (fun r _ => RoundNames nd0 r) (fun _ _ => True) s := by
  unfold lookup.component
  apply wp_bind_of wp_trivial
  intro _ s1 _
  apply wp_bind_of wp_trivial
  intro r s2 _
  apply wp_bind_of wp_trivial
  intro _ s3 _
  rcases r with ⟨error, vn⟩
  cases error with
  | some e => exact .done _ _ hname hlen
  | none =>
    cases vn with
    | none => trivial
    | some w =>
      apply wp_bind_of wp_trivial
      intro _ s4 _
      apply wp_bind_of wp_trivial
      intro st s5 _
      apply wp_bind_of wp_trivial
      intro w s6 _
      apply wp_bind_of wp_trivial
      intro vd s7 _
      split
      . exact .done _ _ hname hlen
      . apply wp_nextname_names
        . exact hname
        . exact hlen

theorem wp_round_names
    : wp (lookup.round follow v nd) (fun r _ => RoundNames nd r) (fun _ _ => True) s := by
  unfold lookup.round
  dsimp only
  split
  . apply wp_bind_of wp_trivial
    intro _ s1 _
    exact .done _ _ rfl rfl
  . split
    . apply wp_bind_of wp_trivial
      intro st s1 _
      apply wp_bind_of wp_trivial
      intro c s2 _
      cases c with
      | root w =>
        apply wp_nextname_names
        . rfl
        . rfl
      | dir w =>
        apply wp_component_names
        . rfl
        . rfl
    . apply wp_component_names
      . rfl
      . rfl

end Round

namespace Resolve

def lookupName (st : St) : Nat → Option Loc → Loc → Name → Name
  | 0, _, _, name => name
  | fuel + 1, prev, L, name =>
    match round st prev L name with
    | some (.next vdir vn name) => lookupName st fuel (some vdir) vn name
    | _ => name

def nameiName (st : St) : Nat → Name → Option Loc → Name
  | 0, name, _ => name
  | fuel + 1, name, L =>
    match start st name L with
    | none => name
    | some L =>
      match lookup st ((skipSlashes name).length + 1) none L (skipSlashes name) with
      | some (.link vdir vn next) =>
        nameiName st fuel (namei.concat (st.nodes (vn.node st)).link next) (some vdir)
      | _ => lookupName st ((skipSlashes name).length + 1) none L (skipSlashes name)

structure Last (st : St) (e : Exit) (nm : Name) : Prop where
  head : nm.head? ≠ some '/'
  round : ∃ prev L, Resolve.round st prev L nm = some (.done e)

variable {st : St} {fuel : Nat} {name : Name} {prev : Option Loc} {L : Loc} {e : Exit}

theorem nextname_name {D V D' V' : Loc} {next nm : Name} (h : nextname D V next = .next D' V' nm)
    : nm = skipSlashes next := by
  unfold nextname at h
  split at h
  . cases h
  . rw [Round.next.injEq] at h
    exact h.2.2.symm

theorem component_name {D V : Loc} {nm : Name} (h : component st L name = some (.next D V nm))
    : nm = skipSlashes (name.drop (compLen name)) := by
  unfold component at h
  dsimp only at h
  split at h
  . cases h
  . cases h
  . cases h
  . split at h
    . cases h
    . split at h
      . cases h
      . apply nextname_name (Option.some.inj h)

theorem round_next_name {D V : Loc} {nm : Name} (h : round st prev L name = some (.next D V nm))
    : nm = skipSlashes (name.drop (compLen name)) := by
  unfold round at h
  split at h
  . split at h
    . cases h
    . cases h
    . split at h
      . cases h
      . cases h
  . split at h
    . split at h
      . cases h
      . apply nextname_name (Option.some.inj h)
      . apply component_name h
    . apply component_name h

theorem lookup_last (h : lookup st fuel prev L name = some e) (hhead : name.head? ≠ some '/')
    : Last st e (lookupName st fuel prev L name) := by
  induction fuel generalizing prev L name with
  | zero => cases h
  | succ fuel ih =>
    unfold lookup at h
    unfold lookupName
    cases hround : round st prev L name with
    | none =>
      rw [hround] at h
      cases h
    | some R =>
      rw [hround] at h
      cases R with
      | done e' =>
        rw [← Option.some.inj h]
        exact ⟨hhead, prev, L, hround⟩
      | next D V nm =>
        dsimp only at h ⊢
        apply ih h
        rw [round_next_name hround]
        apply head_skipSlashes

theorem namei_last {L : Option Loc} (h : namei st fuel name L = some e)
    : Last st e (nameiName st fuel name L) := by
  induction fuel generalizing name L with
  | zero => cases h
  | succ fuel ih =>
    unfold namei at h
    unfold nameiName
    cases hstart : start st name L with
    | none =>
      rw [hstart] at h
      cases h
    | some V =>
      rw [hstart] at h
      dsimp only at h ⊢
      cases hlookup : lookup st ((skipSlashes name).length + 1) none V (skipSlashes name) with
      | none =>
        rw [hlookup] at h
        cases h
      | some e' =>
        rw [hlookup] at h
        have hlast := lookup_last hlookup (head_skipSlashes name)
        cases e' with
        | link D W next =>
          dsimp only at h ⊢
          split at h
          . cases h
          . apply ih h
        | found D W =>
          rw [← Option.some.inj h]
          exact hlast
        | here D =>
          rw [← Option.some.inj h]
          exact hlast
        | tail D W =>
          rw [← Option.some.inj h]
          exact hlast
        | missing D nm len =>
          rw [← Option.some.inj h]
          exact hlast
        | notdir D =>
          rw [← Option.some.inj h]
          exact hlast

end Resolve

def lastName (st : St) (path : Name) (fuel : Nat) : Name :=
  Resolve.nameiName st fuel path none

theorem resolve_last {st : St} {path : Name} {fuel : Nat} {e : Exit} (h : resolve st path fuel = some e)
    : Resolve.Last st e (lastName st path fuel) :=
  Resolve.namei_last h

namespace Walked

variable {st s : St} {held : List (Nat × Loc)} {vl nl : List Nat} {v : Nat} {L : Loc}

theorem wp_loop_last (hinv : Inv st) (fuel : Nat) {nd : Nameidata} {prev : Option Loc}
    (h : Walked st s [(v, L)] [] []) (hbehind : Behind st s nd.vdir v L prev)
    (hsym : nd.issymlink = false)
    : wp (lookup.loop st.junk.follow fuel v nd)
        (fun r s' => ∃ e, Resolve.lookup st fuel prev L nd.name = some e ∧ Ended st s' e r ∧
          r.2.name = Resolve.lookupName st fuel prev L nd.name ∧ r.2.len = compLen r.2.name)
        (Bad st (Resolve.lookup st fuel prev L nd.name = none)) s := by
  induction fuel generalizing s v L nd prev with
  | zero =>
    unfold lookup.loop Resolve.lookup
    rw [wp_throw]
    exact ⟨h.kept, fun _ => rfl⟩
  | succ fuel ih =>
    unfold lookup.loop Resolve.lookup Resolve.lookupName
    apply wp_bind_mono (wp_conj (h.wp_round hinv hbehind hsym) wp_round_names)
    . intro e s1 hs1
      apply hs1.mono
      intro hnone
      rw [hnone]
    . intro r s1 hs1
      rcases hs1 with ⟨⟨R, hR, hs1⟩, hnames⟩
      rw [hR]
      cases hs1 with
      | done e error nd' hs1 =>
        cases hnames with
        | done _ _ hname hlen =>
          refine ⟨e, rfl, hs1, hname, ?_⟩
          rw [hlen, hname]
      | next w D V nd' hsym' hs1 hbehind' =>
        dsimp only
        apply ih hs1 hbehind' hsym'

theorem wp_lookup_last (hinv : Inv st) {nd : Nameidata} (h : Walked st s [(nd.vdir, L)] [] [])
    : wp (Fs.lookup nd)
        (fun r s' => ∃ e, Resolve.lookup st (nd.name.length + 1) none L nd.name = some e ∧
          Ended st s' e r ∧ r.2.name = Resolve.lookupName st (nd.name.length + 1) none L nd.name ∧
          r.2.len = compLen r.2.name)
        (Bad st (Resolve.lookup st (nd.name.length + 1) none L nd.name = none)) s := by
  unfold Fs.lookup
  rw [wp_bind, wp_getSt, h.same.junk]
  have hbehind : Behind st s ({ nd with issymlink := false } : Nameidata).vdir nd.vdir L none := rfl
  exact h.wp_loop_last hinv _ hbehind rfl

end Walked

theorem Starting.wp_loop_last {st s : St} {vn : Option Nat} {L : Option Loc} (hinv : Inv st) (fuel : Nat)
    (h : Starting st s vn L) (name : Name) (nd : Nameidata)
    : wp (namei.loop fuel name vn nd)
        (fun r s' => ∃ e, Resolve.namei st fuel name L = some e ∧ Ended st s' e r ∧
          r.2.issymlink = false ∧ r.2.name = Resolve.nameiName st fuel name L ∧
          r.2.len = compLen r.2.name)
        (Bad st (Resolve.namei st fuel name L = none)) s := by
  induction fuel generalizing s vn L name nd with
  | zero =>
    apply wp_mono (h.wp_loop hinv 0 name nd)
    . intro r s1 hs1
      rcases hs1 with ⟨e, he, _⟩
      cases he
    . intro e s1 hs1
      apply hs1
  | succ fuel ih =>
    unfold namei.loop Resolve.namei Resolve.nameiName
    apply wp_bind_mono (h.wp_start hinv name)
    . intro e s1 hs1
      apply hs1.mono
      intro hnone
      rw [hnone]
    . intro v s1 hs1
      rcases hs1 with ⟨V, hV, hs1⟩
      rw [hV]
      apply wp_bind_mono (Walked.wp_lookup_last hinv (L := V) (by exact hs1))
      . intro e s2 hs2
        apply hs2.mono
        intro hnone
        dsimp only at hnone ⊢
        rw [hnone]
      . intro r s2 hs2
        rcases hs2 with ⟨e, he, hs2, hlast⟩
        dsimp only at he hlast ⊢
        rw [he]
        cases hs2 with
        | found d w D W name' len hs2 => exact ⟨_, rfl, .found d w D W name' len hs2, rfl, hlast⟩
        | here d D name' len hs2 => exact ⟨_, rfl, .here d D name' len hs2, rfl, hlast⟩
        | tail d w D W name' len hs2 => exact ⟨_, rfl, .tail d w D W name' len hs2, rfl, hlast⟩
        | missing d D name' len hs2 => exact ⟨_, rfl, .missing d D name' len hs2, rfl, hlast⟩
        | notdir d D vn' name' len hs2 => exact ⟨_, rfl, .notdir d D vn' name' len hs2, rfl, hlast⟩
        | link d w D W name' len hs2 =>
          dsimp only
          apply wp_bind_mono (hs2.wp_ramfs_readlink List.mem_cons_self) (fun _ _ => Bad.of_false)
          intro link s3 hs3
          rcases hs3 with ⟨rfl, hs3⟩
          split
          . next hlong =>
            dsimp only [Nameidata.next] at hlong
            rw [if_pos hlong]
            exact ⟨hs3.kept, fun _ => rfl⟩
          . next hlong =>
            dsimp only [Nameidata.next] at hlong
            rw [if_neg hlong]
            apply wp_bind_mono (hs3.wp_vput hinv) (fun _ _ => Bad.of_false)
            intro _ s4 hs4
            apply ih
            apply Starting.behindLink
            simpa using hs4

theorem wp_namei_last {st : St} (hinv : Inv st) (name : Name) (fuel : Nat)
    : wp (namei name fuel)
        (fun r s => ∃ e, resolve st name fuel = some e ∧ Ended st s e r ∧ r.2.issymlink = false ∧
          r.2.name = lastName st name fuel ∧ r.2.len = compLen (lastName st name fuel))
        (Bad st (resolve st name fuel = none)) st := by
  apply wp_mono (Starting.wp_loop_last hinv fuel (.first (.init st)) name _)
  . intro r s hs
    rcases hs with ⟨e, he, hended, hsym, hname, hlen⟩
    refine ⟨e, he, hended, hsym, hname, ?_⟩
    rw [hlen, hname]
    rfl
  . intro e s hs
    apply hs

end Fs
end Franklin
