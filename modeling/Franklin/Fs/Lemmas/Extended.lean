import Mathlib.Data.List.TakeWhile
import Franklin.Fs.Lemmas.Dotdots

/-!
This module contains how the walk of a path goes on with another path behind it for any number of rounds, and that
a symbolic link in the middle of a path has the same effect as its target.
-/

namespace Franklin
namespace Fs

def YieldsIn (st : St) (path : Name) (fuel : Nat) (error : Code) (V : Option Loc) : Prop :=
  ∃ nd s, namei path fuel st = .ok (error, nd) s ∧
    V = if error = none then nd.vn.map (Loc.of st s) else none

def Yields (st : St) (path : Name) (error : Code) (V : Option Loc) : Prop :=
  ∃ fuel, YieldsIn st path fuel error V

section Results

variable {st s : St} {path : Name} {e : Exit} {error : Code} {nd : Nameidata} {V : Option Loc}

theorem Ended.error_eq (h : Ended st s e (error, nd)) : e.error = error := by
  cases h with
  | _ => rfl

theorem Ended.vn_of (h : Ended st s e (error, nd)) (hinv : Inv st)
    : e.vn = if error = none then nd.vn.map (Loc.of st s) else none := by
  cases error with
  | none =>
    rcases h.taken hinv with ⟨v, W, hv, hW, hof, _⟩
    rw [if_pos rfl, hW, hv, Option.map_some, hof]
  | some code =>
    have hvn := h.error_iff
    simp only [reduceCtorEq, false_iff, not_not] at hvn
    rw [if_neg (by simp), hvn]

theorem YieldsIn.resolve {fuel : Nat} (hinv : Inv st) (h : YieldsIn st path fuel error V)
    : ∃ e, resolve st path fuel = some e ∧ e.error = error ∧ e.vn = V := by
  rcases h with ⟨nd, s, hrun, rfl⟩
  have hnamei := wp_namei hinv path fuel
  rw [wp_of_ok hrun] at hnamei
  rcases hnamei with ⟨e, hresolve, hended, _⟩
  exact ⟨e, hresolve, hended.error_eq, hended.vn_of hinv⟩

theorem yieldsIn_of_resolve {fuel : Nat} (hinv : Inv st) (hquiet : Quiet st)
    (hresolve : Fs.resolve st path fuel = some e) : YieldsIn st path fuel e.error e.vn := by
  rcases ok_of_wp (wp_namei_at hinv hquiet hresolve) with ⟨⟨error, nd⟩, s, hrun, hended, _⟩
  have herror := hended.error_eq
  subst herror
  exact ⟨nd, s, hrun, hended.vn_of hinv⟩

theorem YieldsIn.of_result {fuel v : Nat} {vdir len : Nat} {name : Name}
    (h : result (namei path fuel) st = some (none, ⟨vdir, some v, name, len, false⟩)) (hv : v < st.nextVnode)
    : YieldsIn st path fuel none (some (.old v)) := by
  refine ⟨_, _, ok_of_result h, ?_⟩
  unfold Loc.of
  rw [if_pos rfl, Option.map_some, if_pos hv]

end Results

namespace Resolve

section More

variable {st : St} {name : Name} {L : Option Loc} {e : Exit} {fuel : Nat}

theorem namei_add (h : namei st fuel name L = some e) (k : Nat)
    : namei st (fuel + k) name L = some e ∧ copies st (fuel + k) name L = copies st fuel name L ∧
        nameiName st (fuel + k) name L = nameiName st fuel name L := by
  induction fuel generalizing name L with
  | zero => cases h
  | succ fuel ih =>
    rw [Nat.add_right_comm]
    unfold namei at h ⊢
    unfold copies nameiName
    cases hstart : start st name L with
    | none =>
      rw [hstart] at h
      cases h
    | some V =>
      rw [hstart] at h
      dsimp only at h ⊢
      cases hlookup : lookup st ((skipSlashes name).length + 1) none V (skipSlashes name) with
      | none =>
        rw [hlookup] at h
        cases h
      | some e' =>
        rw [hlookup] at h
        cases e' with
        | link D W next =>
          dsimp only at h ⊢
          split at h
          . cases h
          . next hsize =>
            rw [if_neg hsize]
            rcases ih h with ⟨hnamei, hcopies, hname⟩
            rw [hnamei, hcopies, hname]
            exact ⟨rfl, rfl, rfl⟩
        | _ => exact ⟨h, rfl, rfl⟩

theorem namei_mono {fuel' : Nat} (h : namei st fuel name L = some e) (hle : fuel ≤ fuel')
    : namei st fuel' name L = some e := by
  rcases Nat.exists_eq_add_of_le hle with ⟨k, rfl⟩
  exact (namei_add h k).1

theorem length_copies_le : (copies st fuel name L).length ≤ fuel := by
  induction fuel generalizing name L with
  | zero => exact Nat.le_refl _
  | succ fuel ih =>
    unfold copies
    split
    . exact Nat.zero_le _
    . split
      . rw [List.length_cons]
        exact Nat.succ_le_succ ih
      . exact Nat.zero_le _

theorem namei_eq {fuel' : Nat} {e' : Exit} (h : namei st fuel name L = some e)
    (h' : namei st fuel' name L = some e') : e = e' := by
  have hmax := namei_mono h (Nat.le_max_left fuel fuel')
  rw [namei_mono h' (Nat.le_max_right fuel fuel')] at hmax
  exact (Option.some.inj hmax).symm

end More

def Leads (st : St) (name : Name) (L : Option Loc) (e : Exit) : Prop :=
  ∃ fuel, namei st fuel name L = some e

end Resolve

structure Stands (st : St) (path : Name) (fuel : Nat) (e : Exit) : Prop where
  stand : e.stand = e.vn
  last : ∀ D W, e = .found D W → lastName st path fuel ≠ ['.'] ∧
    (lastName st path fuel = ['.', '.'] → D.isRootvn st)

/--
What is put together at a symbolic link has space for `n` more characters, and no link is empty.
-/
def Fits (st : St) (path : Name) (fuel n : Nat) : Prop :=
  ∀ q ∈ Resolve.copies st fuel path none, q.1 ≠ [] ∧ (q.1 ++ q.2).length + n < namei.bufsize

section Leads

variable {st : St} {own : Nat → Nat} {path x : Name} {fuel : Nat} {e e' : Exit} {V : Loc} (h : Grove none own st)

include h

theorem Resolve.leads_joined (hx : x.head? = some '/') (hskip : skipSlashes x ≠ []) (hpath : path ≠ [])
    (hresolve : resolve st path fuel = some e) (hV : e.vn = some V) (hdir : V.type st = .VDIR)
    (hstands : Stands st path fuel e) (hfits : Fits st path fuel x.length)
    : Leads st (path ++ x) none e' ↔ Leads st (skipSlashes x) (some V) e' := by
  have hsame : ∀ k, namei st (fuel + k) (path ++ x) none =
      namei st (fuel + k - (copies st fuel path none).length) (skipSlashes x) (some V) := by
    intro k
    rcases namei_add hresolve k with ⟨hnamei, hcopies, hname⟩
    have hjoined := @namei_joined st own x path e h (fuel + k) none V hx hskip (by simp) hnamei
      (hstands.stand.trans hV) hdir (by rw [hcopies]; exact hfits) (by rw [hname]; exact hstands.last)
    rw [joined_of_ne hpath, hcopies] at hjoined
    exact hjoined
  have hle := @length_copies_le st path none fuel
  constructor
  . rintro ⟨k, hk⟩
    have hmore := namei_mono hk (Nat.le_add_left k fuel)
    rw [hsame] at hmore
    exact ⟨_, hmore⟩
  . rintro ⟨k, hk⟩
    refine ⟨fuel + k, ?_⟩
    rw [hsame]
    exact namei_mono hk (by omega)

omit h in
theorem Resolve.leads_head {name : Name} (hname : name.head? = some '/') (L : Option Loc)
    : Leads st name L e ↔ Leads st name none e := by
  have hsame : ∀ fuel, namei st fuel name L = namei st fuel name none := by
    intro fuel
    have hstart : start st name L = start st name none := by
      unfold start
      rw [if_pos hname, if_pos hname]
    cases fuel with
    | zero => rfl
    | succ fuel =>
      unfold namei
      rw [hstart]
  constructor
  . rintro ⟨fuel, hnamei⟩
    exact ⟨fuel, (hsame fuel).symm.trans hnamei⟩
  . rintro ⟨fuel, hnamei⟩
    exact ⟨fuel, (hsame fuel).trans hnamei⟩

end Leads

def HasLink (st : St) (V : Loc) (l t : Name) : Prop :=
  ∃ de ∈ (st.nodes (V.node st)).dentry, de.name = l ∧ (st.nodes de.node).type = .VLNK ∧
    (st.nodes de.node).link = t

/--
The lookup of `l` in the directory comes to a symbolic link to `t`: the first entry whose name begins with `l` is
one, and the loop for `..` does not leave the directory.
-/
structure FindsLink (st : St) (V : Loc) (l t : Name) : Prop where
  ne : l ≠ []
  slash : '/' ∉ l
  first : ∃ de, (st.nodes (V.node st)).dentry.find? (fun de => l <+: de.name) = some de ∧
    (st.nodes de.node).type = .VLNK ∧ (st.nodes de.node).link = t
  plain : ['.', '.'] <+: l → V.isRootvn st = false ∧ V.vroot st = false

section Link

variable {st : St} {own : Nat → Nat} {l t r : Name} {V : Loc} {e : Exit} (h : Grove none own st)
  (hr : r.head? = some '/')

theorem takeWhile_component (hslash : '/' ∉ l) (hr : r.head? = some '/')
    : (l ++ r).takeWhile (· ≠ '/') = l := by
  rw [takeWhile_append hr, List.takeWhile_eq_self_iff]
  intro c hc
  rw [decide_eq_true_eq]
  rintro rfl
  exact hslash hc

theorem compLen_component (hslash : '/' ∉ l) (hr : r.head? = some '/') : compLen (l ++ r) = l.length := by
  unfold compLen
  rw [takeWhile_component hslash hr]

theorem head_component (hne : l ≠ []) (hslash : '/' ∉ l) : (l ++ r).head? ≠ some '/' := by
  rw [List.head?_append_of_ne_nil _ hne]
  intro hhead
  exact hslash (List.mem_of_mem_head? hhead)

theorem Resolve.round_component {name : Name} {prev : Option Loc} (hne : name ≠ [])
    (hplain : ['.', '.'] <+: name → V.isRootvn st = false ∧ V.vroot st = false)
    : round st prev V name = component st V name := by
  unfold round
  rw [if_neg hne]
  split
  . next hdotdot =>
    rcases hplain ((strncmp_dotdot name).mp hdotdot) with ⟨hroot, hvroot⟩
    have hup : up st (st.nextVfs + 1) V = some (.dir V) := by
      unfold up
      rw [if_neg (by simp [hroot]), if_pos (by simp [hvroot])]
    rw [hup]
  . rfl

theorem dotdot_plain {P : Prop} (hr : r.head? = some '/') (hplain : ['.', '.'] <+: l → P)
    (hdotdot : ['.', '.'] <+: l ++ r) : P := by
  apply hplain
  rwa [← strncmp_dotdot, ← dotdot_append hr, strncmp_dotdot]

include h hr

theorem Resolve.component_link (hV : Placed own st V) (hdir : V.type st = .VDIR) (hfinds : FindsLink st V l t)
    : ∃ W, component st V (l ++ r) = some (.done (.link V W r)) ∧ (st.nodes (W.node st)).link = t := by
  rcases hfinds.first with ⟨de, hfind, htype, hlink⟩
  have hmem := Forest.mem_entries (List.mem_of_find?_eq_some hfind)
  have hnode : (Loc.get st [V] (V.vfs st) de.node).node st = de.node := Loc.node_get h.forest.inv _ _ _
  have hW := Placed.entry h hV hdir hmem
  have hWtype : (Loc.get st [V] (V.vfs st) de.node).type st = .VLNK := by
    rw [hW.type, hnode, htype]
  refine ⟨Loc.get st [V] (V.vfs st) de.node, ?_, by rw [hnode, hlink]⟩
  have hcross : cross st V (st.nextVfs + 1) (Loc.get st [V] (V.vfs st) de.node) =
      some (Loc.get st [V] (V.vfs st) de.node) := by
    unfold cross
    rw [hWtype]
    rfl
  have hlook : look st V (l ++ r) (compLen (l ++ r)) = some (.ok (Loc.get st [V] (V.vfs st) de.node)) := by
    unfold look
    dsimp only
    rw [if_neg (by simp [(hV.secure h).1]), if_neg (by simp [hdir]), if_neg (strcmp_append hr (by decide)),
      if_neg (strcmp_append hr (by decide)), find_takeWhile, takeWhile_component hfinds.slash hr, hfind]
    dsimp only
    rw [if_neg (not_or.mpr ⟨Placed.entry_ne h hmem, by simp [(h.forest.secure (Or.inr ⟨_, hmem⟩)).1]⟩)]
  unfold component
  dsimp only
  rw [hlook]
  dsimp only
  rw [hcross]
  dsimp only
  rw [compLen_component hfinds.slash hr, List.drop_left, if_pos ⟨hWtype, Or.inr hr⟩]

theorem Resolve.lookup_link (hV : Placed own st V) (hdir : V.type st = .VDIR) (hfinds : FindsLink st V l t)
    (fuel : Nat)
    : ∃ W, lookup st (fuel + 1) none V (l ++ r) = some (.link V W r) ∧ (st.nodes (W.node st)).link = t := by
  rcases component_link h hr hV hdir hfinds with ⟨W, hcomponent, hlink⟩
  refine ⟨W, ?_, hlink⟩
  have hround : round st none V (l ++ r) = some (.done (.link V W r)) := by
    rw [round_component (by simp [hfinds.ne]) (dotdot_plain hr hfinds.plain)]
    exact hcomponent
  unfold lookup
  rw [hround]

theorem Resolve.leads_link (hV : Placed own st V) (hdir : V.type st = .VDIR) (hfinds : FindsLink st V l t)
    (ht : t ≠ []) (hsize : (t ++ r).length < namei.bufsize)
    : Leads st (l ++ r) (some V) e ↔ Leads st (t ++ r) (some V) e := by
  have hhead := @head_component l r hfinds.ne hfinds.slash
  have hsame : ∀ fuel, namei st (fuel + 1) (l ++ r) (some V) = namei st fuel (t ++ r) (some V) := by
    intro fuel
    rcases lookup_link h hr hV hdir hfinds (l ++ r).length with ⟨W, hlookup, hlink⟩
    have hstart : start st (l ++ r) (some V) = some V := by
      unfold start
      rw [if_neg hhead]
    rw [namei, hstart, skipSlashes_of_head hhead]
    dsimp only
    rw [hlookup]
    dsimp only
    rw [hlink, if_neg (by omega)]
    unfold namei.concat
    rw [if_neg ht]
  constructor
  . rintro ⟨fuel, hnamei⟩
    cases fuel with
    | zero => cases hnamei
    | succ fuel => exact ⟨fuel, (hsame fuel).symm.trans hnamei⟩
  . rintro ⟨fuel, hnamei⟩
    exact ⟨fuel + 1, (hsame fuel).trans hnamei⟩

end Link

/--
A path that goes on behind a symbolic link has the same result as the path with the target of the link in its place.
-/
def LinkReplaced (st : St) (g : Garbage) (p l r : Name) : Prop :=
  ∀ V t, Yields st p none (some V) → V.type st = .VDIR → HasLink st V l t → t ≠ [] →
    (t ++ r).length < namei.bufsize → ∀ error W, Yields st (p ++ '/' :: (l ++ r)) error W ↔
      Yields (st.withGarbage g) (if t.head? = some '/' then t ++ r else p ++ '/' :: (t ++ r)) error W

/--
The walk stands at the directory with the link and finds the link in it. The links that it follows before have
space for what is behind them in the buffer.
-/
def LinkFound (st : St) (p l r : Name) : Prop :=
  ∀ fuel e V t, resolve st p fuel = some e → e.vn = some V → V.type st = .VDIR → HasLink st V l t →
    Stands st p fuel e ∧ FindsLink st V l t ∧ Fits st p fuel ('/' :: (l ++ r)).length ∧
      (t.head? ≠ some '/' → Fits st p fuel ('/' :: (t ++ r)).length)

/--
A symbolic link in the middle of a path can be replaced by its target, if the walk finds it in the directory that
the path in front of it leads to.
-/
theorem namei_link_replaced {st : St} (h : Grown st) (hquiet : Quiet st) {g : Garbage} (hclear : Clear st g)
    {p l r : Name} (hr : r.head? = some '/') (hfound : LinkFound st p l r) : LinkReplaced st g p l r := by
  rcases h with ⟨own, hown⟩
  have hinv := hown.grove.forest.inv
  intro V t hends hdir hlink ht hsize error W
  rw [hclear.eq]
  rcases hends with ⟨fuel, hends⟩
  rcases hends.resolve hinv with ⟨e, hresolve, _, hV⟩
  rcases hfound fuel e V t hresolve hV hdir hlink with ⟨hstands, hfinds, hfits, hfits'⟩
  have hplaced := (Placed.resolve hown.grove hresolve).vn hV
  have hp : p ≠ [] := by
    rintro rfl
    cases fuel with
    | zero => cases hresolve
    | succ fuel => cases hresolve
  have hleads : ∀ e', (∃ fuel, resolve st (p ++ '/' :: (l ++ r)) fuel = some e') ↔
      ∃ fuel, resolve st (if t.head? = some '/' then t ++ r else p ++ '/' :: (t ++ r)) fuel = some e' := by
    intro e'
    have hskip : skipSlashes ('/' :: (l ++ r)) = l ++ r :=
      skipSlashes_of_head (head_component hfinds.ne hfinds.slash)
    have hjoined := @Resolve.leads_joined st own p ('/' :: (l ++ r)) fuel e e' V hown.grove rfl
      (by rw [hskip]; simp [hfinds.ne]) hp hresolve hV hdir hstands hfits
    rw [hskip] at hjoined
    have htarget := @Resolve.leads_link st own l t r V e' hown.grove hr hplaced hdir hfinds ht hsize
    refine (hjoined.trans htarget).trans ?_
    split
    . next habs =>
      apply Resolve.leads_head
      rw [List.head?_append_of_ne_nil _ ht, habs]
    . next hrel =>
      have hskip' : skipSlashes ('/' :: (t ++ r)) = t ++ r := by
        have hhead : (t ++ r).head? ≠ some '/' := by
          rwa [List.head?_append_of_ne_nil _ ht]
        exact skipSlashes_of_head hhead
      have hjoined' := @Resolve.leads_joined st own p ('/' :: (t ++ r)) fuel e e' V hown.grove rfl
        (by rw [hskip']; simp [ht]) hp hresolve hV hdir hstands (hfits' hrel)
      rw [hskip'] at hjoined'
      exact hjoined'.symm
  have hends' : ∀ {path path' : Name}, (∀ e', (∃ fuel, resolve st path fuel = some e') →
      ∃ fuel, resolve st path' fuel = some e') → Yields st path error W → Yields st path' error W := by
    intro path path' himp hends
    rcases hends with ⟨k, hends⟩
    rcases hends.resolve hinv with ⟨e', hk, rfl, rfl⟩
    rcases himp e' ⟨k, hk⟩ with ⟨k', hk'⟩
    exact ⟨k', yieldsIn_of_resolve hinv hquiet hk'⟩
  constructor
  . exact hends' fun e' => (hleads e').mp
  . exact hends' fun e' => (hleads e').mpr

@[irreducible]
def linkedRoot : St :=
  after ((KCall.call (.vfs_symlink "/l".toList "/".toList)).run 1) (booted zeroed)

theorem linkedRoot_reached : KCall.Reached KCall.Orderly zeroed linkedRoot := by
  unfold linkedRoot
  rw [← rootMounted_eq]
  apply rootMounted_orderly.after
  . trivial
  . rw [rootMounted_eq]
    rfl

theorem Quiet.linkedRoot : Quiet linkedRoot where
  lock := by
    unfold Fs.linkedRoot
    decide
  refcount := by
    unfold Fs.linkedRoot
    decide
  ramlock := by
    intro n
    unfold Fs.linkedRoot
    match n with
    | 0 => rfl
    | 1 => rfl
    | n + 2 => rfl
  idle := by
    intro n
    unfold Fs.linkedRoot
    match n with
    | 0 => decide
    | 1 => decide
    | n + 2 => exact fun _ _ => rfl

theorem namei_link_replaced_linkedRoot
    : LinkReplaced linkedRoot ⟨false, fun _ => false⟩ "/".toList "l".toList "/".toList := by
  have hclear : Clear linkedRoot ⟨false, fun _ => false⟩ := by
    unfold linkedRoot
    exact ⟨rfl, fun _ => rfl, fun _ => rfl⟩
  apply namei_link_replaced linkedRoot_reached.grown Quiet.linkedRoot hclear rfl
  have hroot : resolve linkedRoot "/".toList 1 = some (.here (.old 0)) := by decide +kernel
  intro fuel e V t hresolve hV _ hlink
  have he := Resolve.namei_eq hresolve hroot
  subst he
  have hV0 : Loc.old 0 = V := Option.some.inj hV
  subst hV0
  have hdentry : (linkedRoot.nodes ((Loc.old 0).node linkedRoot)).dentry = [⟨"l".toList, 1, 3⟩] := by
    decide +kernel
  have htarget : (linkedRoot.nodes 1).link = "/".toList := by decide +kernel
  have htype : (linkedRoot.nodes 1).type = .VLNK := by decide +kernel
  rcases hlink with ⟨de, hde, _, _, rfl⟩
  rw [hdentry, List.mem_singleton] at hde
  subst hde
  dsimp only
  rw [htarget]
  have hcopies : Resolve.copies linkedRoot fuel "/".toList none = [] := by
    cases fuel with
    | zero => rfl
    | succ fuel =>
      have hone : Resolve.copies linkedRoot 1 "/".toList none = [] := by decide +kernel
      rw [Nat.add_comm, (Resolve.namei_add hroot fuel).2.1, hone]
  have hfits : ∀ n, Fits linkedRoot "/".toList fuel n := by
    intro n q hq
    rw [hcopies] at hq
    cases hq
  refine ⟨⟨rfl, by simp⟩, ⟨by decide, by decide, ?_, by decide⟩, hfits _, fun _ => hfits _⟩
  rw [hdentry]
  exact ⟨_, rfl, htype, htarget⟩

@[irreducible]
def shadowedLink : St :=
  after ((KCall.call (.vfs_mkdir "/lx".toList)).run 1)
    (after ((KCall.call (.vfs_symlink "/l".toList "/m".toList)).run 1) (booted zeroed))

theorem not_linkReplaced_shadowedLink
    : KCall.Reached KCall.Orderly zeroed shadowedLink ∧
        (∃ s, namei "//l/".toList 1 shadowedLink = .ok (none, ⟨0, some 0, [], 0, false⟩) s) ∧
        (∃ s, namei "/m/".toList 1 shadowedLink = .ok (some .ENOENT, ⟨0, none, "m/".toList, 1, false⟩) s) ∧
        ∀ g, Clear shadowedLink g → ¬ LinkReplaced shadowedLink g "/".toList "l".toList "/".toList := by
  have hreached : KCall.Reached KCall.Orderly zeroed shadowedLink := by
    unfold shadowedLink
    rw [← rootMounted_eq]
    apply KCall.Reached.after
    . apply rootMounted_orderly.after
      . trivial
      . decide +kernel
    . trivial
    . decide +kernel
  have hlink : result (namei "//l/".toList 1) shadowedLink = some (none, ⟨0, some 0, [], 0, false⟩) := by
    decide +kernel
  have htarget : result (namei "/m/".toList 1) shadowedLink =
      some (some .ENOENT, ⟨0, none, "m/".toList, 1, false⟩) := by
    decide +kernel
  have hroot : result (namei "/".toList 1) shadowedLink = some (none, ⟨0, some 0, [], 0, false⟩) := by
    decide +kernel
  have hzero : 0 < shadowedLink.nextVnode := by decide +kernel
  refine ⟨hreached, ⟨_, ok_of_result hlink⟩, ⟨_, ok_of_result htarget⟩, ?_⟩
  intro g hclear h
  rcases hreached.grown with ⟨own, hown⟩
  have hlinks : HasLink shadowedLink (.old 0) "l".toList "/m".toList := by
    refine ⟨⟨"l".toList, 1, 3⟩, by decide +kernel, rfl, by decide +kernel, by decide +kernel⟩
  have hends := h (.old 0) "/m".toList ⟨1, .of_result hroot hzero⟩ (by decide +kernel) hlinks (by decide)
    (by decide) none (some (.old 0))
  have hsame := hends.mp ⟨1, .of_result hlink hzero⟩
  rw [hclear.eq, if_pos (by decide)] at hsame
  rcases hsame with ⟨fuel, hsame⟩
  rcases hsame.resolve hown.grove.forest.inv with ⟨e, hresolve, _, hvn⟩
  have hmissing : resolve shadowedLink ("/m".toList ++ "/".toList) 1 = some (.missing (.old 0) "m/".toList 1) := by
    decide +kernel
  rw [Resolve.namei_eq hresolve hmissing] at hvn
  cases hvn

end Fs
end Franklin
