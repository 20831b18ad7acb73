import Franklin.Lib.Alike
import Franklin.Fs.Lemmas.Mounts
import Franklin.Fs.Lemmas.Last

/-!
This module contains that `namei` does not depend on how many slashes stand between two components.
-/

namespace Franklin
namespace Fs

/--
The paths are the same up to the lengths of the runs of slashes in them.
-/
inductive SameRuns : Name → Name → Prop where
  | nil : SameRuns [] []
  | char {c : Char} {p p' : Name} (hc : c ≠ '/') (h : SameRuns p p') : SameRuns (c :: p) (c :: p')
  | slashes {p p' : Name} (m k : Nat) (h : SameRuns p p')
    : SameRuns (List.replicate (m + 1) '/' ++ p) (List.replicate (k + 1) '/' ++ p')

/--
The walk of a path, which has come to the state `s`, puts the path `q` together from the target of a
symbolic link and what is left behind the link.
-/
inductive Rebuilds : St → Name → Option Nat → Nameidata → Name → Prop where
  | here {s s1 s2 s3 : St} {name link : Name} {vn : Option Nat} {nd nd' : Nameidata} {vdir v : Nat}
    (hstart : namei.start name vn s = .ok vdir s1)
    (hlookup : lookup { nd with vdir, name := skipSlashes name } s1 = .ok (none, nd') s2)
    (hsym : nd'.issymlink = true) (hvn : nd'.vn = some v) (hlink : ramfs_readlink v s2 = .ok link s3)
    : Rebuilds s name vn nd (link ++ nd'.next)
  | later {s s1 s2 s3 s4 : St} {name link q : Name} {vn : Option Nat} {nd nd' : Nameidata} {vdir v : Nat}
    (hstart : namei.start name vn s = .ok vdir s1)
    (hlookup : lookup { nd with vdir, name := skipSlashes name } s1 = .ok (none, nd') s2)
    (hsym : nd'.issymlink = true) (hvn : nd'.vn = some v) (hlink : ramfs_readlink v s2 = .ok link s3)
    (hput : vput v s3 = .ok () s4)
    (h : Rebuilds s4 (namei.concat link nd'.next) (some nd'.vdir) nd' q) : Rebuilds s name vn nd q

/--
`namei` of the path comes to put the path `q` together.
-/
def Rebuilt (s : St) (path q : Name) : Prop :=
  Rebuilds s path none { vdir := 0, vn := none, name := path, len := 0, issymlink := false } q

namespace SameRuns

variable {p p' q q' : Name}

theorem refl (p : Name) : SameRuns p p := by
  induction p with
  | nil => apply SameRuns.nil
  | cons c p ih =>
    by_cases hc : c = '/'
    . rw [hc]
      exact SameRuns.slashes 0 0 ih
    . exact SameRuns.char hc ih

theorem append (h : SameRuns p p') (h' : SameRuns q q') : SameRuns (p ++ q) (p' ++ q') := by
  induction h with
  | nil => apply h'
  | char hc _ ih => exact SameRuns.char hc ih
  | slashes m k _ ih =>
    rw [List.append_assoc, List.append_assoc]
    exact SameRuns.slashes m k ih

theorem replace (p q : Name) (m k : Nat)
    : SameRuns (p ++ (List.replicate (m + 1) '/' ++ q)) (p ++ (List.replicate (k + 1) '/' ++ q)) :=
  (refl p).append (SameRuns.slashes m k (refl q))

theorem nil_iff (h : SameRuns p p') : p = [] ↔ p' = [] := by
  cases h with
  | nil => rfl
  | char hc h => simp
  | slashes m k h => simp [List.replicate_succ]

theorem head_iff (h : SameRuns p p') : p.head? = some '/' ↔ p'.head? = some '/' := by
  cases h with
  | nil => rfl
  | char hc h => simp
  | slashes m k h => simp [List.replicate_succ]

theorem skipSlashes_replicate (m : Nat) (p : Name)
    : skipSlashes (List.replicate m '/' ++ p) = skipSlashes p := by
  induction m with
  | zero => rfl
  | succ m ih =>
    rw [List.replicate_succ, List.cons_append, ← ih]
    rfl

theorem skip (h : SameRuns p p') : SameRuns (skipSlashes p) (skipSlashes p') := by
  induction h with
  | nil => apply SameRuns.nil
  | char hc h _ =>
    unfold skipSlashes
    rw [List.dropWhile_cons_of_neg (by simpa using hc), List.dropWhile_cons_of_neg (by simpa using hc)]
    exact SameRuns.char hc h
  | slashes m k _ ih =>
    rw [skipSlashes_replicate, skipSlashes_replicate]
    apply ih

theorem takeWhile_eq (h : SameRuns p p') : p.takeWhile (· ≠ '/') = p'.takeWhile (· ≠ '/') := by
  induction h with
  | nil => rfl
  | char hc _ ih =>
    rw [List.takeWhile_cons_of_pos (by simpa using hc), List.takeWhile_cons_of_pos (by simpa using hc), ih]
  | slashes m k _ _ => simp [List.replicate_succ]

theorem next (h : SameRuns p p') : SameRuns (p.drop (compLen p)) (p'.drop (compLen p')) := by
  rw [drop_compLen, drop_compLen]
  induction h with
  | nil => apply SameRuns.nil
  | char hc _ ih => simpa [hc] using ih
  | slashes m k h _ =>
    have hdrop : ∀ m (p : Name), (List.replicate (m + 1) '/' ++ p).dropWhile (· ≠ '/') =
        List.replicate (m + 1) '/' ++ p := by
      intro m p
      simp [List.replicate_succ]
    rw [hdrop, hdrop]
    exact SameRuns.slashes m k h

theorem eq_of_not_mem (h : SameRuns p p') (hp : '/' ∉ p) : p' = p := by
  induction h with
  | nil => rfl
  | char hc _ ih =>
    rw [ih]
    intro hmem
    exact hp (List.mem_cons_of_mem _ hmem)
  | slashes m k _ _ => simp [List.replicate_succ] at hp

theorem symm (h : SameRuns p p') : SameRuns p' p := by
  induction h with
  | nil => apply SameRuns.nil
  | char hc _ ih => exact SameRuns.char hc ih
  | slashes m k _ ih => exact SameRuns.slashes k m ih

theorem strcmp_eq (h : SameRuns p p') {c : Name} (hc : '/' ∉ c) : strcmp p c = strcmp p' c := by
  have hiff : p = c ↔ p' = c := by
    constructor
    . intro heq
      rw [← heq] at hc ⊢
      apply h.eq_of_not_mem hc
    . intro heq
      rw [← heq] at hc ⊢
      apply h.symm.eq_of_not_mem hc
  unfold strcmp
  rw [if_congr hiff rfl rfl]

theorem dotdot_iff (h : SameRuns p p')
    : strncmp p ['.', '.'] 2 = 0 ↔ strncmp p' ['.', '.'] 2 = 0 := by
  rw [strncmp_dotdot, strncmp_dotdot, ← dotdot_prefix_takeWhile, h.takeWhile_eq,
    dotdot_prefix_takeWhile]

theorem find_eq (h : SameRuns p p') (entries : List RamDentry)
    : ramfs_lookup.find p (compLen p) entries = ramfs_lookup.find p' (compLen p') entries := by
  rw [find_takeWhile, find_takeWhile, h.takeWhile_eq]

theorem ramfs_lookup_eq (h : SameRuns p p') (vdir : Nat) (vpp : Option Nat)
    : ramfs_lookup vdir vpp p (compLen p) = ramfs_lookup vdir vpp p' (compLen p') := by
  unfold ramfs_lookup
  rw [h.strcmp_eq (c := ['.']) (by decide), h.strcmp_eq (c := ['.', '.']) (by decide)]
  simp only [h.find_eq]

end SameRuns

structure SameNd (nd nd' : Nameidata) : Prop where
  vdir : nd.vdir = nd'.vdir
  vn : nd.vn = nd'.vn
  issymlink : nd.issymlink = nd'.issymlink
  name : SameRuns nd.name nd'.name

inductive SameRound : lookup.Round → lookup.Round → Prop where
  | done (error : Code) {nd nd' : Nameidata} (h : SameNd nd nd') (hnext : SameRuns nd.next nd'.next)
    : SameRound (.done error nd) (.done error nd')
  | next (vdir : Nat) {nd nd' : Nameidata} (h : SameNd nd nd') (hhead : nd.name.head? ≠ some '/')
    (hhead' : nd'.name.head? ≠ some '/') : SameRound (.next vdir nd) (.next vdir nd')

section Walk

variable {nd nd' : Nameidata} {follow : Bool} {v : Nat} {s : St}

theorem alike_nextname (h : SameNd nd nd') (hnext : SameRuns nd.next nd'.next)
    : alike SameRound (lookup.nextname v nd) (lookup.nextname v nd') s := by
  unfold lookup.nextname
  rw [if_congr hnext.nil_iff rfl rfl]
  split
  . apply alike_bind_same
    intro _ s1 _
    apply alike_pure
    exact .done none h hnext
  . rw [← h.vdir]
    apply alike_bind_same
    intro _ s1 _
    apply alike_bind_same
    intro _ s2 _
    apply alike_pure
    exact .next v ⟨rfl, h.vn, h.issymlink, hnext.skip⟩ (head_skipSlashes _) (head_skipSlashes _)

theorem alike_component (h : SameNd nd nd') (hlen : nd.len = compLen nd.name)
    (hlen' : nd'.len = compLen nd'.name)
    : alike SameRound (lookup.component follow v nd) (lookup.component follow v nd') s := by
  have hnext : SameRuns nd.next nd'.next := by
    unfold Nameidata.next
    rw [hlen, hlen']
    apply h.name.next
  unfold lookup.component
  dsimp only
  rw [hlen, hlen', h.vn, h.name.ramfs_lookup_eq]
  apply alike_bind_same
  intro _ s1 _
  apply alike_bind_same
  intro r s2 _
  apply alike_bind_same
  intro _ s3 _
  rcases r with ⟨error, vn⟩
  cases error with
  | some e =>
    apply alike_pure
    exact .done (some e) ⟨rfl, rfl, h.issymlink, h.name⟩ (by simpa [Nameidata.next, hlen, hlen'] using hnext)
  | none =>
    cases vn with
    | none => apply alike_throw
    | some w =>
      apply alike_bind_same
      intro _ s4 _
      apply alike_bind_same
      intro st s5 _
      apply alike_bind_same
      intro w s6 _
      apply alike_bind_same
      intro vd s7 _
      have hhead := hnext.head_iff
      unfold Nameidata.next at hnext hhead ⊢
      rw [hlen, hlen'] at hnext hhead
      dsimp only
      rw [if_congr (by rw [hhead]) rfl rfl]
      split
      . apply alike_pure
        exact .done none ⟨rfl, rfl, rfl, h.name⟩ hnext
      . apply alike_nextname
        . exact ⟨rfl, rfl, h.issymlink, h.name⟩
        . exact hnext

theorem alike_round (h : SameNd nd nd')
    : alike SameRound (lookup.round follow v nd) (lookup.round follow v nd') s := by
  unfold lookup.round
  dsimp only
  rw [if_congr h.name.nil_iff rfl rfl]
  split
  . next hnil =>
    rw [h.vdir]
    apply alike_bind_same
    intro _ s1 _
    apply alike_pure
    refine .done none ⟨rfl, rfl, h.issymlink, h.name⟩ ?_
    apply h.name.next
  . rw [if_congr h.name.dotdot_iff rfl rfl]
    split
    . apply alike_bind_same
      intro st s1 _
      apply alike_bind_same
      intro c s2 _
      cases c with
      | root w =>
        apply alike_nextname
        . exact ⟨rfl, rfl, h.issymlink, h.name⟩
        . apply h.name.next
      | dir w =>
        apply alike_component
        . exact ⟨h.vdir, h.vn, h.issymlink, h.name⟩
        . rfl
        . rfl
    . apply alike_component
      . exact ⟨h.vdir, h.vn, h.issymlink, h.name⟩
      . rfl
      . rfl

theorem alike_loop {fuel fuel' : Nat} (h : SameNd nd nd') (hhead : nd.name.head? ≠ some '/')
    (hhead' : nd'.name.head? ≠ some '/') (hfuel : nd.name.length < fuel) (hfuel' : nd'.name.length < fuel')
    : alike (fun r r' => r.1 = r'.1 ∧ SameNd r.2 r'.2 ∧ SameRuns r.2.next r'.2.next)
        (lookup.loop follow fuel v nd) (lookup.loop follow fuel' v nd') s := by
  induction fuel generalizing v nd nd' fuel' s with
  | zero => omega
  | succ fuel ih =>
    cases fuel' with
    | zero => omega
    | succ fuel' =>
      unfold lookup.loop
      apply alike_bind (alike_round h)
      intro r r' s1 hr hrun hrun'
      have hnames := @wp_round_names follow v nd s
      have hnames' := @wp_round_names follow v nd' s
      rw [wp_of_ok hrun] at hnames
      rw [wp_of_ok hrun'] at hnames'
      cases hr with
      | done error h hnext => exact alike_pure ⟨rfl, h, hnext⟩
      | next w h hhead1 hhead1' =>
        apply ih h hhead1 hhead1'
        . cases hnames with
          | next _ _ hne hname =>
            have := length_next_lt hne hhead
            rw [hname]
            omega
        . cases hnames' with
          | next _ _ hne hname =>
            have := length_next_lt hne hhead'
            rw [hname]
            omega

theorem alike_lookup (h : SameNd nd nd') (hhead : nd.name.head? ≠ some '/')
    (hhead' : nd'.name.head? ≠ some '/')
    : alike (fun r r' => r.1 = r'.1 ∧ SameNd r.2 r'.2 ∧ SameRuns r.2.next r'.2.next)
        (lookup nd) (lookup nd') s := by
  unfold lookup
  apply alike_bind_same
  intro st s1 _
  rw [h.vdir]
  apply alike_loop
  . exact ⟨rfl, h.vn, rfl, h.name⟩
  . exact hhead
  . exact hhead'
  . apply Nat.lt_succ_self
  . apply Nat.lt_succ_self

end Walk

theorem SameRuns.start_eq {p p' : Name} (h : SameRuns p p') (vn : Option Nat)
    : namei.start p vn = namei.start p' vn := by
  unfold namei.start
  rw [if_congr h.head_iff rfl rfl]

theorem SameRuns.concat {p p' : Name} (h : SameRuns p p') (link : Name)
    : SameRuns (namei.concat link p) (namei.concat link p') := by
  unfold namei.concat
  split
  . apply SameRuns.nil
  . apply (SameRuns.refl link).append h

theorem alike_nameiLoop (fuel : Nat) {s : St} {p p' : Name} {vn : Option Nat} {nd nd' : Nameidata}
    (h : SameRuns p p') (hnd : SameNd { nd with name := p } { nd' with name := p' })
    (hfit : ∀ q, Rebuilds s p vn nd q → q.length < namei.bufsize)
    (hfit' : ∀ q, Rebuilds s p' vn nd' q → q.length < namei.bufsize)
    : alike (fun r r' => r.1 = r'.1 ∧ SameNd r.2 r'.2) (namei.loop fuel p vn nd)
        (namei.loop fuel p' vn nd') s := by
  induction fuel generalizing s p p' vn nd nd' with
  | zero => apply alike_throw
  | succ fuel ih =>
    unfold namei.loop
    have hstart := h.start_eq vn
    rw [← hstart]
    apply alike_bind_same
    intro vdir s1 hs1
    have hs1' := hs1
    rw [hstart] at hs1'
    have hnames : SameNd { nd with vdir, name := skipSlashes p } { nd' with vdir, name := skipSlashes p' } :=
      ⟨rfl, hnd.vn, hnd.issymlink, h.skip⟩
    apply alike_bind (alike_lookup hnames (head_skipSlashes p) (head_skipSlashes p'))
    intro r r' s2 hr hs2 hs2'
    rcases r with ⟨error, nd1⟩
    rcases r' with ⟨error', nd1'⟩
    rcases hr with ⟨herror, hnd1, hnext⟩
    dsimp only at herror hnd1 hnext ⊢
    subst herror
    have hdone : alike (fun r r' : Code × Nameidata => r.1 = r'.1 ∧ SameNd r.2 r'.2)
        (pure (error, nd1) : Prog _) (pure (error, nd1')) s2 := alike_pure ⟨rfl, hnd1⟩
    rw [← hnd1.issymlink, ← hnd1.vn]
    cases error with
    | some e => exact hdone
    | none =>
    cases hsym : nd1.issymlink with
    | false => exact hdone
    | true =>
    cases hvn : nd1.vn with
    | none => exact hdone
    | some v =>
      have hsym' := hsym
      have hvn' := hvn
      rw [hnd1.issymlink] at hsym'
      rw [hnd1.vn] at hvn'
      dsimp only
      apply alike_bind_same
      intro link s3 hs3
      have hlt := hfit _ (Rebuilds.here hs1 hs2 hsym hvn hs3)
      have hlt' := hfit' _ (Rebuilds.here hs1' hs2' hsym' hvn' hs3)
      rw [if_neg (by omega), if_neg (by omega)]
      apply alike_bind_same
      intro _ s4 hs4
      rw [← hnd1.vdir]
      apply ih (hnext.concat link)
      . exact ⟨hnd1.vdir, hnd1.vn, hnd1.issymlink, hnext.concat link⟩
      . intro q hq
        apply hfit q (Rebuilds.later hs1 hs2 hsym hvn hs3 hs4 hq)
      . intro q hq
        apply hfit' q (Rebuilds.later hs1' hs2' hsym' hvn' hs3 hs4 _)
        rw [← hnd1.vdir]
        apply hq

/--
The walks of both paths, which may read different garbage, return the same or stop at the same, and leave the same
state.
-/
def RunsIgnored (st : St) (g : Garbage) (p p' : Name) (fuel : Nat) : Prop :=
  match namei p fuel st, namei p' fuel (st.withGarbage g) with
  | .ok r s, .ok r' s' =>
    r.1 = r'.1 ∧ r.2.vn = r'.2.vn ∧ r.2.vdir = r'.2.vdir ∧ s.withGarbage g = s'.withGarbage g
  | .error e s, .error e' s' => e = e' ∧ s.withGarbage g = s'.withGarbage g
  | _, _ => False

/--
`namei` does the same for two paths that differ in the lengths of their runs of slashes, if every path put
together at a symbolic link is below 512 bytes and the new vnodes have the same garbage in both walks.
-/
theorem namei_ignores_runs {st : St} {g : Garbage} (hfollow : g.follow = st.junk.follow)
    (hvroot : ∀ n, g.vroot n = st.junk.vroot n) {p p' : Name} (h : SameRuns p p') (fuel : Nat)
    (hfit : ∀ q, Rebuilt st p q → q.length < 512) (hfit' : ∀ q, Rebuilt (st.withGarbage g) p' q → q.length < 512)
    : RunsIgnored st g p p' fuel := by
  have hnd : SameNd ⟨0, none, p, 0, false⟩ ⟨0, none, p', 0, false⟩ := ⟨rfl, rfl, rfl, h⟩
  have hsame := St.withGarbage_eq hfollow hvroot
  rw [hsame] at hfit'
  have hwalks := alike_nameiLoop fuel h hnd hfit hfit'
  unfold RunsIgnored
  rw [hsame]
  unfold namei
  unfold alike at hwalks
  split at hwalks
  . next r s r' s' hrun hrun' =>
    rcases hwalks with ⟨⟨herror, hnd'⟩, rfl⟩
    rw [hrun, hrun']
    exact ⟨herror, hnd'.vn, hnd'.vdir, rfl⟩
  . next e s e' s' hrun hrun' =>
    rcases hwalks with ⟨rfl, rfl⟩
    rw [hrun, hrun']
    exact ⟨rfl, rfl⟩
  . exact hwalks.elim

theorem not_rebuilt_of_ok {st s : St} {p q : Name} {r : Option Errno × Nameidata} (hrun : namei p 1 st = .ok r s)
    : ¬ Rebuilt st p q := by
  have hthrow : ∀ {s s1 s2 s3 : St} {name link : Name} {vn : Option Nat} {nd nd' : Nameidata} {vdir v : Nat},
      namei.start name vn s = .ok vdir s1 →
      lookup { nd with vdir, name := skipSlashes name } s1 = .ok (none, nd') s2 →
      nd'.issymlink = true → nd'.vn = some v → ramfs_readlink v s2 = .ok link s3 →
      wp (namei.loop 1 name vn nd) (fun _ _ => False) (fun _ _ => True) s := by
    intro s s1 s2 s3 name link vn nd nd' vdir v hstart hlookup hsym hvn hlink
    unfold namei.loop
    rw [wp_bind, wp_of_ok hstart, wp_bind, wp_of_ok hlookup]
    dsimp only
    rw [hsym, hvn]
    dsimp only
    rw [wp_bind, wp_of_ok hlink]
    split
    . trivial
    . apply wp_bind_of wp_trivial
      intro _ s4 _
      trivial
  unfold namei at hrun
  intro hq
  cases hq with
  | here hstart hlookup hsym hvn hlink =>
    have hfalse := hthrow hstart hlookup hsym hvn hlink
    rw [wp_of_ok hrun] at hfalse
    exact hfalse
  | later hstart hlookup hsym hvn hlink hput hq =>
    have hfalse := hthrow hstart hlookup hsym hvn hlink
    rw [wp_of_ok hrun] at hfalse
    exact hfalse

@[irreducible]
def mountedDir : St :=
  after ((KCall.call (.vfs_close 3)).run 1)
    (after ((KCall.call (.vfs_close 4)).run 1)
      (after ((KCall.call (.vfs_open "/m/.".toList .VDIR false)).run 1)
        (after ((KCall.call (.vfs_mkdir "/m/a".toList)).run 1)
          (after ((KCall.call (.vfs_mount "/m".toList "ramfs".toList)).run 1)
            (after ((KCall.call (.vfs_mkdir "/m".toList)).run 1) rootMounted)))))

theorem mountedDir_reached : KCall.Reached KCall.Orderly zeroed mountedDir := by
  unfold mountedDir
  apply KCall.Reached.after
  . apply KCall.Reached.after
    . apply KCall.Reached.after
      . apply KCall.Reached.after
        . apply KCall.Reached.after
          . apply rootMounted_orderly.after
            . trivial
            . decide +kernel
          . trivial
          . decide +kernel
        . trivial
        . decide +kernel
      . trivial
      . decide +kernel
    . trivial
    . decide +kernel
  . trivial
  . decide +kernel

theorem mountedDir_walks
    : result (namei "/m////a/..".toList 1) mountedDir = some (none, ⟨6, some 7, "..".toList, 2, false⟩) ∧
        result (namei "/m/a/..".toList 1) mountedDir = some (none, ⟨6, some 7, "..".toList, 2, false⟩) ∧
        result (namei "/m/a/..".toList 1) (mountedDir.withGarbage ⟨false, fun n => n = 3⟩) =
          some (none, ⟨1, some 0, "..".toList, 2, false⟩) := by
  refine ⟨?_, ?_, ?_⟩
  . decide +kernel
  . decide +kernel
  . decide +kernel

theorem namei_ignores_runs_mountedDir
    : RunsIgnored mountedDir ⟨mountedDir.junk.follow, mountedDir.junk.vroot⟩ "/m////a/..".toList "/m/a/..".toList 1 := by
  rcases mountedDir_walks with ⟨hruns, hsingle, _⟩
  apply namei_ignores_runs rfl (fun _ => rfl)
  . exact SameRuns.replace "/m".toList "a/..".toList 3 0
  . intro q hq
    exact absurd hq (not_rebuilt_of_ok (ok_of_result hruns))
  . intro q hq
    rw [St.withGarbage_eq rfl (fun _ => rfl)] at hq
    exact absurd hq (not_rebuilt_of_ok (ok_of_result hsingle))

theorem not_runsIgnored_mountedDir
    : KCall.Reached KCall.Orderly zeroed mountedDir ∧ SameRuns "/m////a/..".toList "/m/a/..".toList ∧
        (∀ q, ¬ Rebuilt mountedDir "/m////a/..".toList q) ∧
        (∀ q, ¬ Rebuilt (mountedDir.withGarbage ⟨false, fun n => n = 3⟩) "/m/a/..".toList q) ∧
        (∃ s, namei "/m////a/..".toList 1 mountedDir = .ok (none, ⟨6, some 7, "..".toList, 2, false⟩) s) ∧
        (∃ s, namei "/m/a/..".toList 1 (mountedDir.withGarbage ⟨false, fun n => n = 3⟩) =
          .ok (none, ⟨1, some 0, "..".toList, 2, false⟩) s) ∧
        ¬ RunsIgnored mountedDir ⟨false, fun n => n = 3⟩ "/m////a/..".toList "/m/a/..".toList 1 := by
  rcases mountedDir_walks with ⟨hmounted, _, hroot⟩
  refine ⟨mountedDir_reached, SameRuns.replace "/m".toList "a/..".toList 3 0, ?_, ?_,
    ⟨_, ok_of_result hmounted⟩, ⟨_, ok_of_result hroot⟩, ?_⟩
  . intro q
    exact not_rebuilt_of_ok (ok_of_result hmounted)
  . intro q
    exact not_rebuilt_of_ok (ok_of_result hroot)
  . intro h
    unfold RunsIgnored at h
    rw [ok_of_result hmounted, ok_of_result hroot] at h
    simp at h

end Fs
end Franklin
