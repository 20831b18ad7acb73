import Franklin.Fs.Initramfs
import Franklin.Fs.Lemmas.Circles
import Franklin.Fs.Lemmas.Numbered
import Franklin.Fs.Lemmas.Records

/-!
This module contains which strings are copied to buffers of a fixed size, and that they can be longer than these.
-/

namespace Franklin
namespace Fs

section Namei

def namei.Joins (name : Name) (vn : Option Nat) (nd nd' : Nameidata) (w : Nat) (link : Name) (s s' : St) : Prop :=
  ∃ v s1 s2, start name vn s = .ok v s1 ∧
    lookup { nd with vdir := v, name := skipSlashes name } s1 = .ok (none, nd') s2 ∧
    nd'.issymlink = true ∧ nd'.vn = some w ∧ ramfs_readlink w s2 = .ok link s'

/--
A run of `namei` copies `link` to its buffer and `rest` behind it.
-/
inductive namei.Copies : Nat → Name → Option Nat → Nameidata → St → Name → Name → Prop where
  | here (fuel : Nat) (name : Name) (vn : Option Nat) (nd nd' : Nameidata) (w : Nat) (link : Name) (s s' : St)
      (h : Joins name vn nd nd' w link s s') : Copies (fuel + 1) name vn nd s link nd'.next
  | behind (fuel : Nat) (name : Name) (vn : Option Nat) (nd nd' : Nameidata) (w : Nat) (link link' rest : Name)
      (s s' s'' : St) (h : Joins name vn nd nd' w link s s') (hsize : (link ++ nd'.next).length < bufsize)
      (hput : vput w s' = .ok () s'')
      (hrest : Copies fuel (concat link nd'.next) (some nd'.vdir) nd' s'' link' rest)
      : Copies (fuel + 1) name vn nd s link' rest

/--
The link and the rest of the path fit in the buffer.
-/
def namei.Holds (link rest : Name) : Prop :=
  Copyable bufsize 0 link ∧ Copyable bufsize link.length rest

instance (link rest : Name) : Decidable (namei.Holds link rest) := by
  unfold namei.Holds
  infer_instance

theorem namei.Holds.length {link rest : Name} (h : Holds link rest) : (link ++ rest).length < bufsize := by
  rw [List.length_append]
  exact h.2.2

variable {st s s' s'' : St} {vn : Option Nat} {L : Option Loc} {V D W : Loc} {name link rest : Name}
  {nd nd' : Nameidata} {w fuel : Nat}

theorem Starting.of_joins (hinv : Inv st) (h : Starting st s vn L) (hjoins : namei.Joins name vn nd nd' w link s s')
    : ∃ V D W, Resolve.start st name L = some V ∧
        Resolve.lookup st ((skipSlashes name).length + 1) none V (skipSlashes name) = some (.link D W nd'.next) ∧
        link = (st.nodes (W.node st)).link ∧ Walked st s' [(w, W), (nd'.vdir, D)] [w] [] := by
  rcases hjoins with ⟨v, s1, s2, hstart, hlookup, hlink, hvn, hread⟩
  rcases (wp_of_ok hstart).mp (h.wp_start hinv name) with ⟨V, hV, hs1⟩
  have hwalked : Walked st s1 [(({ nd with vdir := v, name := skipSlashes name } : Nameidata).vdir, V)] [] [] := hs1
  rcases (wp_of_ok hlookup).mp (hwalked.wp_lookup hinv) with ⟨e, he, hs2⟩
  generalize hr : ((none : Code), nd') = r at hs2
  cases hs2 with
  | link d w' D W name' len hs2 =>
    rw [Prod.mk.injEq] at hr
    rcases hr with ⟨_, rfl⟩
    dsimp only at hvn
    rw [Option.some.injEq] at hvn
    subst hvn
    rcases (wp_of_ok hread).mp (hs2.wp_ramfs_readlink List.mem_cons_self) with ⟨hlinked, hs3⟩
    exact ⟨V, D, W, hV, he, hlinked, hs3⟩
  | _ =>
    rw [Prod.mk.injEq] at hr
    rcases hr with ⟨_, rfl⟩
    cases hlink

theorem Starting.joins (hinv : Inv st) (hquiet : Quiet st) (h : Starting st s vn L) (nd : Nameidata)
    (hstart : Resolve.start st name L = some V)
    (hlookup : Resolve.lookup st ((skipSlashes name).length + 1) none V (skipSlashes name) = some (.link D W rest))
    : ∃ nd' w s', namei.Joins name vn nd nd' w (st.nodes (W.node st)).link s s' ∧ nd'.next = rest := by
  rcases ok_of_wp (wp_of_quiet hquiet (by simp [hstart]) (h.wp_start hinv name)) with ⟨v, s1, hv, V', hV', hs1⟩
  rw [hstart, Option.some.injEq] at hV'
  subst hV'
  have hwalked : Walked st s1 [(({ nd with vdir := v, name := skipSlashes name } : Nameidata).vdir, V)] [] [] := hs1
  rcases ok_of_wp (wp_of_quiet hquiet (by simp [hlookup]) (hwalked.wp_lookup hinv)) with ⟨r, s2, hr, e, he, hs2⟩
  dsimp only at he
  rw [hlookup, Option.some.injEq] at he
  subst he
  generalize hexit : Exit.link D W rest = e at hs2
  cases hs2 with
  | link d w D' W' name' len hs2 =>
    rw [Exit.link.injEq] at hexit
    rcases hexit with ⟨rfl, rfl, rfl⟩
    rcases ok_of_wp (wp_of_quiet hquiet id (hs2.wp_ramfs_readlink List.mem_cons_self)) with
      ⟨link, s3, hread, rfl, _⟩
    exact ⟨_, w, s3, ⟨v, s1, s2, hv, hr, rfl, rfl, hread⟩, rfl⟩
  | _ => cases hexit

theorem Starting.mem_copies (hinv : Inv st) (h : Starting st s vn L)
    (hcopies : namei.Copies fuel name vn nd s link rest) : (link, rest) ∈ Resolve.copies st fuel name L := by
  induction hcopies generalizing L with
  | here fuel name vn nd nd' w link s s' hjoins =>
    rcases h.of_joins hinv hjoins with ⟨V, D, W, hstart, hlookup, rfl, _⟩
    rw [Resolve.copies_of_link _ hstart hlookup]
    apply List.mem_cons_self
  | behind fuel name vn nd nd' w link link' rest s s' s'' hjoins _ hput _ ih =>
    rcases h.of_joins hinv hjoins with ⟨V, D, W, hstart, hlookup, rfl, hs'⟩
    rw [Resolve.copies_of_link _ hstart hlookup]
    apply List.mem_cons_of_mem
    apply ih
    apply Starting.behindLink
    have hs'' := (wp_of_ok hput).mp (hs'.wp_vput hinv)
    simpa using hs''

theorem Starting.copies_hold (hinv : Inv st) (hquiet : Quiet st) (h : Starting st s vn L)
    (hcopies : ∀ link rest, namei.Copies fuel name vn nd s link rest → namei.Holds link rest)
    : ∀ p ∈ Resolve.copies st fuel name L, namei.Holds p.1 p.2 := by
  induction fuel generalizing s vn L name nd with
  | zero =>
    intro p hp
    cases hp
  | succ fuel ih =>
    intro p hp
    unfold Resolve.copies at hp
    cases hstart : Resolve.start st name L with
    | none =>
      rw [hstart] at hp
      cases hp
    | some V =>
      rw [hstart] at hp
      dsimp only at hp
      cases hlookup : Resolve.lookup st ((skipSlashes name).length + 1) none V (skipSlashes name) with
      | none =>
        rw [hlookup] at hp
        cases hp
      | some e =>
        rw [hlookup] at hp
        cases e with
        | link D W next =>
          rcases h.joins hinv hquiet nd hstart hlookup with ⟨nd', w, s', hjoins, rfl⟩
          have hhere := hcopies _ _ (.here fuel name vn nd nd' w _ s s' hjoins)
          rcases List.mem_cons.mp hp with rfl | hp
          . exact hhere
          . rcases h.of_joins hinv hjoins with ⟨V', D', W', hstart', hlookup', _, hs'⟩
            rw [hstart, Option.some.injEq] at hstart'
            subst hstart'
            rw [hlookup, Option.some.injEq, Exit.link.injEq] at hlookup'
            rcases hlookup' with ⟨rfl, rfl, _⟩
            rcases ok_of_wp (wp_of_quiet hquiet id (hs'.wp_vput hinv)) with ⟨_, s'', hput, hs''⟩
            have hbehind : Starting st s'' (some nd'.vdir) (some D) := by
              apply Starting.behindLink
              simpa using hs''
            have hlater : ∀ link rest, namei.Copies fuel (namei.concat (st.nodes (W.node st)).link nd'.next)
                (some nd'.vdir) nd' s'' link rest → namei.Holds link rest := by
              intro link rest hrest
              exact hcopies _ _ (.behind fuel name vn nd nd' w _ link rest s s' s'' hjoins hhere.length hput hrest)
            exact ih hbehind hlater p hp
        | _ => cases hp

end Namei

section Readdir

inductive ramfs_readdir.Makes (pos : Nat) : List RamDentry → Listing → St → Name → Prop where
  | here (de : RamDentry) (entries : List RamDentry) (r : Listing) (s : St) : Makes pos (de :: entries) r s de.name
  | behind (de : RamDentry) (entries : List RamDentry) (r : Listing) (s s' : St) (d : Dirent) (type : Nat)
      (name : Name) (h : ramfs_make_dirent pos de.node 0 de.name s = .ok d s')
      (htype : dtype (s'.nodes de.node).type = some type)
      (hresid : (r.write { d with type } de.seq).resid ≠ 0)
      (hrest : Makes pos entries (r.write { d with type } de.seq) s' name) : Makes pos (de :: entries) r s name

inductive ramfs_readdir.Copies (pos vdir : Nat) (count : BitVec 64) (offset : Nat) (s : St) : Name → Prop where
  | dot (h : offset = SEQ_DOT) : Copies pos vdir count offset s ['.']
  | dotdot (h : offset = SEQ_DOT ∨ offset = SEQ_DOTDOT) : Copies pos vdir count offset s ['.', '.']
  | entry (vd : Vnode) (s1 s2 : St) (r : Listing) (name : Name) (hvd : getVnode vdir s = .ok vd s)
      (hlock : acquireNode vd.data s = .ok () s1)
      (hdots : dots pos vd.data (s1.nodes vd.data) { resid := count, offset, records := [] } s1 = .ok r s2)
      (heof : r.offset ≠ SEQ_EOF)
      (hmakes : Makes pos ((s1.nodes vd.data).dentry.dropWhile (·.seq ≠ r.offset)) r s2 name)
      : Copies pos vdir count offset s name

variable {pos v : Nat} {s : St} {entries : List RamDentry} {r : Listing} {name : Name}

theorem ramfs_readdir.Makes.mem (h : Makes pos entries r s name) : ∃ de ∈ entries, de.name = name := by
  induction h with
  | here de entries r s => exact ⟨de, List.mem_cons_self, rfl⟩
  | behind de entries r s s' d type name _ _ _ _ ih =>
    rcases ih with ⟨de', hde', hname⟩
    exact ⟨de', List.mem_cons_of_mem de hde', hname⟩

theorem ramfs_readdir.copies_entry (h : Listable s v) {de : RamDentry}
    (hde : de ∈ (s.nodes (s.vnodes v).data).dentry) (count : BitVec 64) : Copies pos v count de.seq s de.name := by
  have hstart := h.seq de hde
  unfold SEQ_START at hstart
  have hdots := @dots_eq pos (held s (s.vnodes v).data) ⟨count, de.seq, []⟩ (s.vnodes v).data
  have hdot : ¬ (de.seq = SEQ_DOT ∨ de.seq = SEQ_DOTDOT) := by
    unfold SEQ_DOT SEQ_DOTDOT
    omega
  rw [if_neg (fun hwild => hdot hwild.1)] at hdots
  have hsame : dotted pos (held s (s.vnodes v).data) (s.vnodes v).data ⟨count, de.seq, []⟩ = ⟨count, de.seq, []⟩ := by
    unfold dotted
    dsimp only
    rw [if_neg (fun heq => hdot (Or.inl heq)), if_neg (fun heq => hdot (Or.inr heq))]
  rw [hsame] at hdots
  have hdentry : ((held s (s.vnodes v).data).nodes (s.vnodes v).data).dentry =
      (s.nodes (s.vnodes v).data).dentry := by
    rw [held_nodes]
  rcases entriesFrom_seq h.seq h.nodup hde with ⟨l, hl⟩
  unfold entriesFrom at hl
  rw [if_neg hdot] at hl
  apply Copies.entry _ _ _ _ _ (getVnode_eq h.freed) (acquireNode_held h.ramlock) hdots
  . dsimp only
    unfold SEQ_EOF
    omega
  . rw [hdentry, hl]
    exact .here de l _ _

theorem ramfs_readdir.copies_iff (h : Listable s v)
    : (∀ count offset name, Copies pos v count offset s name → Copyable 256 0 name) ↔
        ∀ de ∈ (s.nodes (s.vnodes v).data).dentry, Copyable 256 0 de.name := by
  constructor
  . intro hcopies de hde
    exact hcopies 0 _ _ (copies_entry h hde 0)
  . intro hnames count offset name hcopies
    cases hcopies with
    | dot _ => decide
    | dotdot _ => decide
    | entry vd s1 s2 r _ hvd hlock _ _ hmakes =>
      rw [getVnode_eq h.freed] at hvd
      injection hvd with hvd
      subst hvd
      rw [acquireNode_held h.ramlock] at hlock
      injection hlock with _ hs1
      subst hs1
      have hdentry : ((held s (s.vnodes v).data).nodes (s.vnodes v).data).dentry =
          (s.nodes (s.vnodes v).data).dentry := by
        rw [held_nodes]
      rw [hdentry] at hmakes
      rcases hmakes.mem with ⟨de, hde, rfl⟩
      exact hnames de ((List.dropWhile_suffix _).subset hde)

end Readdir

section Initramfs

theorem initramfs.name_iff {fuel : Nat} {stack file : Nat → UInt8} (hfuel : 100 ≤ fuel)
    : (initramfs.name fuel stack file).isSome ↔ ∃ n, 1 ≤ n ∧ n < 99 ∧ file n = 0 := by
  unfold initramfs.name
  have hslash : ({ size := 100, byte := stack } : Block).set 0 '/'.toUInt8 =
      some { size := 100, byte := Function.update stack 0 '/'.toUInt8 } := by
    unfold Block.set
    rw [if_pos ⟨Int.le_refl 0, by change (0 : Int) < 100; decide⟩]
    rfl
  have hcopy := @strcpy_isSome_iff file fuel 1 { size := 100, byte := Function.update stack 0 '/'.toUInt8 } hfuel
  rw [hslash, Option.bind_eq_bind, Option.bind_some]
  refine hcopy.trans ?_
  constructor
  . rintro ⟨n, hn, hzero, hlt⟩
    dsimp only at hlt
    exact ⟨n, hn, by omega, hzero⟩
  . rintro ⟨n, hn, hlt, hzero⟩
    refine ⟨n, hn, hzero, ?_⟩
    dsimp only
    omega

end Initramfs

/--
A run of `namei` of the path copies `link` to its buffer and `rest` behind it.
-/
def namei.Copied (fuel : Nat) (path : Name) (st : St) (link rest : Name) : Prop :=
  Copies fuel path none { vdir := 0, vn := none, name := path, len := 0, issymlink := false } st link rest

/--
The strings that are copied stay inside of their buffers exactly if they are short enough and not empty, and nothing
else keeps them there. For `namei` this is said of the links and rests of the path, for `ramfs_readdir` of the
entries, and for `initramfs` of the member.
-/
theorem copies_inside_iff {junk : Junk} {own : List Nat} {st : St} (h : Call.Reached Call.Any junk own st)
    : (∀ (dest : Block) (i fuel : Nat) (name : Name), dest.size ≤ fuel → (∀ c ∈ name, 0 < c.toNat ∧ c.toNat < 256) →
        ((∀ behind, (strcpy fuel dest i (text name behind)).isSome) ↔ Copyable dest.size i name)) ∧
      (∀ (path : Name) (fuel : Nat),
        ((∀ p ∈ Resolve.copies st fuel path none, namei.Holds p.1 p.2) →
          ∀ link rest, namei.Copied fuel path st link rest → namei.Holds link rest) ∧
        (Quiet st → (∀ link rest, namei.Copied fuel path st link rest → namei.Holds link rest) →
          ∀ p ∈ Resolve.copies st fuel path none, namei.Holds p.1 p.2)) ∧
      (∀ pos v, (st.vnodes v).freed = false → (st.nodes (st.vnodes v).data).ramlock = false →
        ((∀ count offset name, ramfs_readdir.Copies pos v count offset st name → Copyable 256 0 name) ↔
          ∀ de ∈ (st.nodes (st.vnodes v).data).dentry, Copyable 256 0 de.name)) ∧
      ∀ (fuel : Nat) (stack file : Nat → UInt8), 100 ≤ fuel →
        ((initramfs.name fuel stack file).isSome ↔ ∃ n, 1 ≤ n ∧ n < 99 ∧ file n = 0) := by
  have hinv := h.inv_unique.1
  refine ⟨?_, ?_, ?_, ?_⟩
  . intro dest i fuel name hfuel hname
    exact strcpy_text_iff hfuel hname
  . intro path fuel
    have hstarting : Starting st st none none := .first (.init st)
    constructor
    . intro hholds link rest hcopied
      exact hholds _ (hstarting.mem_copies hinv hcopied)
    . intro hquiet hcopied
      exact hstarting.copies_hold hinv hquiet hcopied
  . intro pos v hfreed hramlock
    exact ramfs_readdir.copies_iff (h.numbered.listable hfreed hramlock)
  . intro fuel stack file hfuel
    exact initramfs.name_iff hfuel

@[irreducible]
def loopedDir : St :=
  after ((Call.vfs_symlink "/d/l".toList "/d".toList).run 1)
    (after ((Call.vfs_mkdir "/d".toList).run 1) (after boot (.empty zeroed)))

theorem loopedDir_reached : ∃ own, Call.Reached Call.Any zeroed own loopedDir := by
  have hboot : Call.Reached Call.Any zeroed [] (after boot (.empty zeroed)) := by
    apply Call.Reached.boots
    decide +kernel
  have hdir : Call.Any (after boot (.empty zeroed)) 1 (.vfs_mkdir "/d".toList) := trivial
  have hlink : Call.Any (after ((Call.vfs_mkdir "/d".toList).run 1) (after boot (.empty zeroed))) 1
      (.vfs_symlink "/d/l".toList "/d".toList) := trivial
  rcases hboot.after (by trivial) hdir (by decide +kernel) with ⟨r, hmkdir⟩
  rcases hmkdir.after (by trivial) hlink (by decide +kernel) with ⟨r', hsymlink⟩
  unfold loopedDir
  exact ⟨_, hsymlink⟩

theorem copies_inside_loopedDir
    : Resolve.copies loopedDir 3 "/d/l/l/l".toList none = [("/d".toList, "/l/l".toList), ("/d".toList, "/l".toList)] ∧
        ∀ link rest, namei.Copied 3 "/d/l/l/l".toList loopedDir link rest → namei.Holds link rest := by
  rcases loopedDir_reached with ⟨own, hreached⟩
  have hcopies : Resolve.copies loopedDir 3 "/d/l/l/l".toList none =
      [("/d".toList, "/l/l".toList), ("/d".toList, "/l".toList)] := by
    decide +kernel
  refine ⟨hcopies, ((copies_inside_iff hreached).2.1 "/d/l/l/l".toList 3).1 ?_⟩
  intro p hp
  rw [hcopies] at hp
  rcases List.mem_cons.mp hp with rfl | hp
  . decide
  . rw [List.mem_singleton] at hp
    subst hp
    decide

def longDir : Call :=
  .vfs_mkdir ('/' :: List.replicate 256 'a')

def longLink : Call :=
  .vfs_symlink "/l".toList (List.replicate 512 'a')

@[irreducible]
def longNames : St :=
  after (longLink.run 1) (after (longDir.run 1) (after boot (.empty zeroed)))

theorem longNames_reached : ∃ own, Call.Reached Call.Any zeroed own longNames := by
  have hboot : Call.Reached Call.Any zeroed [] (after boot (.empty zeroed)) := by
    apply Call.Reached.boots
    decide +kernel
  have hdir : Call.Any (after boot (.empty zeroed)) 1 longDir := trivial
  have hlink : Call.Any (after (longDir.run 1) (after boot (.empty zeroed))) 1 longLink := trivial
  rcases hboot.after (by trivial) hdir (by decide +kernel) with ⟨r, hmkdir⟩
  rcases hmkdir.after (by trivial) hlink (by decide +kernel) with ⟨r', hsymlink⟩
  unfold longNames
  exact ⟨_, hsymlink⟩

theorem not_copies_inside
    : (∃ own, Call.Reached Call.Any zeroed own longNames) ∧
        (∃ link rest, namei.Copied 1 "/l/".toList longNames link rest ∧ ¬ namei.Holds link rest) ∧
        (∃ count offset name, ramfs_readdir.Copies 13 0 count offset longNames name ∧ ¬ Copyable 256 0 name) ∧
        (initramfs.name 200 (fun _ => 0) fun k => if k < 99 then 97 else 0).isSome = false := by
  rcases longNames_reached with ⟨own, hreached⟩
  refine ⟨⟨own, hreached⟩, ?_, ?_, ?_⟩
  . have hstart : result (namei.start "/l/".toList none) longNames = some 0 := by decide +kernel
    have hlookup : result
        (lookup { vdir := 0, vn := none, name := "l/".toList, len := 0, issymlink := false })
        (after (namei.start "/l/".toList none) longNames) =
          some (none, { vdir := 0, vn := some 2, name := "l/".toList, len := 1, issymlink := true }) := by
      decide +kernel
    have hread : result (ramfs_readlink 2)
        (after (lookup { vdir := 0, vn := none, name := "l/".toList, len := 0, issymlink := false })
          (after (namei.start "/l/".toList none) longNames)) = some (List.replicate 512 'a') := by
      decide +kernel
    have hjoins := namei.Copies.here 0 "/l/".toList none
      { vdir := 0, vn := none, name := "/l/".toList, len := 0, issymlink := false } _ 2 _ longNames _
      ⟨0, _, _, ok_of_result hstart, ok_of_result hlookup, rfl, rfl, ok_of_result hread⟩
    refine ⟨_, _, hjoins, ?_⟩
    decide +kernel
  . have hlistable : Listable longNames 0 := by
      apply hreached.numbered.listable
      . decide +kernel
      . decide +kernel
    have hentry : { name := List.replicate 256 'a', node := 1, seq := 3 } ∈
        (longNames.nodes (longNames.vnodes 0).data).dentry := by
      decide +kernel
    refine ⟨0, 3, List.replicate 256 'a', ramfs_readdir.copies_entry hlistable hentry 0, ?_⟩
    decide +kernel
  . decide +kernel

end Fs
end Franklin
