import Franklin.Switch.Machine
import Franklin.Switch.Lemmas.Frames

/-!
This module contains that a thread resumes with the registers that it was interrupted with.
-/

namespace Franklin
namespace Switch

open Words (Lie)

theorem Layout.cell_ne {T : Type} {X : Layout T} {t q : T} (hne : q ≠ t) {a : Nat} (hq : X.Cell q a)
    : ¬ X.Cell t a := by
  rintro (⟨hlo, hhi⟩ | ht)
  . rcases hq with ⟨hlo', hhi'⟩ | hq
    . rcases X.disjoint q t hne with h | h
      . omega
      . omega
    . rcases X.slot_out q t with h | h
      . omega
      . omega
  . rcases hq with ⟨hlo', hhi'⟩ | hq
    . rcases X.slot_out t q with h | h
      . omega
      . omega
    . apply X.slot_ne q t hne
      omega

theorem sub_callee (sp : Word) : sp - 8 - 8 - 8 - 8 - 8 - 8 = sp - 48 := by
  bv_omega

theorem add_callee (sp : Word) : sp - 48 + 8 + 8 + 8 + 8 + 8 + 8 + 8 = sp + 8 := by
  bv_omega

theorem toNat_add_callee {sp : Word} (h : sp.toNat + 48 < 2 ^ 64)
    : (sp + 8 + 8 + 8 + 8 + 8 + 8).toNat = sp.toNat + 48 := by
  bv_omega

theorem toNat_sub_callee {sp : Word} (h : 48 ≤ sp.toNat) : (sp - 48).toNat = sp.toNat - 48 :=
  BitVec.toNat_sub_of_le h

namespace State

section

variable {Cpu T : Type} {alu : Word → Word → Word} {L : Labels} {X : Layout T} {s s' : State Cpu T}
  {c c' : Cpu} {t q : T}

structure Waiting (L : Labels) (X : Layout T) (s : State Cpu T) (t : T) : Prop where
  frame : TrapFrame L (X.lo t) (X.hi t) s.mem (s.entry t) (s.interrupted t)
  lo : X.lo t + 48 ≤ (s.call t).regs.rsp.toNat
  rsp : (s.call t).regs.rsp.toNat + 8 ≤ (s.entry t).rsp.toNat
  slot : s.mem (X.slot t).toNat = (s.call t).regs.rsp - 48
  callee : Lie 8 s.mem ((s.call t).regs.rsp - 48) (calleeFrame (s.call t).regs L.switched)
  rest : ∀ a, (s.call t).regs.rsp.toNat + 8 ≤ a → a < X.hi t → s.mem a = (s.call t).mem a

def Local (L : Labels) (X : Layout T) (s : State Cpu T) (c : Cpu) : Prop :=
  let t := s.current c
  match s.mode c with
  | .thread | .ret => True
  | .trap =>
    s.entry t = s.regs c ∧ TrapFrame L (X.lo t) (X.hi t) s.mem (s.entry t) (s.interrupted t)
  | .switched =>
    X.lo t ≤ (s.call t).regs.rsp.toNat ∧ Resumed (s.call t) (s.entry t) (s.regs c) s.mem ∧
      TrapFrame L (X.lo t) (X.hi t) s.mem (s.entry t) (s.interrupted t)
  | .trapped =>
    (s.entry t).SameCallee (s.regs c) ∧
      TrapFrame L (X.lo t) (X.hi t) s.mem (s.entry t) (s.interrupted t)
  | .lost => False

structure Good (L : Labels) (X : Layout T) (s : State Cpu T) : Prop where
  unique : ∀ c c', s.current c = s.current c' → c = c'
  here : ∀ c, s.Local L X c
  fresh : ∀ t, s.fresh t → (∀ c, s.current c ≠ t) ∧ Prepared L X t s.mem
  waiting : ∀ t, ¬ s.fresh t → (∀ c, s.current c ≠ t) → s.Waiting L X t

structure Frame (X : Layout T) (s s' : State Cpu T) (c : Cpu) (t : T) : Prop where
  keeps : X.Keeps t s.mem s'.mem
  regs : ∀ c', c' ≠ c → s'.regs c' = s.regs c'
  mode : ∀ c', c' ≠ c → s'.mode c' = s.mode c'
  current : ∀ c', c' ≠ c → s'.current c' = s.current c'
  interrupted : ∀ q, q ≠ t → s'.interrupted q = s.interrupted q
  entry : ∀ q, q ≠ t → s'.entry q = s.entry q
  call : ∀ q, q ≠ t → s'.call q = s.call q

theorem Frame.trapFrame (h : Frame X s s' c t) (hq : q ≠ t) {g r : Regs}
    (hframe : TrapFrame L (X.lo q) (X.hi q) s.mem g r) : TrapFrame L (X.lo q) (X.hi q) s'.mem g r := by
  apply hframe.congr (X.hi_lt q)
  intro a ha ha'
  apply h.keeps q hq
  have := hframe.lo
  exact Or.inl ⟨by omega, ha'⟩

theorem Frame.waiting (h : Frame X s s' c t) (hq : q ≠ t) (hw : s.Waiting L X q) : s'.Waiting L X q := by
  have hlo := hw.lo
  have hrsp := hw.rsp
  have hframe := hw.frame.rsp
  have hframe' := hw.frame.hi
  have hhi := X.hi_lt q
  have hsub : ((s.call q).regs.rsp - 48).toNat = (s.call q).regs.rsp.toNat - 48 := by
    apply toNat_sub_callee
    omega
  constructor
  case frame =>
    rw [h.entry q hq, h.interrupted q hq]
    exact h.trapFrame hq hw.frame
  case lo =>
    rw [h.call q hq]
    exact hlo
  case rsp =>
    rw [h.call q hq, h.entry q hq]
    exact hrsp
  case slot =>
    rw [h.call q hq, h.keeps q hq _ (Or.inr rfl)]
    exact hw.slot
  case callee =>
    rw [h.call q hq]
    apply hw.callee.congr
    . rw [hsub]
      show _ + 8 * 7 < _
      omega
    . decide
    . intro a ha ha'
      rw [hsub] at ha ha'
      have ha'' : a < (s.call q).regs.rsp.toNat - 48 + 8 * 7 := ha'
      apply h.keeps q hq
      exact Or.inl ⟨by omega, by omega⟩
  case rest =>
    intro a ha ha'
    rw [h.call q hq] at ha ⊢
    rw [h.keeps q hq a (Or.inl ⟨by omega, ha'⟩)]
    exact hw.rest a ha ha'

theorem Frame.prepared (h : Frame X s s' c t) (hq : q ≠ t) (hp : Prepared L X q s.mem)
    : Prepared L X q s'.mem := by
  have hlo := hp.lo
  have hhi := hp.hi
  have hslot : s'.mem (X.slot q).toNat = s.mem (X.slot q).toNat := h.keeps q hq _ (Or.inr rfl)
  refine ⟨?_, ?_, ?_⟩
  . rw [hslot]
    exact hlo
  . rw [hslot]
    exact hhi
  . rw [hslot, h.keeps q hq]
    . exact hp.rip
    . exact Or.inl ⟨by omega, by omega⟩

theorem Frame.local (h : Frame X s s' c t) (hc : c' ≠ c) (ht : s.current c' ≠ t) (hl : s.Local L X c')
    : s'.Local L X c' := by
  unfold Local at hl ⊢
  rw [h.mode c' hc, h.current c' hc]
  cases hmode : s.mode c' with
  | thread | ret => trivial
  | trap =>
    rw [hmode] at hl
    dsimp only at hl ⊢
    rw [h.entry _ ht, h.regs c' hc, h.interrupted _ ht]
    exact ⟨hl.1, h.trapFrame ht hl.2⟩
  | switched =>
    rw [hmode] at hl
    dsimp only at hl ⊢
    rw [h.entry _ ht, h.regs c' hc, h.interrupted _ ht, h.call _ ht]
    rcases hl with ⟨hlo, hresumed, hframe⟩
    refine ⟨hlo, ⟨hresumed.callee, hresumed.rsp, ?_⟩, h.trapFrame ht hframe⟩
    intro a ha ha'
    have h1 := hframe.rsp
    have h2 := hframe.hi
    rw [h.keeps _ ht a (Or.inl ⟨by omega, by omega⟩)]
    exact hresumed.frame a ha ha'
  | trapped =>
    rw [hmode] at hl
    dsimp only at hl ⊢
    rw [h.entry _ ht, h.regs c' hc, h.interrupted _ ht]
    exact ⟨hl.1, h.trapFrame ht hl.2⟩
  | lost =>
    rw [hmode] at hl
    exact hl

theorem Good.of_frame (h : Good L X s) (hframe : Frame X s s' c (s.current c))
    (hcurrent : s'.current c = s.current c) (hfresh : s'.fresh = s.fresh) (hl : s'.Local L X c)
    : Good L X s' := by
  have hsame : s'.current = s.current := by
    funext c'
    by_cases hc : c' = c
    . rw [hc]
      exact hcurrent
    . exact hframe.current c' hc
  constructor
  case unique =>
    rw [hsame]
    exact h.unique
  case here =>
    intro c'
    by_cases hc : c' = c
    . rw [hc]
      exact hl
    . apply hframe.local hc _ (h.here c')
      intro heq
      exact hc (h.unique c' c heq)
  case fresh =>
    intro t ht
    rw [hfresh] at ht
    rw [hsame]
    rcases h.fresh t ht with ⟨hnot, hp⟩
    exact ⟨hnot, hframe.prepared (hnot c).symm hp⟩
  case waiting =>
    intro t ht hnot
    rw [hfresh] at ht
    rw [hsame] at hnot
    exact hframe.waiting (hnot c).symm (h.waiting t ht hnot)

end

structure Switched (L : Labels) (X : Layout T) (t : T) (g : Regs) (m : Mem) (e : Regs × Mem) : Prop where
  regs : e.1 = loads g e.2
  keeps : X.Keeps t m e.2
  above : ∀ a, g.rsp.toNat + 8 ≤ a → a < X.hi t → e.2 a = m a
  slot : e.2 (X.slot t).toNat = g.rsp - 48
  callee : Lie 8 e.2 (g.rsp - 48) (calleeFrame g L.switched)

theorem switched {T : Type} {alu : Word → Word → Word} {L : Labels} {X : Layout T} {t q : T}
    {entry g : Regs} {m : Mem} (hcalls : Calls L X t q entry g m) (hhi : entry.rsp.toNat ≤ X.hi t)
    : Switched L X t g m (Instr.run alu switc (g, m)) := by
  have hlo := hcalls.lo
  have hrsp := hcalls.rsp
  have hlt := X.hi_lt t
  have hroom : 48 ≤ g.rsp.toNat := by omega
  have hfit : g.rsp.toNat + 8 < 2 ^ 64 := by omega
  have hbase : (g.rsp + 8).toNat = g.rsp.toNat + 8 := by
    apply Words.toNat_add_of_le
    exact hfit
  have hsub := toNat_sub_callee hroom
  have hslot := X.slot_out t t
  rcases run_switc alu hroom hfit hcalls.back with ⟨m', hgrown, heq⟩
  rw [heq]
  rw [sub_callee] at hgrown ⊢
  rw [hcalls.rdi]
  have hgrown' := hgrown.frame
  rw [hsub, hbase] at hgrown'
  constructor
  case regs => dsimp only
  case keeps =>
    intro p hp a ha
    have hnot := Layout.cell_ne hp ha
    unfold Layout.Cell at hnot
    dsimp only
    rw [Function.update_of_ne]
    . apply hgrown'
      omega
    . omega
  case above =>
    intro a ha ha'
    dsimp only
    rw [Function.update_of_ne]
    . apply hgrown'
      omega
    . omega
  case slot =>
    dsimp only
    rw [Function.update_self]
  case callee =>
    apply hgrown.lie.congr
    . rw [hsub]
      show _ + 8 * 7 < _
      omega
    . decide
    . intro a ha ha'
      have ha'' : a < (g.rsp - 48).toNat + 8 * 7 := ha'
      rw [hsub] at ha ha''
      dsimp only
      rw [Function.update_of_ne]
      omega

section

variable {Cpu T : Type} [DecidableEq Cpu] [DecidableEq T] {alu : Word → Word → Word} {L : Labels}
  {X : Layout T} {s s' : State Cpu T} {c : Cpu} {g : Regs} {m : Mem} {mode : Mode}

variable (g mode) in
omit [DecidableEq T] in
theorem goto_frame (hkeeps : X.Keeps (s.current c) s.mem m)
    : Frame X s (s.goto c g m mode) c (s.current c) := by
  refine ⟨hkeeps, ?_, ?_, fun _ _ => rfl, fun _ _ => rfl, fun _ _ => rfl, fun _ _ => rfl⟩
  . intro c' hc
    exact Function.update_of_ne hc _ _
  . intro c' hc
    exact Function.update_of_ne hc _ _

namespace Good

omit [DecidableEq T] in
theorem run (h : Good L X s) (hkeeps : X.Keeps (s.current c) s.mem m) : Good L X (s.goto c g m .thread) := by
  apply h.of_frame (goto_frame _ _ hkeeps)
  . rfl
  . rfl
  . simp [Local, goto]

omit [DecidableEq T] in
theorem goto_thread (h : Good L X s) : Good L X (s.goto c g s.mem .thread) := by
  apply h.run
  intro q _ a _
  rfl

theorem interrupt (h : Good L X s) {vector : Word} (hfits : Fits X (s.current c) (s.regs c))
    : Good L X
        { s.goto c (enter alu L vector (s.regs c, s.mem)).1 (enter alu L vector (s.regs c, s.mem)).2
            .trap with
          interrupted := Function.update s.interrupted (s.current c) (s.regs c)
          entry := Function.update s.entry (s.current c) (enter alu L vector (s.regs c, s.mem)).1 } := by
  rcases enter_frame alu L s.mem vector hfits.1 hfits.2 with
    ⟨hframe, hmem⟩
  generalize enter alu L vector (s.regs c, s.mem) = e at *
  have hkeeps : X.Keeps (s.current c) s.mem e.2 := by
    intro q hq a ha
    apply hmem
    by_contra hout
    rw [not_or] at hout
    apply Layout.cell_ne hq ha
    have := hframe.lo
    have := hfits.2
    exact Or.inl ⟨by omega, by omega⟩
  apply h.of_frame
  . have hframe' := goto_frame e.1 .trap hkeeps
    refine ⟨hkeeps, hframe'.regs, hframe'.mode, fun _ _ => rfl, ?_, ?_, fun _ _ => rfl⟩
    . intro q hq
      exact Function.update_of_ne hq _ _
    . intro q hq
      exact Function.update_of_ne hq _ _
  . rfl
  . rfl
  . simp only [Local, goto, Function.update_self]
    exact ⟨trivial, hframe⟩

omit [DecidableEq T] in
theorem trapped_of_returns (h : Good L X s) {entry : Regs}
    (hentry : s.entry (s.current c) = entry)
    (hframe : TrapFrame L (X.lo (s.current c)) (X.hi (s.current c)) s.mem entry
      (s.interrupted (s.current c)))
    (hbelow : X.Below (s.current c) entry.rsp s.mem m) (hreturns : Returns entry s.mem g)
    : Good L X (s.goto c g m (if g.rip = L.trapped then .trapped else .lost)) := by
  have hrip : g.rip = L.trapped := by
    rw [hreturns.rip]
    exact hframe.back
  rw [if_pos hrip]
  apply h.of_frame (goto_frame _ _ hbelow.keeps)
  . rfl
  . rfl
  . simp only [Local, goto, Function.update_self]
    rw [hentry]
    refine ⟨hreturns.callee, ?_⟩
    exact hframe.congr (X.hi_lt _) hbelow.above

omit [DecidableEq T] in
theorem returns (h : Good L X s) (hmode : s.mode c = .trap)
    (hbelow : X.Below (s.current c) (s.regs c).rsp s.mem m) (hreturns : Returns (s.regs c) s.mem g)
    : Good L X (s.goto c g m (if g.rip = L.trapped then .trapped else .lost)) := by
  have hl := h.here c
  unfold Local at hl
  rw [hmode] at hl
  rcases hl with ⟨hentry, hframe⟩
  rw [hentry] at hframe
  exact h.trapped_of_returns hentry hframe hbelow hreturns

omit [DecidableEq T] in
theorem leaves (h : Good L X s) (hmode : s.mode c = .switched)
    (hbelow : X.Below (s.current c) (s.entry (s.current c)).rsp s.mem m)
    (hreturns : Resumed (s.call (s.current c)) (s.entry (s.current c)) (s.regs c) s.mem →
      Returns (s.entry (s.current c)) s.mem g)
    : Good L X (s.goto c g m (if g.rip = L.trapped then .trapped else .lost)) := by
  have hl := h.here c
  unfold Local at hl
  rw [hmode] at hl
  rcases hl with ⟨_, hresumed, hframe⟩
  exact h.trapped_of_returns rfl hframe hbelow (hreturns hresumed)

omit [DecidableEq Cpu] [DecidableEq T] in
theorem local_switches (h : Good L X s) {q : T} {e : Regs × Mem} (hq : ∀ c', s.current c' ≠ q)
    (hcalls : Calls L X (s.current c) q (s.entry (s.current c)) g m)
    (hkeeps : X.Keeps (s.current c) s.mem m) (hsw : Switched L X (s.current c) g m e)
    (hframe : Frame X s s' c (s.current c)) (hcurrent : s'.current c = q) (hregs : s'.regs c = e.1)
    (hmem : s'.mem = e.2)
    (hmode : s'.mode c = if e.1.rip = L.switched then .switched else if e.1.rip = L.ret then .ret else .lost)
    : s'.Local L X c := by
  have hne := (hq c).symm
  have hrsi : g.rsi = s.mem (X.slot q).toNat := by
    rw [hcalls.rsi]
    exact hkeeps q hne _ (Or.inr rfl)
  by_cases hfresh : s.fresh q
  . -- a new thread goes on at the label `ret`
    have hp := hframe.prepared hne (h.fresh q hfresh).2
    have hslot : s'.mem (X.slot q).toNat = g.rsi := by
      rw [hrsi]
      exact hframe.keeps q hne _ (Or.inr rfl)
    have hlo := hp.lo
    have hhi := hp.hi
    have hrip := hp.rip
    have hlt := X.hi_lt q
    rw [hslot] at hlo hhi hrip
    have hret : e.1.rip = L.ret := by
      rw [hsw.regs, ← hrip, hmem]
      show e.2 (g.rsi + 8 + 8 + 8 + 8 + 8 + 8).toNat = _
      rw [toNat_add_callee (by omega)]
    rw [hret, if_neg L.switched_ne_ret.symm, if_pos rfl] at hmode
    unfold Local
    rw [hmode]
    trivial
  . have hw := hframe.waiting hne (h.waiting q hfresh hq)
    have hw' := h.waiting q hfresh hq
    have hcallee := hw.callee
    rw [hframe.call q hne, hmem, ← hw'.slot, ← hrsi] at hcallee
    rcases loads_callee hcallee with ⟨hsame, hrip⟩
    rw [← hsw.regs] at hsame hrip
    rw [if_pos hrip] at hmode
    unfold Local
    rw [hmode]
    dsimp only
    rw [hcurrent]
    have h1 := hw.lo
    have h2 := hw.frame.rsp
    have h3 := hw.frame.hi
    refine ⟨by omega, ⟨?_, ?_, ?_⟩, hw.frame⟩
    . rw [hregs, hframe.call q hne]
      exact hsame
    . rw [hregs, hframe.call q hne, hsw.regs]
      show g.rsi + 8 + 8 + 8 + 8 + 8 + 8 + 8 = _
      rw [hrsi, hw'.slot, add_callee]
    . intro a ha ha'
      apply hw.rest a ha
      omega

theorem switches (h : Good L X s) {q : T} (hmode : s.mode c = .trap) (hq : ∀ c', s.current c' ≠ q)
    (hbelow : X.Below (s.current c) (s.regs c).rsp s.mem m)
    (hcalls : Calls L X (s.current c) q (s.regs c) g m)
    : Good L X
        { s.goto c (Instr.run alu switc (g, m)).1 (Instr.run alu switc (g, m)).2
            (if (Instr.run alu switc (g, m)).1.rip = L.switched then .switched
            else if (Instr.run alu switc (g, m)).1.rip = L.ret then .ret
            else .lost) with
          current := Function.update s.current c q
          fresh := fun t => s.fresh t ∧ t ≠ q
          call := Function.update s.call (s.current c) ⟨g, m⟩ } := by
  have hl := h.here c
  unfold Local at hl
  rw [hmode] at hl
  rcases hl with ⟨hentry, htrap⟩
  rw [← hentry] at hbelow hcalls
  have htrap1 := htrap.rsp
  have htrap2 := htrap.hi
  have hsw : Switched L X (s.current c) g m (Instr.run alu switc (g, m)) := by
    apply switched hcalls
    omega
  generalize Instr.run alu switc (g, m) = e at *
  generalize hs' : ({ s.goto c e.1 e.2 (if e.1.rip = L.switched then Mode.switched
      else if e.1.rip = L.ret then .ret else .lost) with
      current := Function.update s.current c q
      fresh := fun t => s.fresh t ∧ t ≠ q
      call := Function.update s.call (s.current c) ⟨g, m⟩ } : State Cpu T) = s'
  have hcurrent : s'.current c = q := by
    rw [← hs']
    exact Function.update_self _ _ _
  have hkeeps : X.Keeps (s.current c) s.mem e.2 := by
    intro p hp a ha
    rw [hsw.keeps p hp a ha]
    exact hbelow.keeps p hp a ha
  have hframe : Frame X s s' c (s.current c) := by
    rw [← hs']
    refine ⟨hkeeps, ?_, ?_, ?_, fun _ _ => rfl, fun _ _ => rfl, ?_⟩
    . intro c' hc
      exact Function.update_of_ne hc _ _
    . intro c' hc
      exact Function.update_of_ne hc _ _
    . intro c' hc
      exact Function.update_of_ne hc _ _
    . intro p hp
      exact Function.update_of_ne hp _ _
  have hmem : s'.mem = e.2 := by
    rw [← hs']
    rfl
  have hcall : s'.call (s.current c) = ⟨g, m⟩ := by
    rw [← hs']
    exact Function.update_self _ _ _
  have hentry' : s'.entry = s.entry := by
    rw [← hs']
    rfl
  have hinterrupted' : s'.interrupted = s.interrupted := by
    rw [← hs']
    rfl
  have hfresh' : ∀ t, s'.fresh t ↔ s.fresh t ∧ t ≠ q := by
    intro t
    rw [← hs']
  constructor
  case unique =>
    intro c1 c2 heq
    by_cases h1 : c1 = c
    . by_cases h2 : c2 = c
      . rw [h1, h2]
      . rw [h1, hcurrent, hframe.current c2 h2] at heq
        exact absurd heq.symm (hq c2)
    . by_cases h2 : c2 = c
      . rw [h2, hcurrent, hframe.current c1 h1] at heq
        exact absurd heq (hq c1)
      . rw [hframe.current c1 h1, hframe.current c2 h2] at heq
        exact h.unique c1 c2 heq
  case here =>
    intro c'
    by_cases hc : c' = c
    . rw [hc]
      apply h.local_switches hq hcalls hbelow.keeps hsw hframe hcurrent _ hmem
      . rw [← hs']
        exact Function.update_self _ _ _
      . rw [← hs']
        exact Function.update_self _ _ _
    . apply hframe.local hc _ (h.here c')
      intro heq
      exact hc (h.unique c' c heq)
  case fresh =>
    intro t ht
    rw [hfresh'] at ht
    rcases h.fresh t ht.1 with ⟨hnot, hp⟩
    refine ⟨?_, hframe.prepared (hnot c).symm hp⟩
    intro c'
    by_cases hc : c' = c
    . rw [hc, hcurrent]
      exact ht.2.symm
    . rw [hframe.current c' hc]
      exact hnot c'
  case waiting =>
    intro t ht hnot
    have htq : t ≠ q := by
      intro heq
      exact hnot c (hcurrent.trans heq.symm)
    rw [hfresh'] at ht
    have hfresh : ¬ s.fresh t := fun hf => ht ⟨hf, htq⟩
    by_cases htc : t = s.current c
    . -- the thread that was switched from
      rw [htc]
      constructor
      case frame =>
        rw [hentry', hinterrupted', hmem]
        apply htrap.congr (X.hi_lt _)
        intro a ha ha'
        have := hcalls.rsp
        rw [hsw.above a (by omega) ha']
        exact hbelow.above a ha ha'
      case lo =>
        rw [hcall]
        exact hcalls.lo
      case rsp =>
        rw [hcall, hentry']
        exact hcalls.rsp
      case slot =>
        rw [hcall, hmem]
        exact hsw.slot
      case callee =>
        rw [hcall, hmem]
        exact hsw.callee
      case rest =>
        rw [hcall, hmem]
        exact hsw.above
    . apply hframe.waiting htc
      apply h.waiting t hfresh
      intro c' heq
      by_cases hc : c' = c
      . rw [hc] at heq
        exact htc heq.symm
      . apply hnot c'
        rw [hframe.current c' hc]
        exact heq

theorem step (h : Good L X s) (hstep : Step alu L X s s') : Good L X s' := by
  cases hstep with
  | run c g m hmode hkeeps => exact h.run hkeeps
  | interrupt c vector hmode hfits => exact h.interrupt hfits
  | returns c g m hmode hbelow hreturns => exact h.returns hmode hbelow hreturns
  | switches c q g m hmode hq hbelow hcalls => exact h.switches hmode hq hbelow hcalls
  | leaves c g m hmode hbelow hreturns => exact h.leaves hmode hbelow hreturns
  | trapped c hmode => exact h.goto_thread
  | ret c hmode => exact h.goto_thread

end Good

omit [DecidableEq Cpu] [DecidableEq T] in
theorem Start.good (h : Start L X s) : Good L X s := by
  constructor
  case unique => exact h.unique
  case here =>
    intro c
    unfold Local
    rw [h.mode c]
    trivial
  case fresh =>
    intro t ht
    exact ⟨(h.fresh t).mp ht, h.prepared t ht⟩
  case waiting =>
    intro t ht hnot
    exact absurd ((h.fresh t).mpr hnot) ht

/--
However the threads are interrupted and switched, `trap` returns to `alltraps`, and the thread goes on with
the registers, the flags, `rip` and `rsp` that it was interrupted with.
-/
theorem resumes_as_interrupted (hs : Start L X s) (h : Reached alu L X s s')
    : ∀ c, s'.mode c ≠ .lost ∧
        (s'.mode c = .trapped →
          (Instr.run alu trapped (s'.regs c, s'.mem)).1 = s'.interrupted (s'.current c)) := by
  have hgood : Good L X s' := by
    induction h with
    | refl => exact hs.good
    | step _ hstep ih => exact ih.step hstep
  intro c
  have hl := hgood.here c
  unfold Local at hl
  refine ⟨?_, ?_⟩
  . intro hmode
    rw [hmode] at hl
    exact hl
  . intro hmode
    rw [hmode] at hl
    rcases hl with ⟨hcallee, hframe⟩
    rcases hframe.frame with ⟨vector, hlie⟩
    rw [← hcallee.rbp] at hlie
    apply run_trapped hlie
    . rw [hcallee.rbx]
      exact hframe.rbx
    . rw [hcallee.r12]
      exact hframe.r12
    . rw [hcallee.r13]
      exact hframe.r13
    . rw [hcallee.r14]
      exact hframe.r14
    . rw [hcallee.r15]
      exact hframe.r15

end

end State

def labels : Labels where
  isr_apic_timer := 0x1000
  alltraps := 0x1100
  trap := 0x2000
  trapped := 0x1130
  ret := 0x1133
  switched := 0x3000
  switched_ne_ret := by decide

def layout : Layout Bool where
  lo t := if t then 0x20000 else 0x10000
  hi t := if t then 0x21000 else 0x11000
  slot t := if t then 0x108 else 0x100
  hi_lt := by decide
  disjoint := by decide
  slot_ne := by decide
  slot_out := by decide

def regs (rsp : Word) : Regs :=
  ⟨1, 2, 3, 4, 5, 6, 7, rsp, 9, 10, 11, 12, 13, 14, 15, 16, 0x5000, 0x202, 0x28, 0⟩

def twoThreads : State Unit Bool where
  regs _ := regs 0x20f08
  mem a := if a = 0x100 then 0x10f00 else if a = 0x10f30 then 0x1133 else 0
  current _ := true
  mode _ := .thread
  fresh t := t = false
  interrupted _ := regs 0
  entry _ := regs 0
  call _ := ⟨regs 0, fun _ => 0⟩

theorem twoThreads_start : twoThreads.Start labels layout := by
  constructor
  case mode => exact fun _ => rfl
  case unique => exact fun _ _ _ => rfl
  case fresh => simp [twoThreads]
  case prepared =>
    intro t ht
    have htf : t = false := ht
    subst htf
    exact ⟨by decide, by decide, by decide⟩

theorem below_update {t : Bool} {sp : Word} {m : Mem} {a : Nat} {v : Word}
    (ha : layout.lo t ≤ a ∧ a < layout.hi t) (hsp : a < sp.toNat)
    : layout.Below t sp m (Function.update m a v) := by
  constructor
  case keeps =>
    intro q hq b hb
    apply Function.update_of_ne
    intro heq
    rw [heq] at hb
    exact Layout.cell_ne hq hb (Or.inl ha)
  case above =>
    intro b hb _
    apply Function.update_of_ne
    omega

theorem resumes_twoThreads
    : ∃ s, State.Reached (fun flags _ => flags) labels layout twoThreads s ∧ s.mode () = .trapped ∧
        (Instr.run (fun flags _ => flags) trapped (s.regs (), s.mem)).1 = regs 0x20f08 := by
  have h1 : State.Reached (fun flags _ => flags) labels layout twoThreads _ :=
    .step .refl (.interrupt () 34 rfl ⟨by decide, by decide⟩)
  have h2 := h1.step (.switches () false { regs 0x20e38 with rdi := 0x108, rsi := 0x10f00 } _ rfl
    (fun () => by decide)
    (below_update (a := 0x20e38) (v := 0x3000) ⟨by decide, by decide⟩ (by decide +kernel))
    ⟨by decide, by decide +kernel, by decide +kernel, by decide, by decide +kernel⟩)
  have h3 := h2.step (.ret () (by decide +kernel))
  have h4 := h3.step (.run () (regs 0x10e08) _ (by decide +kernel) (fun _ _ _ _ => rfl))
  have h5 := h4.step (.interrupt () 34 (by decide +kernel) ⟨by decide +kernel, by decide +kernel⟩)
  have h6 := h5.step (.switches () true { regs 0x10d38 with rdi := 0x100, rsi := 0x20e08 } _
    (by decide +kernel) (fun () => by decide)
    (below_update (a := 0x10d38) (v := 0x3000) ⟨by decide +kernel, by decide +kernel⟩ (by decide +kernel))
    ⟨by decide +kernel, by decide +kernel, by decide +kernel, by decide +kernel, by decide +kernel⟩)
  have h7 := h6.step (.leaves () { regs 0x20e80 with rbp := 0x20e80, rip := 0x1130 } _ (by decide +kernel)
    ⟨fun _ _ _ _ => rfl, fun _ _ _ => rfl⟩ (fun _ => ⟨⟨by decide +kernel, by decide +kernel,
    by decide +kernel, by decide +kernel, by decide +kernel, by decide +kernel⟩, by decide +kernel, by decide +kernel⟩))
  refine ⟨_, h7, by decide +kernel, ?_⟩
  exact (State.resumes_as_interrupted twoThreads_start h7 ()).2 (by decide +kernel)

end Switch
end Franklin
