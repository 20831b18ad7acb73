import Franklin.Sched.Lemmas.Machine

/-!
This module contains when the scheduler selects the process that the timer has just interrupted although there is
another one.
-/

namespace Franklin
namespace Sched

def Ahead (i q p : Nat) : Prop :=
  (i ≤ q ∧ (q < p ∨ p < i)) ∨ (q < p ∧ p < i)

def Pc.selects : Pc → Bool
  | acq | mark | scan | found _ => true
  | _ => false

namespace Machine

section

variable {Cpu : Type}

structure Other (m : Machine Cpu) (c : Cpu) (q : Nat) : Prop where
  slot : q < NPROC
  ne : q ≠ m.current c
  runnable : (m.proc q).state = .RUNNABLE

def Passes (m : Machine Cpu) (c : Cpu) : Prop :=
  ∀ q, m.Other c q → ∃ q', m.Other c q' ∧ Ahead m.index q' (m.current c)

/--
`getproc` has returned the process that was interrupted while another one is `RUNNABLE`.
-/
def Reselects (m : Machine Cpu) (c : Cpu) : Prop :=
  m.pc c = .found (m.current c) ∧ ∃ q, m.Other c q

/--
The interrupt is taken only when `scheduler` passes over the process of the CPU. An interrupt while the lock is held
does not come to `scheduler`.
-/
def PassesOver (_ : List Given) (m : Machine Cpu) (e : Event Cpu) : Prop :=
  ∀ c, e = .tick c → m.lock = none → (∃ place p, m.pc c = Place.pc p place) → m.Passes c

def Yields (m : Machine Cpu) (c : Cpu) : Prop :=
  match m.pc c with
  | .acq => m.lock ≠ none ∨ m.Passes c
  | .mark | .scan => m.Passes c
  | .found p => p = m.current c → ∀ q, ¬ m.Other c q
  | _ => True

theorem passes_iff_of_index {m : Machine Cpu} {c : Cpu} (hindex : m.index = m.current c)
    : m.Passes c ↔ ∀ q, ¬ m.Other c q := by
  constructor
  . intro h q hq
    rcases h q hq with ⟨q', hq', hahead⟩
    have hne := hq'.ne
    unfold Ahead at hahead
    omega
  . intro h q hq
    exact absurd hq (h q)

theorem Other.congr {m m' : Machine Cpu} {c : Cpu} {q : Nat} (h : m.Other c q) (hcurrent : m'.current c = m.current c)
    (hstate : ∀ q, q ≠ m.current c → (m'.proc q).state = (m.proc q).state) : m'.Other c q where
  slot := h.slot
  ne := by
    rw [hcurrent]
    exact h.ne
  runnable := by
    rw [hstate q h.ne]
    exact h.runnable

theorem Passes.congr {m m' : Machine Cpu} {c : Cpu} (h : m.Passes c) (hindex : m'.index = m.index)
    (hcurrent : m'.current c = m.current c)
    (hstate : ∀ q, q ≠ m.current c → (m'.proc q).state = (m.proc q).state) : m'.Passes c := by
  intro q hq
  have hback : ∀ q, q ≠ m'.current c → (m.proc q).state = (m'.proc q).state := by
    intro q hne
    rw [hcurrent] at hne
    exact (hstate q hne).symm
  rcases h q (hq.congr hcurrent.symm hback) with ⟨q', hq', hahead⟩
  refine ⟨q', hq'.congr hcurrent hstate, ?_⟩
  rw [hindex, hcurrent]
  exact hahead

theorem Passes.setProc {m : Machine Cpu} {c : Cpu} (h : m.Passes c) (f : Proc → Proc)
    : (m.setProc (m.current c) f).Passes c := by
  apply h.congr
  . rfl
  . rfl
  . intro q hq
    rw [setProc_proc_of_ne hq]

theorem Passes.scan {m : Machine Cpu} {c : Cpu} (h : m.Passes c) (hstate : (m.proc m.index).state ≠ .RUNNABLE)
    : Passes { m with index := m.index + 1 } c := by
  intro q hq
  rcases h q ⟨hq.slot, hq.ne, hq.runnable⟩ with ⟨q', hq', hahead⟩
  refine ⟨q', ⟨hq'.slot, hq'.ne, hq'.runnable⟩, ?_⟩
  have hne : q' ≠ m.index := by
    intro heq
    rw [← heq] at hstate
    exact hstate hq'.runnable
  have hqne := hq'.ne
  unfold Ahead at *
  dsimp only
  omega

theorem Passes.wrap {m : Machine Cpu} {c : Cpu} (h : m.Passes c) (hindex : ¬ m.index < NPROC)
    : Passes { m with index := 0 } c := by
  intro q hq
  rcases h q ⟨hq.slot, hq.ne, hq.runnable⟩ with ⟨q', hq', hahead⟩
  refine ⟨q', ⟨hq'.slot, hq'.ne, hq'.runnable⟩, ?_⟩
  have hslot := hq'.slot
  unfold Ahead at *
  dsimp only
  omega

end

section Step

variable {Cpu : Type} [DecidableEq Cpu] {m : Machine Cpu} {c : Cpu} {rsp : Vmm.Addr} {p : Nat}

omit [DecidableEq Cpu] in
theorem Yields.of_selects (hpc : (m.pc c).selects = false) : m.Yields c := by
  unfold Yields
  cases heq : m.pc c with
  | acq | mark | scan | found =>
    rw [heq] at hpc
    cases hpc
  | boot | thread | run | save | load | r | startAcq | startRun | startLoad => trivial

omit [DecidableEq Cpu] in
theorem Yields.congr {m' : Machine Cpu} (h : m.Yields c) (hpc : m'.pc c = m.pc c) (hindex : m'.index = m.index)
    (hlock : m'.lock = m.lock) (hcurrent : m'.current c = m.current c)
    (hstate : ∀ q, (m'.proc q).state = (m.proc q).state) : m'.Yields c := by
  have hpasses : m.Passes c → m'.Passes c := fun hm => hm.congr hindex hcurrent (fun q _ => hstate q)
  unfold Yields at *
  rw [hpc, hlock]
  cases hm : m.pc c with
  | acq =>
    rw [hm] at h
    exact h.imp_right hpasses
  | mark | scan =>
    rw [hm] at h
    exact hpasses h
  | found p =>
    rw [hm] at h
    intro hp q hq
    rw [hcurrent] at hp
    exact h hp q (hq.congr hcurrent.symm (fun q _ => (hstate q).symm))
  | boot | thread | run | save | load | r | startAcq | startRun | startLoad => trivial

theorem setPc_selects {pc : Pc} (hpc : pc.selects = false) : ((m.setPc c pc).pc c).selects = false := by
  rw [setPc_pc_self]
  exact hpc

theorem resume_selects : ((m.resume c p).pc c).selects = false := by
  unfold resume
  split
  . exact setPc_selects rfl
  . exact setPc_selects rfl

theorem startLoad_selects : ((m.startLoad c p).pc c).selects = false :=
  resume_selects

theorem threadStep_selects (hpc : m.pc c = .thread) : ((m.threadStep c p).pc c).selects = false := by
  have hself : (m.pc c).selects = false := by
    rw [hpc]
    rfl
  unfold threadStep
  split
  . exact hself
  . exact hself
  . exact hself
  . exact hself
  . unfold acquire
    split
    . exact hself
    . exact hself
  . exact startLoad_selects

omit [DecidableEq Cpu] in
theorem Yields.passes (h : m.Yields c) (hpc : m.pc c = .acq ∧ m.lock = none ∨ m.pc c = .mark ∨ m.pc c = .scan)
    : m.Passes c := by
  unfold Yields at h
  rcases hpc with ⟨hpc, hlock⟩ | hpc | hpc
  . rw [hpc] at h
    exact h.resolve_left fun hne => hne hlock
  . rw [hpc] at h
    exact h
  . rw [hpc] at h
    exact h

theorem Passes.yields (h : m.Passes c) {pc : Pc} (hpc : pc = .acq ∨ pc = .mark ∨ pc = .scan)
    : (m.setPc c pc).Yields c := by
  have hsame : (m.setPc c pc).Passes c := h.congr rfl rfl (fun _ _ => rfl)
  unfold Yields
  rw [setPc_pc_self]
  rcases hpc with hpc | hpc | hpc
  . rw [hpc] at hsame ⊢
    exact Or.inr hsame
  . rw [hpc] at hsame ⊢
    exact hsame
  . rw [hpc] at hsame ⊢
    exact hsame

theorem Yields.scan (h : m.Yields c) (hpc : m.pc c = .scan) : (m.step c rsp).Yields c := by
  have hpasses := h.passes (Or.inr (Or.inr hpc))
  have hscan : ∀ index, Passes { m with index := index } c → Yields { m with index := index } c := by
    intro index hindex
    unfold Yields
    dsimp only
    rw [hpc]
    exact hindex
  unfold step
  rw [hpc]
  dsimp only
  split
  . split
    . unfold Yields
      rw [setPc_pc_self]
      intro hcurrent q hq
      exact (passes_iff_of_index hcurrent).mp hpasses q ⟨hq.slot, hq.ne, hq.runnable⟩
    . next hstate => exact hscan _ (hpasses.scan hstate)
  . next hindex => exact hscan _ (hpasses.wrap hindex)

theorem Yields.step (h : m.Yields c) : (m.step c rsp).Yields c := by
  cases hpc : m.pc c with
  | boot =>
    unfold Machine.step
    rw [hpc]
    exact h
  | thread =>
    apply of_selects
    unfold Machine.step
    rw [hpc]
    exact threadStep_selects hpc
  | acq =>
    unfold Machine.step acquire
    rw [hpc]
    dsimp only
    split
    . exact h
    . next hlock =>
      have hpasses := h.passes (Or.inl ⟨hpc, hlock⟩)
      apply Passes.yields _ (Or.inr (Or.inl rfl))
      exact hpasses.congr rfl rfl (fun _ _ => rfl)
  | mark =>
    have hpasses := h.passes (Or.inr (Or.inl hpc))
    unfold Machine.step
    rw [hpc]
    exact (hpasses.setProc _).yields (Or.inr (Or.inr rfl))
  | scan => exact h.scan hpc
  | found p =>
    apply of_selects
    unfold Machine.step
    rw [hpc]
    exact setPc_selects rfl
  | run prev p =>
    apply of_selects
    unfold Machine.step
    rw [hpc]
    dsimp only
    split
    . exact setPc_selects rfl
    . exact setPc_selects rfl
  | save prev p =>
    apply of_selects
    unfold Machine.step
    rw [hpc]
    exact setPc_selects rfl
  | load p =>
    apply of_selects
    unfold Machine.step
    rw [hpc]
    exact resume_selects
  | r =>
    apply of_selects
    unfold Machine.step
    rw [hpc]
    apply setPc_selects
    cases ((m.setProc (m.current c) fun proc => { proc with window := false }).proc _).interrupted <;> rfl
  | startAcq p =>
    apply of_selects
    unfold Machine.step acquire
    rw [hpc]
    dsimp only
    split
    . rw [hpc]
      rfl
    . exact setPc_selects rfl
  | startRun p =>
    apply of_selects
    unfold Machine.step
    rw [hpc]
    exact setPc_selects rfl
  | startLoad p =>
    apply of_selects
    unfold Machine.step
    rw [hpc]
    exact startLoad_selects

end Step

section OneCpu

variable {m m' : Machine Unit} {gs : List Given}

theorem allocproc_scheduled (m : Machine Unit) (entry : Entry) (page : Vmm.Addr)
    : (m.next (.allocproc entry page)).pc = m.pc
        ∧ (m.next (.allocproc entry page)).index = m.index
        ∧ (m.next (.allocproc entry page)).lock = m.lock
        ∧ (m.next (.allocproc entry page)).current = m.current
        ∧ ∀ q, ((m.next (.allocproc entry page)).proc q).state = (m.proc q).state := by
  unfold Machine.next allocproc
  dsimp only
  split
  . next p _ _ =>
    refine ⟨rfl, rfl, rfl, rfl, ?_⟩
    intro q
    by_cases hq : q = p
    . rw [hq]
      dsimp only
      rw [setProc_proc_self]
      rfl
    . dsimp only
      rw [setProc_proc_of_ne hq]
  . exact ⟨rfl, rfl, rfl, rfl, fun _ => rfl⟩

theorem Yields.next {e : Event Unit} (h : m.Yields ()) (he : PassesOver gs m e) : (m.next e).Yields () := by
  cases e with
  | allocproc entry page =>
    rcases allocproc_scheduled m entry page with ⟨hpc, hindex, hlock, hcurrent, hstate⟩
    exact h.congr (congrFun hpc ()) hindex hlock (congrFun hcurrent ()) hstate
  | init_proc c i =>
    unfold Machine.next Machine.init_proc
    dsimp only
    split
    . apply of_selects
      exact setPc_selects rfl
    . exact h
  | tick c =>
    show (m.tick c).Yields ()
    rcases m.tick_cases c with heq | ⟨place, p, hpc, heq⟩
    . rw [heq]
      exact h
    . rw [heq]
      cases hlock : m.lock with
      | none => exact ((he c rfl hlock ⟨place, p, hpc⟩).setProc _).yields (Or.inl rfl)
      | some c' =>
        unfold Yields
        rw [show (m.interrupt c place).pc () = .acq from interrupt_pc]
        left
        rw [interrupt_lock, hlock]
        simp
  | step c rsp => exact h.step

/--
In a run on one CPU whose interrupts are all taken when there is no other process, or when `scheduler` comes to
another one first, the process that was interrupted is never selected while another one is `RUNNABLE`.
-/
theorem never_reselects (hpc : m.pc () = .boot ∨ m.pc () = .thread) (h : m.Reached PassesOver gs m')
    : ¬ m'.Reselects () := by
  have hyields : m'.Yields () := by
    induction h with
    | refl =>
      apply Yields.of_selects
      rcases hpc with hpc | hpc
      . rw [hpc]
        rfl
      . rw [hpc]
        rfl
    | step e _ hcond ih => exact ih.next hcond
  rintro ⟨hfound, q, hq⟩
  unfold Yields at hyields
  rw [hfound] at hyields
  exact hyields rfl q hq

end OneCpu

section Exact

variable {m m' : Machine Unit} {gs : List Given}

def rounds (i p : Nat) : Nat :=
  if i ≤ p then
    p - i
  else if i ≤ NPROC then
    p + NPROC + 1 - i
  else
    p + 1

theorem rounds_succ {i p : Nat} (hi : i < NPROC) (hne : i ≠ p) : rounds (i + 1) p < rounds i p := by
  unfold rounds
  by_cases hle : i ≤ p
  . rw [if_pos hle, if_pos (by omega)]
    omega
  . rw [if_neg hle, if_neg (by omega), if_pos (by omega), if_pos (by omega)]
    omega

theorem rounds_zero {i p : Nat} (hi : ¬ i < NPROC) (hp : p < NPROC) : rounds 0 p < rounds i p := by
  unfold rounds
  rw [if_pos (Nat.zero_le p), if_neg (by omega)]
  split
  . omega
  . omega

structure Stuck (m : Machine Unit) : Prop where
  pc : m.pc () = .scan
  slot : m.current () < NPROC
  runnable : (m.proc (m.current ())).state = .RUNNABLE
  other : ∃ q, m.Other () q
  behind : ∀ q, m.Other () q → ¬ Ahead m.index q (m.current ())

theorem Stuck.step (h : m.Stuck) (rsp : Vmm.Addr)
    : (m.step () rsp).Reselects () ∨
        (m.step () rsp).Stuck
          ∧ rounds (m.step () rsp).index ((m.step () rsp).current ()) < rounds m.index (m.current ()) := by
  rcases h with ⟨hpc, hslot, hrunnable, ⟨q, hq⟩, hbehind⟩
  unfold Machine.step
  rw [hpc]
  dsimp only
  by_cases hindex : m.index < NPROC
  . rw [if_pos hindex]
    by_cases hstate : (m.proc m.index).state = .RUNNABLE
    . have hcurrent : m.index = m.current () := by
        by_contra hne
        apply hbehind m.index ⟨hindex, hne, hstate⟩
        unfold Ahead
        omega
      rw [if_pos hstate]
      left
      refine ⟨?_, q, hq.slot, hq.ne, hq.runnable⟩
      rw [setPc_pc_self, hcurrent]
      rfl
    . rw [if_neg hstate]
      have hcurrent : m.index ≠ m.current () := by
        intro heq
        rw [heq] at hstate
        exact hstate hrunnable
      right
      refine ⟨⟨hpc, hslot, hrunnable, ⟨q, hq.slot, hq.ne, hq.runnable⟩, ?_⟩, ?_⟩
      . intro q' hq' hahead
        apply hbehind q' ⟨hq'.slot, hq'.ne, hq'.runnable⟩
        unfold Ahead at *
        dsimp only at hahead
        omega
      . exact rounds_succ hindex hcurrent
  . rw [if_neg hindex]
    right
    refine ⟨⟨hpc, hslot, hrunnable, ⟨q, hq.slot, hq.ne, hq.runnable⟩, ?_⟩, ?_⟩
    . intro q' hq' hahead
      apply hbehind q' ⟨hq'.slot, hq'.ne, hq'.runnable⟩
      have hslot' := hq'.slot
      unfold Ahead at *
      dsimp only at hahead
      omega
    . exact rounds_zero hindex hslot

theorem Stuck.reselects (h : m'.Stuck) (hreached : m.Reached Any gs m')
    : ∃ gs m'', m.Reached Any gs m'' ∧ m''.Reselects () := by
  generalize hn : rounds m'.index (m'.current ()) = n
  induction n using Nat.strongRecOn generalizing gs m' with
  | ind n ih =>
    have hnext := hreached.step (.step () 0) trivial
    rcases h.step 0 with hdone | ⟨hstuck, hlt⟩
    . exact ⟨_, _, hnext, hdone⟩
    . rw [hn] at hlt
      exact ih _ hlt hstuck hnext rfl

theorem interrupt_state (m : Machine Unit) (place : Place) (q : Nat)
    : ((m.interrupt () place).proc q).state = (m.proc q).state := by
  unfold interrupt
  rw [setPc_proc]
  by_cases hq : q = m.current ()
  . rw [hq, setProc_proc_self]
  . rw [setProc_proc_of_ne hq]

theorem step_acq_eq (hpc : m.pc () = .acq) (hlock : m.lock = none) (rsp : Vmm.Addr)
    : m.next (.step () rsp) = ({ m with lock := some () }).setPc () .mark := by
  unfold Machine.next Machine.step acquire
  dsimp only
  rw [hpc, hlock]

theorem step_mark_eq (hpc : m.pc () = .mark) (rsp : Vmm.Addr)
    : m.next (.step () rsp) =
        (m.setProc (m.current ()) fun proc => { proc with state := .RUNNABLE }).setPc () .scan := by
  unfold Machine.next Machine.step
  dsimp only
  rw [hpc]

theorem reselects_of_not_passes {place : Place} {p : Nat} (hpc : m.pc () = place.pc p) (hlock : m.lock = none)
    (hslot : m.current () < NPROC) (hnot : ¬ m.Passes ()) : ∃ gs m', m.Reached Any gs m' ∧ m'.Reselects () := by
  unfold Passes at hnot
  simp only [not_forall, not_exists, not_and] at hnot
  rcases hnot with ⟨q, hq, hbehind⟩
  have htick : m.Reached Any (m.given (.tick ()) ++ []) (m.next (.tick ())) := Reached.refl.step _ trivial
  have hacq := htick.step (.step () 0) trivial
  have hmark := hacq.step (.step () 0) trivial
  have heq : m.next (.tick ()) = m.interrupt () place := tick_eq_interrupt hpc
  refine Stuck.reselects ?_ hmark
  rw [heq, step_acq_eq interrupt_pc (interrupt_lock.trans hlock), step_mark_eq setPc_pc_self]
  have hstate : ∀ q, q ≠ m.current () →
      (((m.interrupt () place).setProc (m.current ()) fun proc => { proc with state := .RUNNABLE }).proc q).state =
        (m.proc q).state := by
    intro q hne
    rw [setProc_proc_of_ne hne, interrupt_state]
  have hself : (((m.interrupt () place).setProc (m.current ()) fun proc =>
      { proc with state := .RUNNABLE }).proc (m.current ())).state = .RUNNABLE := by
    rw [setProc_proc_self]
  constructor
  case pc => exact setPc_pc_self
  case slot => exact hslot
  case runnable => exact hself
  case other => exact ⟨q, hq.congr rfl hstate⟩
  case behind =>
    intro q' hq'
    exact hbehind q' (hq'.congr rfl (fun q hne => (hstate q hne).symm))

end Exact

end Machine

def twoProcs (p : Nat) : Machine Unit where
  proc q :=
    { page := 0x5000
      regs := ⟨0, 0, 0, 0⟩
      stack := 0
      state := if q = p then .RUNNING else if q = 2 ∨ q = 3 then .RUNNABLE else .UNUSED
      pid := BitVec.ofNat 32 q
      fresh := true
      code := []
      saved := decide (q ≠ p)
      window := false }
  nextpid := 3
  index := 2
  lock := none
  current _ := p
  pc _ := .thread

theorem twoProcs_passes : (twoProcs 3).Passes () := by
  have hother : (twoProcs 3).Other () 2 := ⟨by decide, by decide, rfl⟩
  intro q hq
  exact ⟨2, hother, Or.inl ⟨by decide, Or.inl (by decide)⟩⟩

theorem never_reselects_twoProcs : ¬ ((twoProcs 3).next (.tick ())).Reselects () := by
  have htick : (twoProcs 3).Reached Machine.PassesOver _ _ :=
    Machine.Reached.refl.step (.tick ()) (fun _ _ _ _ => twoProcs_passes)
  exact Machine.never_reselects (Or.inr rfl) htick

theorem reselects_twoProcs
    : ∃ gs m, Machine.Reached Machine.Any (twoProcs 2) gs m ∧ m.Reselects () := by
  have hother : (twoProcs 2).Other () 3 := ⟨by decide, by decide, rfl⟩
  have hslot : (twoProcs 2).current () < NPROC := by decide
  apply @Machine.reselects_of_not_passes _ .thread 0 rfl rfl hslot
  rw [Machine.passes_iff_of_index rfl]
  intro hnone
  exact hnone 3 hother

end Sched
end Franklin
