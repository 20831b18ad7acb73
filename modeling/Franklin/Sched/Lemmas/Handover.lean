import Franklin.Sched.Lemmas.Safe

/-!
This module contains that a process is handed over from one CPU to another only after its stack has been
saved.
-/

namespace Franklin
namespace Sched

def Pc.started : Pc → Bool
  | boot | startAcq _ | startRun _ | startLoad _ => false
  | thread | acq | mark | scan | found _ | run _ _ | save _ _ | load _ | r => true

/--
From the line of `apic_timer` that marks the process `RUNNABLE` to the line of `scheduler` that marks the
one it has selected `RUNNING`.
-/
def Pc.marked : Pc → Bool
  | scan | found _ | run _ _ => true
  | _ => false

namespace Machine

variable {Cpu : Type} [DecidableEq Cpu] {m m' : Machine Cpu} {c c' : Cpu} {p : Nat} {rsp : Vmm.Addr}

theorem setPc_started {pc : Pc} (hpc : pc.started = true) (h : (m.pc c').started = true)
    : ((m.setPc c pc).pc c').started = true := by
  by_cases hc : c' = c
  . rw [hc, setPc_pc_self]
    exact hpc
  . rw [setPc_pc_of_ne hc]
    exact h

theorem resume_started (h : (m.pc c').started = true) : ((m.resume c p).pc c').started = true := by
  unfold resume
  split
  . apply setPc_started
    . rfl
    . exact h
  . apply setPc_started
    . rfl
    . exact h

theorem startLoad_started (h : (m.pc c').started = true) : ((m.startLoad c p).pc c').started = true := by
  unfold startLoad
  apply resume_started
  exact h

theorem threadStep_started (h : (m.pc c').started = true)
    : ((m.threadStep c p).pc c').started = true := by
  unfold threadStep
  split
  . exact h
  . exact h
  . exact h
  . exact h
  . unfold acquire
    split
    . exact h
    . exact h
  . apply startLoad_started
    exact h

def Plain (m : Machine Cpu) : Prop :=
  ∀ q, (m.proc q).interrupted = .thread

namespace Plain

omit [DecidableEq Cpu] in
theorem setProc (h : m.Plain) {f : Proc → Proc} (hf : ∀ proc, proc.interrupted = .thread → (f proc).interrupted = .thread)
    : (m.setProc p f).Plain := by
  intro q
  by_cases hq : q = p
  . rw [hq, setProc_proc_self]
    exact hf _ (h p)
  . rw [setProc_proc_of_ne hq]
    exact h q

omit [DecidableEq Cpu] in
theorem update (h : m.Plain) {f : Proc → Proc} (hf : ∀ proc, (f proc).interrupted = proc.interrupted)
    : (m.setProc p f).Plain :=
  h.setProc fun proc hproc => (hf proc).trans hproc

theorem setPc (h : m.Plain) {pc : Pc} : (m.setPc c pc).Plain :=
  h

omit [DecidableEq Cpu] in
theorem release (h : m.Plain) : m.release.Plain :=
  h

theorem resume (h : m.Plain) : (m.resume c p).Plain := by
  unfold Machine.resume
  split
  . apply setPc
    apply h.update
    intro proc
    rfl
  . apply setPc
    apply h.update
    intro proc
    rfl

theorem startLoad (h : m.Plain) : (m.startLoad c p).Plain := by
  apply resume
  apply h.setProc
  intro proc hproc
  split
  . exact hproc
  . rfl

omit [DecidableEq Cpu] in
theorem acquire (h : m.Plain) {next : Machine Cpu → Machine Cpu} (hnext : ∀ m' : Machine Cpu, m'.Plain → (next m').Plain)
    : (m.acquire c next).Plain := by
  unfold Machine.acquire
  split
  . exact h
  . apply hnext
    exact h

theorem threadStep (h : m.Plain) : (m.threadStep c p).Plain := by
  unfold Machine.threadStep
  split
  . exact h
  . apply h.update
    intro proc
    rfl
  . apply release
    apply h.update
    intro proc
    rfl
  . apply h.update
    intro proc
    rfl
  . apply h.acquire
    intro m' hm'
    apply hm'.update
    intro proc
    rfl
  . apply startLoad
    apply h.update
    intro proc
    rfl

theorem step (h : m.Plain) : (m.step c rsp).Plain := by
  unfold Machine.step
  cases hpc : m.pc c with
  | boot | found => exact h
  | thread => exact h.threadStep
  | acq | startAcq =>
    apply h.acquire
    intro m' hm'
    exact hm'
  | mark | save =>
    apply setPc
    apply h.update
    intro proc
    rfl
  | r =>
    apply release
    apply setPc
    apply h.update
    intro proc
    rfl
  | startRun p =>
    have hset : (m.set_current_proc c p).Plain := h
    apply setPc
    apply hset.update
    intro proc
    rfl
  | scan =>
    dsimp only
    split
    . split
      . exact h
      . exact h
    . exact h
  | run prev p =>
    dsimp only
    split
    . apply setPc
      apply h.update
      intro proc
      rfl
    . apply setPc
      apply h.update
      intro proc
      rfl
  | load => exact h.resume
  | startLoad => exact h.startLoad

theorem tick (h : m.Plain) (hstarted : (m.pc c).started = true) : (m.tick c).Plain := by
  rcases m.tick_cases c with heq | ⟨place, p, hpc, heq⟩
  . rw [heq]
    exact h
  . rw [heq]
    rw [hpc] at hstarted
    cases place with
    | thread =>
      apply setPc
      apply h.setProc
      intro proc _
      rfl
    | startAcq | startRun | startLoad => cases hstarted

omit [DecidableEq Cpu] in
theorem allocproc (h : m.Plain) {entry : Entry} {page : Vmm.Addr} : (m.allocproc entry page).2.Plain := by
  unfold Machine.allocproc
  split
  . next p _ _ =>
    have hnew : (m.setProc p fun proc => newproc proc (m.nextpid + 1) entry page).Plain := h.update fun _ => rfl
    exact hnew
  . exact h

end Plain

theorem step_started (hplain : m.Plain) (hc : (m.pc c).started = true) (h : (m.pc c').started = true)
    : ((m.step c rsp).pc c').started = true := by
  unfold step
  cases hpc : m.pc c with
  | boot | startAcq | startRun | startLoad =>
    rw [hpc] at hc
    cases hc
  | thread => exact threadStep_started h
  | acq =>
    dsimp only
    unfold acquire
    split
    . exact h
    . apply setPc_started
      . rfl
      . exact h
  | mark | found | save =>
    apply setPc_started
    . rfl
    . exact h
  | scan =>
    dsimp only
    split
    . split
      . apply setPc_started
        . rfl
        . exact h
      . exact h
    . exact h
  | run prev p =>
    dsimp only
    split
    . apply setPc_started
      . rfl
      . exact h
    . apply setPc_started
      . rfl
      . exact h
  | load p => exact resume_started h
  | r =>
    dsimp only
    rw [release_pc]
    apply setPc_started
    . rw [setProc_current, setProc_proc_self]
      dsimp only
      rw [hplain]
      rfl
    . exact h

theorem Reached.safe {gs : List Given} (hm : Start m) (hpc : ∀ c, m.pc c = .thread)
    (h : Reached Any m gs m')
    : Safe m' ∧ m'.Plain ∧ ∀ c, (m'.pc c).started = true := by
  induction h with
  | refl =>
    refine ⟨hm.safe, hm.interrupted, ?_⟩
    intro c
    rw [hpc]
    rfl
  | @step gs m' e _ hcond ih =>
    rcases ih with ⟨hsafe, hplain, hstarted⟩
    cases e with
    | allocproc entry page =>
      refine ⟨hsafe.allocproc, hplain.allocproc, ?_⟩
      unfold next allocproc
      dsimp only
      split
      . exact hstarted
      . exact hstarted
    | init_proc c i =>
      -- every CPU has a process already
      have hsame : m'.next (.init_proc c i) = m' := by
        unfold next init_proc
        dsimp only
        rw [if_neg]
        intro hboot
        have := hstarted c
        rw [hboot] at this
        cases this
      rw [hsame]
      exact ⟨hsafe, hplain, hstarted⟩
    | tick c =>
      have hstart : ∀ p, m'.pc c ≠ .startRun p ∧ m'.pc c ≠ .startLoad p := by
        intro p
        have := hstarted c
        constructor
        . intro hpc
          rw [hpc] at this
          cases this
        . intro hpc
          rw [hpc] at this
          cases this
      refine ⟨hsafe.tick hstart, hplain.tick (hstarted c), ?_⟩
      intro c'
      rcases m'.tick_cases c with heq | ⟨place, p, _, heq⟩
      . show ((m'.tick c).pc c').started = true
        rw [heq]
        exact hstarted c'
      . show ((m'.tick c).pc c').started = true
        rw [heq]
        apply setPc_started
        . rfl
        . exact hstarted c'
    | step c rsp =>
      refine ⟨hsafe.step ?_, hplain.step, ?_⟩
      . rintro p (hpc | ⟨hpc, hcurrent, hunused⟩)
        . have := hstarted c
          rw [hpc] at this
          cases this
        . -- the process of a CPU is in use
          have hlocal := hsafe.here c
          unfold Local at hlocal
          rw [hpc] at hlocal
          rw [← hcurrent] at hunused
          exact absurd (hplain _) (hlocal.1.resolve_left (by simp [hunused])).2
      . intro c'
        exact step_started hplain (hstarted c) (hstarted c')

/--
No process runs on two CPUs, and a CPU switches only to a process whose stack has been saved. The process
of a CPU is `RUNNING` except while the CPU selects the next one.
-/
theorem handed_over {gs : List Given} (hm : Start m) (hpc : ∀ c, m.pc c = .thread)
    (h : Reached Any m gs m')
    : Function.Injective m'.current ∧
        (∀ c, (m'.proc (m'.current c)).state = .RUNNING ∨
          m'.lock = some c ∧ (m'.pc c).marked = true) ∧
        (∀ c p, m'.pc c = .found p → (m'.proc p).saved = true ∨ p = m'.current c) ∧
        ∀ c p, m'.pc c = .load p → (m'.proc p).saved = true := by
  rcases h.safe hm hpc with ⟨hsafe, hplain, hstarted⟩
  have hboot : ∀ c, m'.pc c ≠ .boot := by
    intro c heq
    have := hstarted c
    rw [heq] at this
    cases this
  refine ⟨?_, ?_, ?_, ?_⟩
  . intro c c' heq
    exact hsafe.unique c c' (hboot c) (hboot c') heq
  . intro c
    have hlocal := hsafe.here c
    have hlock := hsafe.lock c
    have := hstarted c
    unfold Local at hlocal
    unfold Holds at hlock
    cases hpc : m'.pc c with
    | boot | startAcq | startRun | startLoad =>
      rw [hpc] at this
      cases this
    | thread | r =>
      rw [hpc] at hlocal
      exact Or.inl hlocal.1
    | acq | mark =>
      rw [hpc] at hlocal
      exact Or.inl (hlocal.1.resolve_right fun h => h.2 (hplain _))
    | save | load =>
      rw [hpc] at hlocal
      exact Or.inl hlocal.2.1
    | scan | found | run =>
      rw [hpc] at hlock
      exact Or.inr ⟨hlock.mpr (Or.inl rfl), rfl⟩
  . intro c p hpc
    have hlocal := hsafe.here c
    unfold Local at hlocal
    rw [hpc] at hlocal
    by_cases hp : p = m'.current c
    . exact Or.inr hp
    . exact Or.inl (hlocal.2.2.2 hp).2
  . intro c p hpc
    have hlocal := hsafe.here c
    unfold Local at hlocal
    rw [hpc] at hlocal
    rcases hlocal with ⟨hcurrent, _, _, hsaved⟩
    rw [← hcurrent]
    exact hsaved

end Machine

def twoCpus : Machine Bool where
  proc p :=
    { page := 0x5000
      regs := ⟨0, 0, 0, 0⟩
      stack := 0
      state := if p < 2 then .RUNNING else if p = 2 then .RUNNABLE else .UNUSED
      pid := BitVec.ofNat 32 p
      fresh := true
      code := []
      saved := decide (2 ≤ p)
      window := false }
  nextpid := 3
  index := 2
  lock := none
  current c := c.toNat
  pc _ := .thread

theorem twoCpus_start : twoCpus.Start := by
  have hused : ∀ p, (twoCpus.proc p).state ≠ .UNUSED → p ≤ 2 := by
    intro p hp
    by_contra hlt
    apply hp
    show (if p < 2 then ProcState.RUNNING else if p = 2 then .RUNNABLE else .UNUSED) = .UNUSED
    rw [if_neg (by omega), if_neg (by omega)]
  constructor
  case pc => exact fun _ => Or.inr rfl
  case state =>
    intro c _
    cases c <;> rfl
  case unique =>
    intro c c' _ _ heq
    revert heq
    revert c c'
    decide
  case pid =>
    intro p q hp hq heq
    have hp := hused p hp
    have hq := hused q hq
    have heq := congrArg BitVec.toNat heq
    simp only [twoCpus, BitVec.toNat_ofNat] at heq
    omega
  case lock => simp [twoCpus]
  case code => exact fun _ _ => rfl
  case ready =>
    intro q hq
    have hle : 2 ≤ q := by
      by_contra hlt
      have h : q = 0 ∨ q = 1 := by omega
      rcases h with rfl | rfl
      . exact hq false rfl rfl
      . exact hq true rfl rfl
    refine ⟨⟨rfl, rfl, rfl⟩, ?_⟩
    simp [twoCpus, hle]
  case interrupted => exact fun _ => rfl

theorem handed_over_twoCpus
    : ∃ gs m, Machine.Reached Machine.Any twoCpus gs m ∧ m.pc false = .load 2 ∧ m.pc true = .acq ∧
        Function.Injective m.current ∧ (m.proc 2).saved = true := by
  have h1 : Machine.Reached Machine.Any twoCpus _ _ := Machine.Reached.refl.step (.tick false) trivial
  have h2 := h1.step (.step false 0) trivial
  have h3 := h2.step (.step false 0) trivial
  have h4 := h3.step (.tick true) trivial
  have h5 := h4.step (.step false 0) trivial
  have h6 := h5.step (.step false 0) trivial
  have h7 := h6.step (.step true 0) trivial
  have h8 := h7.step (.step false 0) trivial
  have h9 := h8.step (.step false 0x7000) trivial
  rcases Machine.handed_over twoCpus_start (fun _ => rfl) h9 with ⟨hinjective, _, _, hload⟩
  refine ⟨_, _, h9, ?_, ?_, hinjective, ?_⟩
  . decide +kernel
  . decide +kernel
  . apply hload false
    decide +kernel

def oneProc : Machine Unit where
  proc p :=
    { page := 0x5000
      regs := ⟨0, 0, 0, 0⟩
      stack := 0
      state := if p = 0 then .RUNNING else .UNUSED
      pid := 1
      fresh := true
      code := []
      saved := decide (p ≠ 0)
      window := false }
  nextpid := 1
  index := 0
  lock := none
  current _ := 0
  pc _ := .thread

theorem oneProc_start : oneProc.Start := by
  constructor
  case pc => exact fun _ => Or.inr rfl
  case state => exact fun _ _ => rfl
  case unique => exact fun _ _ _ _ _ => rfl
  case pid =>
    intro p q hp hq _
    simp only [oneProc, ite_eq_right_iff, reduceCtorEq, imp_false, not_not, ne_eq] at hp hq
    rw [hp, hq]
  case lock => simp [oneProc]
  case code => exact fun _ _ => rfl
  case ready =>
    intro q hq
    have hne : q ≠ 0 := by
      intro heq
      exact hq () rfl heq.symm
    refine ⟨⟨rfl, rfl, rfl⟩, ?_⟩
    simp [oneProc, hne]
  case interrupted => exact fun _ => rfl

theorem current_runnable_oneProc
    : ∃ gs m, Machine.Reached Machine.Any oneProc gs m ∧ m.pc () = .found 0 ∧ m.current () = 0 ∧
        (m.proc 0).state = .RUNNABLE ∧ (m.proc 0).saved = false := by
  have h1 : Machine.Reached Machine.Any oneProc _ _ := Machine.Reached.refl.step (.tick ()) trivial
  have h2 := h1.step (.step () 0) trivial
  have h3 := h2.step (.step () 0) trivial
  have h4 := h3.step (.step () 0) trivial
  refine ⟨_, _, h4, ?_, ?_, ?_, ?_⟩
  . decide +kernel
  . decide +kernel
  . decide +kernel
  . decide +kernel

end Sched
end Franklin
