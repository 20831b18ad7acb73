import Franklin.Sched.Lemmas.Machine

/-!
This module contains what holds in every state of the CPUs: `apic_timer` runs with `ptable.lock`, which
the process that is resumed gives back, and nobody else accesses the processes in between.
-/

namespace Franklin
namespace Sched

def Pc.inside : Pc → Bool
  | boot | thread | acq | startAcq _ => false
  | mark | scan | found _ | run _ _ | save _ _ | load _ | r | startRun _ | startLoad _ => true

def Pc.procs : Pc → List Nat
  | boot | thread | acq | mark | scan | r => []
  | found p => [p]
  | run prev p | save prev p => [prev, p]
  | load p | startAcq p | startRun p | startLoad p => [p]

namespace Proc

def Starts (proc : Proc) : Prop :=
  Op.ok true proc.code = true ∧ proc.code.all Op.isCall = true

/--
The process goes on after an interrupt: behind its call of `r`, or in front of the `acq` of `startproc`.
-/
def Returns (proc : Proc) : Prop :=
  match proc.interrupted with
  | .thread => Op.ok false proc.code = true
  | .startAcq => proc.fresh = true → proc.Starts
  | .startRun | .startLoad => False

theorem Returns.interrupted {proc : Proc} (h : proc.Returns)
    : proc.interrupted = .thread ∨ proc.interrupted = .startAcq := by
  unfold Returns at h
  cases heq : proc.interrupted with
  | thread => exact Or.inl rfl
  | startAcq => exact Or.inr rfl
  | startRun | startLoad =>
    rw [heq] at h
    exact h.elim

def Idle (proc : Proc) : Prop :=
  proc.window = false ∧ proc.Returns

def Ready (proc : Proc) : Prop :=
  proc.window = false ∧ (if proc.fresh then proc.Starts else proc.Returns)

/--
A process is `RUNNING` on its CPU, unless `startproc` has been interrupted before it says so.
-/
def Runs (proc : Proc) : Prop :=
  proc.state = .RUNNING ∨ proc.state = .UNUSED ∧ proc.interrupted ≠ .thread

theorem Runs.ne_runnable {proc : Proc} (h : proc.Runs) : proc.state ≠ .RUNNABLE := by
  rcases h with h | h
  . simp [h]
  . simp [h.1]

theorem Idle.start {proc proc' : Proc} (h : proc.Idle) (hinterrupted : proc.interrupted ≠ .thread)
    (hwindow : proc'.window = proc.window) (hsame : proc'.interrupted = proc.interrupted) (hstarts : proc'.Starts)
    : proc'.Idle := by
  refine ⟨hwindow.trans h.1, ?_⟩
  unfold Returns
  rw [hsame, h.2.interrupted.resolve_left hinterrupted]
  exact fun _ => hstarts

theorem Ready.of_idle {proc : Proc} (h : proc.Idle) (hfresh : proc.fresh = false) : proc.Ready := by
  refine ⟨h.1, ?_⟩
  rw [hfresh]
  exact h.2

end Proc

namespace Machine

variable {Cpu : Type} {m : Machine Cpu} {c c' : Cpu} {p q : Nat}

/--
The CPU holds `ptable.lock`, which it or the process that it has resumed gives back.
-/
def Holds (m : Machine Cpu) (c : Cpu) : Prop :=
  (m.pc c).inside = true ∨
    (m.pc c = .thread ∨ m.pc c = .acq) ∧ (m.proc (m.current c)).window = true

def Local (m : Machine Cpu) (c : Cpu) : Prop :=
  let current := m.proc (m.current c)
  match m.pc c with
  | .boot => True
  | .thread => current.state = .RUNNING ∧ Op.ok current.window current.code = true
  | .acq =>
    current.Runs ∧
      (if current.interrupted = .thread then Op.ok current.window current.code = true
        else current.Idle)
  | .mark => current.Runs ∧ current.Idle
  | .scan => current.state = .RUNNABLE ∧ current.Idle
  | .found p =>
    current.state = .RUNNABLE ∧ current.Idle ∧ (m.proc p).state = .RUNNABLE ∧
      (p ≠ m.current c → (m.proc p).Ready ∧ (m.proc p).saved = true)
  | .run prev p =>
    m.current c = p ∧ current.state = .RUNNABLE ∧ (m.proc prev).state = .RUNNABLE ∧ (m.proc prev).Idle ∧
      (p ≠ prev → current.Ready ∧ current.saved = true)
  | .save prev p =>
    m.current c = p ∧ current.state = .RUNNING ∧ p ≠ prev ∧ (m.proc prev).state = .RUNNABLE ∧
      (m.proc prev).Idle ∧ current.Ready ∧ current.saved = true
  | .load p => m.current c = p ∧ current.state = .RUNNING ∧ current.Ready ∧ current.saved = true
  | .r => current.state = .RUNNING ∧ current.Returns
  | .startAcq p | .startRun p =>
    m.current c = p ∧ current.state ≠ .RUNNABLE ∧ current.window = false ∧ (current.fresh = true → current.Starts)
  | .startLoad p =>
    m.current c = p ∧ current.state = .RUNNING ∧ current.window = false ∧ (current.fresh = true → current.Starts)

def Touches (m : Machine Cpu) (c : Cpu) (q : Nat) : Prop :=
  m.pc c ≠ .boot ∧ (m.current c = q ∨ q ∈ (m.pc c).procs)

def Leaves (m : Machine Cpu) (c : Cpu) (q : Nat) : Prop :=
  match m.pc c with
  | .scan | .found _ => m.current c = q
  | .run prev _ | .save prev _ => prev = q
  | _ => False

theorem Leaves.touches (h : m.Leaves c q) : m.Touches c q := by
  unfold Leaves at h
  unfold Touches
  cases hpc : m.pc c with
  | scan | found p =>
    rw [hpc] at h
    exact ⟨by simp, Or.inl h⟩
  | run prev p | save prev p =>
    rw [hpc] at h
    exact ⟨by simp, Or.inr (by simp [Pc.procs, h])⟩
  | boot | thread | acq | mark | load | r | startAcq | startRun | startLoad =>
    rw [hpc] at h
    exact h.elim

/--
Only the CPU that holds the lock accesses processes that others may resume, and a process that can be
resumed has its stack saved.
-/
structure Safe (m : Machine Cpu) : Prop where
  lock : ∀ c, m.lock = some c ↔ m.Holds c
  unique : ∀ c c', m.pc c ≠ .boot → m.pc c' ≠ .boot → m.current c = m.current c' → c = c'
  here : ∀ c, m.Local c
  ready : ∀ q, (∀ c, ¬ m.Touches c q) → (m.proc q).Ready
  pid : ∀ p q, (m.proc p).state ≠ .UNUSED → (m.proc q).state ≠ .UNUSED →
    (m.proc p).pid = (m.proc q).pid → p = q
  saved : ∀ q, (m.proc q).state = .RUNNABLE → (m.proc q).saved = true ∨ ∃ c, m.Leaves c q

namespace Safe

theorem eq_of_inside (h : Safe m) (hc : (m.pc c).inside = true) (hc' : (m.pc c').inside = true)
    : c = c' := by
  have hlock := (h.lock c).mpr (Or.inl hc)
  have hlock' := (h.lock c').mpr (Or.inl hc')
  rw [hlock, Option.some.injEq] at hlock'
  exact hlock'

def Mine (m : Machine Cpu) (c : Cpu) (q : Nat) : Prop :=
  m.pc c ≠ .boot ∧ m.current c = q ∨ (m.pc c).inside = true ∧ (m.proc q).state = .RUNNABLE

theorem runnable_of_mem (h : Safe m) (hq : q ∈ (m.pc c).procs) (hne : m.current c ≠ q)
    : (m.pc c).inside = true ∧ (m.proc q).state = .RUNNABLE := by
  have hlocal := h.here c
  unfold Local at hlocal
  cases hpc : m.pc c with
  | boot | thread | acq | mark | scan | r =>
    rw [hpc] at hq
    cases hq
  | found p =>
    rw [hpc] at hq hlocal
    have heq : q = p := List.mem_singleton.mp hq
    rw [heq]
    exact ⟨rfl, hlocal.2.2.1⟩
  | run prev p =>
    rw [hpc] at hq hlocal
    have heq : q = prev := by
      simp only [Pc.procs, List.mem_cons, List.not_mem_nil, or_false] at hq
      rcases hq with hq | hq
      . exact hq
      . exact absurd (hlocal.1.trans hq.symm) hne
    rw [heq]
    exact ⟨rfl, hlocal.2.2.1⟩
  | save prev p =>
    rw [hpc] at hq hlocal
    have heq : q = prev := by
      simp only [Pc.procs, List.mem_cons, List.not_mem_nil, or_false] at hq
      rcases hq with hq | hq
      . exact hq
      . exact absurd (hlocal.1.trans hq.symm) hne
    rw [heq]
    exact ⟨rfl, hlocal.2.2.2.1⟩
  | load p | startAcq p | startRun p | startLoad p =>
    rw [hpc] at hq hlocal
    have heq : q = p := List.mem_singleton.mp hq
    exact absurd (hlocal.1.trans heq.symm) hne

theorem not_runnable (h : Safe m) (hboot : m.pc c ≠ .boot) (hinside : (m.pc c).inside = false)
    : (m.proc (m.current c)).state ≠ .RUNNABLE := by
  have hlocal := h.here c
  unfold Local at hlocal
  cases hpc : m.pc c with
  | boot => exact absurd hpc hboot
  | mark | scan | found | run | save | load | r | startRun | startLoad =>
    rw [hpc] at hinside
    cases hinside
  | thread =>
    rw [hpc] at hlocal
    simp [hlocal.1]
  | acq =>
    rw [hpc] at hlocal
    exact hlocal.1.ne_runnable
  | startAcq p =>
    rw [hpc] at hlocal
    exact hlocal.2.1

theorem not_touches (h : Safe m) (hq : Mine m c q) (hne : c' ≠ c) : ¬ m.Touches c' q := by
  rintro ⟨hboot, htouch⟩
  have hrun : m.current c' ≠ q → (m.pc c').inside = true ∧ (m.proc q).state = .RUNNABLE := by
    intro hcur
    apply h.runnable_of_mem _ hcur
    exact htouch.resolve_left hcur
  rcases hq with ⟨hboot', hcur⟩ | ⟨hinside, hstate⟩
  . by_cases hcur' : m.current c' = q
    . exact hne (h.unique c' c hboot hboot' (hcur'.trans hcur.symm))
    . rcases hrun hcur' with ⟨hinside', hstate⟩
      have hinside : (m.pc c).inside = false := by
        cases hi : (m.pc c).inside with
        | false => rfl
        | true => exact absurd (h.eq_of_inside hinside' hi) hne
      apply h.not_runnable hboot' hinside
      rw [hcur, hstate]
  . have hinside' : (m.pc c').inside = false := by
      cases hi : (m.pc c').inside with
      | false => rfl
      | true => exact absurd (h.eq_of_inside hi hinside) hne
    by_cases hcur' : m.current c' = q
    . apply h.not_runnable hboot hinside'
      rw [hcur', hstate]
    . rw [(hrun hcur').1] at hinside'
      cases hinside'

end Safe

theorem Local.frame {m' : Machine Cpu} (h : m.Local c) (hpc : m'.pc c = m.pc c)
    (hcurrent : m'.current c = m.current c) (hproc : ∀ q, m.Touches c q → m'.proc q = m.proc q)
    : m'.Local c := by
  unfold Local at h ⊢
  rw [hpc, hcurrent]
  cases heq : m.pc c with
  | boot => trivial
  | thread | acq | mark | scan | r =>
    rw [heq] at h
    rw [hproc (m.current c) ⟨by simp [heq], Or.inl rfl⟩]
    exact h
  | found p | load p | startAcq p | startRun p | startLoad p =>
    rw [heq] at h
    rw [hproc (m.current c) ⟨by simp [heq], Or.inl rfl⟩]
    have := hproc p ⟨by simp [heq], Or.inr (by simp [heq, Pc.procs])⟩
    simp only [this]
    exact h
  | run prev p | save prev p =>
    rw [heq] at h
    rw [hproc (m.current c) ⟨by simp [heq], Or.inl rfl⟩]
    have := hproc prev ⟨by simp [heq], Or.inr (by simp [heq, Pc.procs])⟩
    simp only [this]
    exact h

structure Changes (m m' : Machine Cpu) (c : Cpu) (S : List Nat) : Prop where
  pc : ∀ c', c' ≠ c → m'.pc c' = m.pc c'
  current : ∀ c', c' ≠ c → m'.current c' = m.current c'
  proc : ∀ q, q ∉ S → m'.proc q = m.proc q

inductive LockStep (m m' : Machine Cpu) (c : Cpu) : Prop where
  | keep (hlock : m'.lock = m.lock) (h : m'.Holds c ↔ m.Holds c)
  | take (hlock : m.lock = none) (hlock' : m'.lock = some c) (h : m'.Holds c)
  | give (hlock : m.lock = some c) (hlock' : m'.lock = none) (h : ¬ m'.Holds c)

namespace Safe

theorem of_changes (h : Safe m) {m' : Machine Cpu} {S : List Nat} (hch : Changes m m' c S)
    (hS : ∀ q ∈ S, Mine m c q ∧ m.Touches c q) (hlock : LockStep m m' c)
    (hcurrent : ∀ c', c' ≠ c → m.pc c' ≠ .boot → m.current c' ≠ m'.current c)
    (hlocal : m'.Local c)
    (hready : ∀ q, m.Touches c q → ¬ m'.Touches c q → (m'.proc q).Ready)
    (hpid : ∀ p q, (m'.proc p).state ≠ .UNUSED → (m'.proc q).state ≠ .UNUSED →
      (m'.proc p).pid = (m'.proc q).pid → p = q)
    (hsaved : ∀ q, m.Touches c q → (m'.proc q).state = .RUNNABLE →
      (m'.proc q).saved = true ∨ m'.Leaves c q) : Safe m' := by
  have hproc : ∀ c' q, c' ≠ c → m.Touches c' q → m'.proc q = m.proc q := by
    intro c' q hne htouch
    apply hch.proc
    intro hq
    exact h.not_touches (hS q hq).1 hne htouch
  have htouches : ∀ c' q, c' ≠ c → (m'.Touches c' q ↔ m.Touches c' q) := by
    intro c' q hne
    unfold Touches
    rw [hch.pc c' hne, hch.current c' hne]
  have hother : ∀ c', c' ≠ c → (m'.Holds c' ↔ m.Holds c') := by
    intro c' hne
    unfold Holds
    rw [hch.pc c' hne, hch.current c' hne]
    by_cases hb : m.pc c' = .boot
    . simp [hb]
    . rw [hproc c' _ hne ⟨hb, Or.inl rfl⟩]
  constructor
  case lock =>
    intro c'
    by_cases hc : c' = c
    . subst hc
      cases hlock with
      | keep hlock hholds => rw [hlock, h.lock, hholds]
      | take _ hlock' hholds => simp [hlock', hholds]
      | give _ hlock' hholds => simp [hlock', hholds]
    . rw [hother c' hc, ← h.lock]
      have hne : some c ≠ some c' := by
        intro heq
        rw [Option.some.injEq] at heq
        exact hc heq.symm
      cases hlock with
      | keep hlock hholds => rw [hlock]
      | take hlock hlock' hholds => simp [hlock, hlock', Ne.symm hc]
      | give hlock hlock' hholds => simp [hlock, hlock', Ne.symm hc]
  case unique =>
    intro c1 c2 hb1 hb2 heq
    by_cases hc1 : c1 = c
    . subst hc1
      by_cases hc2 : c2 = c1
      . exact hc2.symm
      . rw [hch.pc c2 hc2] at hb2
        rw [hch.current c2 hc2] at heq
        exact absurd heq.symm (hcurrent c2 hc2 hb2)
    . by_cases hc2 : c2 = c
      . subst hc2
        rw [hch.pc c1 hc1] at hb1
        rw [hch.current c1 hc1] at heq
        exact absurd heq (hcurrent c1 hc1 hb1)
      . rw [hch.pc c1 hc1] at hb1
        rw [hch.pc c2 hc2] at hb2
        rw [hch.current c1 hc1, hch.current c2 hc2] at heq
        exact h.unique c1 c2 hb1 hb2 heq
  case here =>
    intro c'
    by_cases hc : c' = c
    . rw [hc]
      exact hlocal
    . apply (h.here c').frame (hch.pc c' hc) (hch.current c' hc)
      intro q htouch
      exact hproc c' q hc htouch
  case ready =>
    intro q hq
    by_cases htouch : m.Touches c q
    . exact hready q htouch (hq c)
    . have hqS : q ∉ S := by
        intro hmem
        exact htouch (hS q hmem).2
      rw [hch.proc q hqS]
      apply h.ready
      intro c'
      by_cases hc : c' = c
      . rw [hc]
        exact htouch
      . rw [← htouches c' q hc]
        exact hq c'
  case pid => exact hpid
  case saved =>
    intro q hstate
    by_cases htouch : m.Touches c q
    . rcases hsaved q htouch hstate with hq | hq
      . exact Or.inl hq
      . exact Or.inr ⟨c, hq⟩
    . have hqS : q ∉ S := by
        intro hmem
        exact htouch (hS q hmem).2
      rw [hch.proc q hqS] at hstate ⊢
      rcases h.saved q hstate with hq | ⟨c', hq⟩
      . exact Or.inl hq
      . refine Or.inr ⟨c', ?_⟩
        have hc : c' ≠ c := by
          intro hc
          rw [hc] at hq
          exact htouch hq.touches
        unfold Leaves at hq ⊢
        rw [hch.pc c' hc, hch.current c' hc]
        exact hq

theorem current_ne (h : Safe m) (hq : Mine m c q)
    : ∀ c', c' ≠ c → m.pc c' ≠ .boot → m.current c' ≠ q := by
  intro c' hne hb heq
  exact h.not_touches hq hne ⟨hb, Or.inl heq⟩

theorem pid_of_eq (h : Safe m) {m' : Machine Cpu} (hpid : ∀ q, (m'.proc q).pid = (m.proc q).pid)
    (hstate : ∀ q, (m.proc q).state = .UNUSED → (m'.proc q).state = .UNUSED)
    : ∀ p q, (m'.proc p).state ≠ .UNUSED → (m'.proc q).state ≠ .UNUSED →
        (m'.proc p).pid = (m'.proc q).pid → p = q := by
  intro p q hp hq heq
  rw [hpid, hpid] at heq
  apply h.pid p q _ _ heq
  . intro hunused
    exact hp (hstate p hunused)
  . intro hunused
    exact hq (hstate q hunused)

theorem pid_of_start (h : Safe m) {m' : Machine Cpu} (hother : ∀ q, q ∉ [p] → m'.proc q = m.proc q)
    (hpid : (m'.proc p).pid = (m.proc p).pid)
    (hfree : ∀ q, q ≠ p → (m.proc q).state ≠ .UNUSED → (m.proc q).pid ≠ (m.proc p).pid)
    : ∀ q₁ q₂, (m'.proc q₁).state ≠ .UNUSED → (m'.proc q₂).state ≠ .UNUSED →
        (m'.proc q₁).pid = (m'.proc q₂).pid → q₁ = q₂ := by
  have hsame : ∀ q, q ≠ p → m'.proc q = m.proc q := fun q hq => hother q (by simpa using hq)
  intro q₁ q₂ h₁ h₂ heq
  by_cases hq₁ : q₁ = p
  . by_cases hq₂ : q₂ = p
    . exact hq₁.trans hq₂.symm
    . rw [hsame q₂ hq₂] at h₂ heq
      rw [hq₁, hpid] at heq
      exact absurd heq.symm (hfree q₂ hq₂ h₂)
  . by_cases hq₂ : q₂ = p
    . rw [hsame q₁ hq₁] at h₁ heq
      rw [hq₂, hpid] at heq
      exact absurd heq (hfree q₁ hq₁ h₁)
    . rw [hsame q₁ hq₁] at h₁ heq
      rw [hsame q₂ hq₂] at h₂ heq
      exact h.pid q₁ q₂ h₁ h₂ heq

theorem of_own (h : Safe m) {m' : Machine Cpu} (hch : Changes m m' c [m.current c])
    (hboot : m.pc c ≠ .boot) (hprocs : ∀ q ∈ (m.pc c).procs, q = m.current c)
    (hboot' : m'.pc c ≠ .boot) (hcurrent : m'.current c = m.current c) (hlock : LockStep m m' c)
    (hlocal : m'.Local c) (hpid : (m'.proc (m.current c)).pid = (m.proc (m.current c)).pid)
    (hstate : (m.proc (m.current c)).state = .UNUSED → (m'.proc (m.current c)).state = .UNUSED)
    (hsaved : (m'.proc (m.current c)).state = .RUNNABLE →
      (m'.proc (m.current c)).saved = true ∨ m'.Leaves c (m.current c)) : Safe m' := by
  have hmine : Mine m c (m.current c) := Or.inl ⟨hboot, rfl⟩
  have htouches : ∀ q, m.Touches c q → q = m.current c := by
    intro q hq
    rcases hq.2 with hq | hq
    . exact hq.symm
    . exact hprocs q hq
  have hsame : ∀ q, q ≠ m.current c → m'.proc q = m.proc q := by
    intro q hq
    apply hch.proc
    simpa using hq
  apply h.of_changes hch _ hlock _ hlocal
  . intro q htouch hnot
    rw [htouches q htouch] at hnot
    exact absurd ⟨hboot', Or.inl hcurrent⟩ hnot
  . apply h.pid_of_eq
    . intro q
      by_cases hq : q = m.current c
      . rw [hq, hpid]
      . rw [hsame q hq]
    . intro q
      by_cases hq : q = m.current c
      . rw [hq]
        exact hstate
      . rw [hsame q hq]
        exact id
  . intro q htouch
    rw [htouches q htouch]
    exact hsaved
  . intro q hq
    rw [List.mem_singleton.mp hq]
    exact ⟨hmine, hboot, Or.inl rfl⟩
  . rw [hcurrent]
    exact h.current_ne hmine

end Safe

theorem Changes.refl (m : Machine Cpu) (c : Cpu) : Changes m m c [] :=
  ⟨fun _ _ => rfl, fun _ _ => rfl, fun _ _ => rfl⟩

theorem Changes.setProc {m' : Machine Cpu} {S : List Nat} (h : Changes m m' c S) {f : Proc → Proc}
    : Changes m (m'.setProc p f) c (p :: S) := by
  refine ⟨h.pc, h.current, ?_⟩
  intro q hq
  rw [List.mem_cons, not_or] at hq
  rw [setProc_proc_of_ne hq.1]
  exact h.proc q hq.2

theorem Changes.lock {m' : Machine Cpu} {S : List Nat} (h : Changes m m' c S) (lock : Option Cpu)
    : Changes m { m' with lock } c S :=
  ⟨h.pc, h.current, h.proc⟩

theorem Changes.mono {m' : Machine Cpu} {S T : List Nat} (h : Changes m m' c S) (hST : S ⊆ T)
    : Changes m m' c T := by
  refine ⟨h.pc, h.current, ?_⟩
  intro q hq
  apply h.proc
  intro hmem
  exact hq (hST hmem)

end Machine

namespace Machine

variable {Cpu : Type} [DecidableEq Cpu] {m : Machine Cpu} {c : Cpu} {p : Nat} {rsp : Vmm.Addr}

theorem Changes.setPc {m' : Machine Cpu} {S : List Nat} (h : Changes m m' c S) (pc : Pc)
    : Changes m (m'.setPc c pc) c S := by
  refine ⟨?_, h.current, h.proc⟩
  intro c' hne
  rw [setPc_pc_of_ne hne]
  exact h.pc c' hne

theorem Changes.set_current_proc {m' : Machine Cpu} {S : List Nat} (h : Changes m m' c S)
    : Changes m (m'.set_current_proc c p) c S := by
  refine ⟨h.pc, ?_, h.proc⟩
  intro c' hne
  rw [set_current_proc_current_of_ne hne]
  exact h.current c' hne

def Starts (m : Machine Cpu) (c : Cpu) (p : Nat) : Prop :=
  m.pc c = .startRun p ∨ m.pc c = .mark ∧ m.current c = p ∧ (m.proc p).state = .UNUSED

namespace Safe

omit [DecidableEq Cpu] in
theorem holds_iff_of_inside {m' : Machine Cpu} (h : (m.pc c).inside = true) (h' : (m'.pc c).inside = true)
    : m'.Holds c ↔ m.Holds c := by
  simp [Holds, h, h']

theorem step_mark (h : Safe m) (hpc : m.pc c = .mark)
    (hpid : (m.proc (m.current c)).state = .UNUSED → ∀ q, q ≠ m.current c → (m.proc q).state ≠ .UNUSED →
      (m.proc q).pid ≠ (m.proc (m.current c)).pid) : Safe (m.step c rsp) := by
  have hlocal := h.here c
  unfold Local at hlocal
  rw [hpc] at hlocal
  have htouches : ∀ q, m.Touches c q → q = m.current c := by
    intro q htouch
    rcases htouch.2 with heq | hmem
    . exact heq.symm
    . rw [hpc] at hmem
      cases hmem
  unfold step
  rw [hpc]
  dsimp only
  have hch : Changes m ((m.setProc (m.current c) fun proc => { proc with state := .RUNNABLE }).setPc c .scan) c
      [m.current c] := by
    apply Changes.setPc
    apply Changes.setProc (Changes.refl m c)
  apply h.of_changes hch
  . intro q hq
    rw [List.mem_singleton.mp hq]
    exact ⟨Or.inl ⟨by simp [hpc], rfl⟩, by simp [hpc], Or.inl rfl⟩
  . apply LockStep.keep
    . simp
    . apply holds_iff_of_inside
      . simp [hpc, Pc.inside]
      . simp [Pc.inside]
  . simp only [setPc_current, setProc_current]
    exact h.current_ne (Or.inl ⟨by simp [hpc], rfl⟩)
  . simp only [Local, setPc_pc_self, setPc_current, setProc_current, setPc_proc, setProc_proc_self]
    exact ⟨trivial, hlocal.2⟩
  . intro q htouch hnot
    exfalso
    apply hnot
    exact ⟨by simp, Or.inl (htouches q htouch).symm⟩
  . by_cases hunused : (m.proc (m.current c)).state = .UNUSED
    . exact h.pid_of_start hch.proc (by simp) (hpid hunused)
    . apply h.pid_of_eq
      . intro q
        by_cases hq : q = m.current c
        . simp [hq]
        . rw [hch.proc q (by simpa using hq)]
      . intro q
        by_cases hq : q = m.current c
        . rw [hq]
          exact fun h => absurd h hunused
        . rw [hch.proc q (by simpa using hq)]
          exact id
  . intro q htouch _
    right
    simp [Leaves, htouches q htouch]

theorem resume (h : Safe m) (hholds : m.Holds c) (hboot : m.pc c ≠ .boot)
    (hprocs : ∀ q ∈ (m.pc c).procs, q = m.current c) (hstate : (m.proc (m.current c)).state = .RUNNING)
    (hfresh : (m.proc (m.current c)).fresh = true → Op.ok true (m.proc (m.current c)).code = true)
    (hsaved : (m.proc (m.current c)).fresh = false → (m.proc (m.current c)).Returns)
    : Safe (m.resume c (m.current c)) := by
  unfold Machine.resume
  split
  . next hnew =>
    apply h.of_own
    . apply Changes.setPc
      apply Changes.setProc (Changes.refl m c)
    . exact hboot
    . exact hprocs
    . simp
    . simp
    . apply LockStep.keep
      . simp
      . apply iff_of_true _ hholds
        simp [Holds]
    . simp only [Local, setPc_pc_self, setPc_current, setProc_current, setPc_proc, setProc_proc_self]
      exact ⟨hstate, hfresh hnew⟩
    . simp
    . simp [hstate]
    . simp [hstate]
  . next hold =>
    rw [Bool.not_eq_true] at hold
    apply h.of_own
    . apply Changes.setPc
      apply Changes.setProc (Changes.refl m c)
    . exact hboot
    . exact hprocs
    . simp
    . simp
    . apply LockStep.keep
      . simp
      . apply iff_of_true _ hholds
        simp [Holds, Pc.inside]
    . simp only [Local, setPc_pc_self, setPc_current, setProc_current, setPc_proc, setProc_proc_self]
      exact ⟨hstate, hsaved hold⟩
    . simp
    . simp [hstate]
    . simp [hstate]

theorem step_load (h : Safe m) (hpc : m.pc c = .load p) : Safe (m.step c rsp) := by
  have hlocal := h.here c
  unfold Local at hlocal
  rw [hpc] at hlocal
  rcases hlocal with ⟨hcurrent, hstate, hready, _⟩
  unfold step
  rw [hpc]
  dsimp only
  rw [← hcurrent]
  apply h.resume
  . exact Or.inl (by simp [hpc, Pc.inside])
  . simp [hpc]
  . simp [hpc, Pc.procs, hcurrent]
  . exact hstate
  . intro hfresh
    have hcode := hready.2
    rw [if_pos hfresh] at hcode
    exact hcode.1
  . intro hfresh
    have hcode := hready.2
    rw [if_neg (by simp [hfresh])] at hcode
    exact hcode

theorem startLoad (h : Safe m) (hholds : m.Holds c) (hboot : m.pc c ≠ .boot)
    (hprocs : ∀ q ∈ (m.pc c).procs, q = m.current c) (hstate : (m.proc (m.current c)).state = .RUNNING)
    (hfresh : (m.proc (m.current c)).fresh = true → Op.ok true (m.proc (m.current c)).code = true)
    (hsaved : (m.proc (m.current c)).fresh = false →
      (m.setProc (m.current c) fun proc => { proc with code := [], interrupted := .thread }).Local c)
    : Safe (m.startLoad c (m.current c)) := by
  cases hold : (m.proc (m.current c)).fresh with
  | true =>
    rw [startLoad_of_fresh hold]
    apply h.resume hholds hboot hprocs hstate hfresh
    simp [hold]
  | false =>
    rw [startLoad_of_saved hold]
    have hcode : Safe (m.setProc (m.current c) fun proc => { proc with code := [], interrupted := .thread }) := by
      apply h.of_own
      . apply Changes.setProc (Changes.refl m c)
      . exact hboot
      . exact hprocs
      . exact hboot
      . simp
      . apply LockStep.keep
        . simp
        . simp [Holds]
      . exact hsaved hold
      . simp
      . simp
      . simp [hstate]
    apply hcode.resume
    . simpa [Holds] using hholds
    . exact hboot
    . exact hprocs
    . simp [hstate]
    . simp [hold]
    . intro _
      simp [Proc.Returns, Op.ok]

theorem step_startLoad (h : Safe m) (hpc : m.pc c = .startLoad p) : Safe (m.step c rsp) := by
  have hlocal := h.here c
  unfold Local at hlocal
  rw [hpc] at hlocal
  rcases hlocal with ⟨hcurrent, hstate, hwindow, hstarts⟩
  unfold step
  rw [hpc]
  dsimp only
  rw [← hcurrent]
  apply h.startLoad
  . exact Or.inl (by simp [hpc, Pc.inside])
  . simp [hpc]
  . simp [hpc, Pc.procs, hcurrent]
  . exact hstate
  . exact fun hfresh => (hstarts hfresh).1
  . intro hold
    simp only [Local, setProc_pc, hpc, setProc_current, setProc_proc_self]
    exact ⟨hcurrent, hstate, hwindow, by simp [hold]⟩

theorem step_r (h : Safe m) (hpc : m.pc c = .r) : Safe (m.step c rsp) := by
  have hlocal := h.here c
  unfold Local at hlocal
  rw [hpc] at hlocal
  rcases hlocal with ⟨hstate, hreturns⟩
  have hlock := (h.lock c).mpr (Or.inl (by simp [hpc, Pc.inside]))
  have hback := hreturns.interrupted
  unfold step
  rw [hpc]
  apply h.of_own
  . apply Changes.lock
    apply Changes.setPc
    apply Changes.setProc (Changes.refl m c)
  . simp [hpc]
  . simp [hpc, Pc.procs]
  . rcases hback with heq | heq <;> simp [heq, Place.pc]
  . simp
  . apply LockStep.give hlock
    . simp
    . rcases hback with heq | heq <;> simp [Holds, heq, Pc.inside, Place.pc]
  . unfold Proc.Returns at hreturns
    simp only [Local, release_pc, setPc_pc_self, release_current, setPc_current, setProc_current,
      release_proc, setPc_proc, setProc_proc_self]
    rcases hback with heq | heq
    . rw [heq] at hreturns ⊢
      exact ⟨hstate, hreturns⟩
    . rw [heq] at hreturns ⊢
      exact ⟨rfl, by simp [hstate], trivial, hreturns⟩
  . simp
  . simp [hstate]
  . simp [hstate]

theorem acquire (h : Safe m) {pc : Pc} (hboot : m.pc c ≠ .boot) (hpc : pc.inside = true)
    (hprocs : ∀ q ∈ (m.pc c).procs, q = m.current c)
    (hstate : (m.proc (m.current c)).state ≠ .RUNNABLE)
    (hlocal : m.lock = none → ({ m with lock := some c }.setPc c pc).Local c)
    : Safe (m.acquire c fun m => m.setPc c pc) := by
  unfold Machine.acquire
  split
  . exact h
  . next hlock =>
    apply h.of_own
    . apply Changes.setPc
      apply Changes.lock
      exact (Changes.refl m c).mono (List.nil_subset _)
    . exact hboot
    . exact hprocs
    . rw [setPc_pc_self]
      intro heq
      rw [heq] at hpc
      cases hpc
    . simp
    . apply LockStep.take hlock
      . simp
      . exact Or.inl (by simp [hpc])
    . exact hlocal hlock
    . simp
    . exact id
    . intro hrun
      exact absurd hrun hstate

theorem step_acq (h : Safe m) (hpc : m.pc c = .acq) : Safe (m.step c rsp) := by
  have hlocal := h.here c
  unfold Local at hlocal
  rw [hpc] at hlocal
  unfold step
  rw [hpc]
  apply h.acquire
  . simp [hpc]
  . simp [Pc.inside]
  . simp [hpc, Pc.procs]
  . exact hlocal.1.ne_runnable
  . intro hlock
    -- the lock is free, so the process has called `r`
    have hwindow : (m.proc (m.current c)).window = false := by
      have hnot : ¬ m.Holds c := by
        rw [← h.lock, hlock]
        simp
      simpa [Holds, hpc, Pc.inside] using hnot
    have hidle : (m.proc (m.current c)).Idle := by
      have hcode := hlocal.2
      split at hcode
      . next hthread =>
        rw [hwindow] at hcode
        refine ⟨hwindow, ?_⟩
        unfold Proc.Returns
        rw [hthread]
        exact hcode
      . exact hcode
    simp only [Local, setPc_pc_self, setPc_current, setPc_proc]
    exact ⟨hlocal.1, hidle⟩

theorem step_startAcq (h : Safe m) (hpc : m.pc c = .startAcq p) : Safe (m.step c rsp) := by
  have hlocal := h.here c
  unfold Local at hlocal
  rw [hpc] at hlocal
  unfold step
  rw [hpc]
  apply h.acquire
  . simp [hpc]
  . simp [Pc.inside]
  . simp [hpc, Pc.procs, hlocal.1]
  . exact hlocal.2.1
  . intro _
    simp only [Local, setPc_pc_self, setPc_current, setPc_proc]
    exact hlocal

theorem step_scan (h : Safe m) (hpc : m.pc c = .scan) : Safe (m.step c rsp) := by
  have hlocal := h.here c
  unfold Local at hlocal
  rw [hpc] at hlocal
  have hinside : (m.pc c).inside = true := by simp [hpc, Pc.inside]
  unfold step
  rw [hpc]
  dsimp only
  split
  . split
    . next hrun =>
      have hmine : Mine m c m.index := Or.inr ⟨hinside, hrun⟩
      apply h.of_own
      . apply Changes.setPc
        exact (Changes.refl m c).mono (List.nil_subset _)
      . simp [hpc]
      . simp [hpc, Pc.procs]
      . simp
      . simp
      . apply LockStep.keep
        . simp
        . apply holds_iff_of_inside hinside
          simp [Pc.inside]
      . simp only [Local, setPc_pc_self, setPc_current, setPc_proc]
        refine ⟨hlocal.1, hlocal.2, hrun, ?_⟩
        intro hne
        -- no CPU has to do with a process that waits to be resumed
        have hfree : ∀ c', ¬ m.Touches c' m.index := by
          intro c' htouch
          by_cases hc : c' = c
          . subst hc
            rcases htouch.2 with heq | hmem
            . exact hne heq.symm
            . simp [hpc, Pc.procs] at hmem
          . exact h.not_touches hmine hc htouch
        refine ⟨h.ready _ hfree, ?_⟩
        rcases h.saved _ hrun with hsaved | ⟨c', hleaves⟩
        . exact hsaved
        . exact absurd hleaves.touches (hfree c')
      . simp
      . exact id
      . intro _
        right
        simp [Leaves]
    . exact ⟨h.lock, h.unique, h.here, h.ready, h.pid, h.saved⟩
  . exact ⟨h.lock, h.unique, h.here, h.ready, h.pid, h.saved⟩

theorem step_found (h : Safe m) (hpc : m.pc c = .found p) : Safe (m.step c rsp) := by
  have hlocal := h.here c
  unfold Local at hlocal
  rw [hpc] at hlocal
  rcases hlocal with ⟨hstate, hidle, hrun, hready⟩
  have hinside : (m.pc c).inside = true := by simp [hpc, Pc.inside]
  have htouches : ∀ q, m.Touches c q → q = m.current c ∨ q = p := by
    intro q hq
    rcases hq.2 with heq | hmem
    . exact Or.inl heq.symm
    . rw [hpc] at hmem
      exact Or.inr (List.mem_singleton.mp hmem)
  unfold step
  rw [hpc]
  dsimp only
  apply h.of_changes
  . apply Changes.setPc
    apply Changes.set_current_proc (Changes.refl m c)
  . simp
  . apply LockStep.keep
    . simp
    . apply holds_iff_of_inside hinside
      simp [Pc.inside]
  . simp only [setPc_current, set_current_proc_current_self]
    exact h.current_ne (Or.inr ⟨hinside, hrun⟩)
  . simp only [Local, setPc_pc_self, setPc_current, set_current_proc_current_self, setPc_proc,
      set_current_proc_proc]
    exact ⟨trivial, hrun, hstate, hidle, hready⟩
  . intro q htouch hnot
    exfalso
    apply hnot
    refine ⟨by simp, ?_⟩
    rcases htouches q htouch with heq | heq
    . right
      simp [Pc.procs, heq]
    . left
      simp [heq]
  . exact h.pid
  . intro q htouch _
    rcases htouches q htouch with heq | heq
    . right
      simp [Leaves, heq]
    . by_cases hp : p = m.current c
      . right
        simp [Leaves, heq, hp]
      . left
        rw [heq]
        exact (hready hp).2

theorem step_save {prev : Nat} (h : Safe m) (hpc : m.pc c = .save prev p) : Safe (m.step c rsp) := by
  have hlocal := h.here c
  unfold Local at hlocal
  rw [hpc] at hlocal
  rcases hlocal with ⟨hcurrent, hstate, hne, hprev, hidle, hready, hsaved⟩
  rw [hcurrent] at hstate hready hsaved
  have hinside : (m.pc c).inside = true := by simp [hpc, Pc.inside]
  unfold step
  rw [hpc]
  dsimp only
  have hch : Changes m ((m.setProc prev fun proc =>
      { proc with stack := rsp, fresh := false, saved := true }).setPc c (.load p)) c [prev] := by
    apply Changes.setPc
    apply Changes.setProc (Changes.refl m c)
  apply h.of_changes hch
  . intro q hq
    rw [List.mem_singleton.mp hq]
    exact ⟨Or.inr ⟨hinside, hprev⟩, by simp [hpc], Or.inr (by simp [hpc, Pc.procs])⟩
  . apply LockStep.keep
    . simp
    . apply holds_iff_of_inside hinside
      simp [Pc.inside]
  . simp only [setPc_current, setProc_current]
    exact h.current_ne (Or.inl ⟨by simp [hpc], rfl⟩)
  . simp only [Local, setPc_pc_self, setPc_current, setProc_current, setPc_proc, hcurrent,
      setProc_proc_of_ne hne]
    exact ⟨trivial, hstate, hready, hsaved⟩
  . intro q htouch hnot
    rcases htouch.2 with heq | hmem
    . exfalso
      apply hnot
      exact ⟨by simp, Or.inl heq⟩
    . simp only [hpc, Pc.procs, List.mem_cons, List.not_mem_nil, or_false] at hmem
      rcases hmem with heq | heq
      . rw [heq]
        simp only [setPc_proc, setProc_proc_self]
        apply Proc.Ready.of_idle _ rfl
        refine ⟨hidle.1, ?_⟩
        have hreturns := hidle.2
        unfold Proc.Returns at hreturns ⊢
        dsimp only
        rcases hidle.2.interrupted with hback | hback
        . rw [hback] at hreturns ⊢
          exact hreturns
        . rw [hback]
          simp
      . exfalso
        apply hnot
        exact ⟨by simp, Or.inl (hcurrent.trans heq.symm)⟩
  . apply h.pid_of_eq
    . intro q
      by_cases hq : q = prev
      . simp [hq]
      . rw [hch.proc q (by simpa using hq)]
    . intro q
      by_cases hq : q = prev
      . simp [hq]
      . rw [hch.proc q (by simpa using hq)]
        exact id
  . intro q htouch hrun
    left
    by_cases hq : q = prev
    . simp [hq]
    . have heq : q = p := by
        rcases htouch.2 with heq | hmem
        . exact heq.symm.trans hcurrent
        . simpa [hpc, Pc.procs, hq] using hmem
      rw [hch.proc q (by simpa using hq), heq]
      exact hsaved

theorem step_run {prev : Nat} (h : Safe m) (hpc : m.pc c = .run prev p) : Safe (m.step c rsp) := by
  have hlocal := h.here c
  unfold Local at hlocal
  rw [hpc] at hlocal
  rcases hlocal with ⟨hcurrent, hstate, hprev, hidle, hready⟩
  rw [hcurrent] at hstate hready
  have hinside : (m.pc c).inside = true := by simp [hpc, Pc.inside]
  have hch : ∀ pc, Changes m ((m.setProc p fun proc => { proc with state := .RUNNING }).setPc c pc) c
      [p] := by
    intro pc
    apply Changes.setPc
    apply Changes.setProc (Changes.refl m c)
  have hpids : ∀ q, ((m.setProc p fun proc => { proc with state := .RUNNING }).proc q).pid =
      (m.proc q).pid := by
    intro q
    by_cases hq : q = p
    . rw [hq, setProc_proc_self]
    . rw [setProc_proc_of_ne hq]
  unfold step
  rw [hpc]
  dsimp only
  rw [hpids, hpids]
  split
  . next hpid =>
    have hne : p ≠ prev := by
      intro heq
      rw [heq] at hpid
      exact hpid rfl
    apply h.of_changes (hch _)
    . intro q hq
      rw [List.mem_singleton.mp hq]
      exact ⟨Or.inl ⟨by simp [hpc], hcurrent⟩, by simp [hpc], Or.inl hcurrent⟩
    . apply LockStep.keep
      . simp
      . apply holds_iff_of_inside hinside
        simp [Pc.inside]
    . simp only [setPc_current, setProc_current]
      exact h.current_ne (Or.inl ⟨by simp [hpc], rfl⟩)
    . simp only [Local, setPc_pc_self, setPc_current, setProc_current, setPc_proc, hcurrent,
        setProc_proc_self, setProc_proc_of_ne (Ne.symm hne)]
      exact ⟨trivial, trivial, hne, hprev, hidle, (hready hne).1, (hready hne).2⟩
    . intro q htouch hnot
      exfalso
      apply hnot
      refine ⟨by simp, ?_⟩
      rcases htouch.2 with heq | hmem
      . exact Or.inl heq
      . right
        rw [hpc] at hmem
        rw [setPc_pc_self]
        exact hmem
    . apply h.pid_of_eq hpids
      intro q hunused
      by_cases hq : q = p
      . rw [hq, hstate] at hunused
        cases hunused
      . rw [setProc_proc_of_ne hq]
        exact hunused
    . intro q htouch hrun
      right
      by_cases hq : q = p
      . rw [hq, setPc_proc, setProc_proc_self] at hrun
        cases hrun
      . rcases htouch.2 with heq | hmem
        . exact absurd (heq.symm.trans hcurrent) hq
        . have heq : q = prev := by
            simpa [hpc, Pc.procs, hq] using hmem
          simp [Leaves, heq]
  . next hpid =>
    -- the process that was interrupted is the one that goes on
    have heq : prev = p := by
      apply h.pid prev p
      . simp [hprev]
      . simp [hstate]
      . simpa using hpid
    apply h.of_own
    . rw [hcurrent]
      exact hch _
    . simp [hpc]
    . simp [hpc, Pc.procs, heq, hcurrent]
    . simp
    . simp
    . apply LockStep.keep
      . simp
      . apply holds_iff_of_inside hinside
        simp [Pc.inside]
    . simp only [Local, setPc_pc_self, setPc_current, setProc_current, setPc_proc, hcurrent,
        setProc_proc_self]
      rw [heq] at hidle
      exact ⟨trivial, hidle.2⟩
    . rw [setPc_proc, hpids]
    . rw [hcurrent, hstate]
      intro hunused
      cases hunused
    . rw [hcurrent, setPc_proc, setProc_proc_self]
      intro hrun
      cases hrun

theorem step_startRun (h : Safe m) (hpc : m.pc c = .startRun p)
    (hpid : ∀ q, q ≠ p → (m.proc q).state ≠ .UNUSED → (m.proc q).pid ≠ (m.proc p).pid)
    : Safe (m.step c rsp) := by
  have hlocal := h.here c
  unfold Local at hlocal
  rw [hpc] at hlocal
  rcases hlocal with ⟨hcurrent, _, hwindow, hstarts⟩
  have hinside : (m.pc c).inside = true := by simp [hpc, Pc.inside]
  have htouches : ∀ q, m.Touches c q → q = p := by
    intro q htouch
    rcases htouch.2 with heq | hmem
    . exact heq.symm.trans hcurrent
    . rw [hpc] at hmem
      exact List.mem_singleton.mp hmem
  unfold step
  rw [hpc]
  dsimp only
  have hch : Changes m (((m.set_current_proc c p).setProc p fun proc =>
      { proc with state := .RUNNING }).setPc c (.startLoad p)) c [p] := by
    apply Changes.setPc
    apply Changes.setProc
    apply Changes.set_current_proc (Changes.refl m c)
  apply h.of_changes hch
  . intro q hq
    rw [List.mem_singleton.mp hq]
    exact ⟨Or.inl ⟨by simp [hpc], hcurrent⟩, by simp [hpc], Or.inl hcurrent⟩
  . apply LockStep.keep
    . simp
    . apply holds_iff_of_inside hinside
      simp [Pc.inside]
  . simp only [setPc_current, setProc_current, set_current_proc_current_self]
    exact h.current_ne (Or.inl ⟨by simp [hpc], hcurrent⟩)
  . rw [hcurrent] at hwindow hstarts
    simp only [Local, setPc_pc_self, setPc_current, setProc_current, set_current_proc_current_self,
      setPc_proc, setProc_proc_self, set_current_proc_proc]
    exact ⟨trivial, trivial, hwindow, hstarts⟩
  . intro q htouch hnot
    exfalso
    apply hnot
    exact ⟨by simp, Or.inl (by simp [htouches q htouch])⟩
  . exact h.pid_of_start hch.proc (by simp) hpid
  . intro q htouch hrun
    rw [htouches q htouch] at hrun
    simp at hrun

omit [DecidableEq Cpu] in
theorem setCode (h : Safe m) {f : Proc → Proc} (hpc : m.pc c = .thread)
    (hstate : ∀ proc, (f proc).state = proc.state) (hpid : ∀ proc, (f proc).pid = proc.pid)
    (hwindow : ∀ proc, (f proc).window = proc.window)
    (hcode : Op.ok (m.proc (m.current c)).window (f (m.proc (m.current c))).code = true)
    : Safe (m.setProc (m.current c) f) := by
  have hlocal := h.here c
  unfold Local at hlocal
  rw [hpc] at hlocal
  apply h.of_own
  . apply Changes.setProc (Changes.refl m c)
  . simp [hpc]
  . simp [hpc, Pc.procs]
  . simp [hpc]
  . simp
  . apply LockStep.keep
    . simp
    . simp [Holds, hwindow]
  . simp only [Local, setProc_pc, hpc, setProc_current, setProc_proc_self, hstate, hwindow]
    exact ⟨hlocal.1, hcode⟩
  . simp [hpid]
  . simp [hstate]
  . simp [hstate, hlocal.1]

theorem step_thread (h : Safe m) (hpc : m.pc c = .thread) : Safe (m.step c rsp) := by
  have hlocal := h.here c
  unfold Local at hlocal
  rw [hpc] at hlocal
  rcases hlocal with ⟨hstate, hok⟩
  unfold step
  rw [hpc]
  dsimp only
  unfold threadStep
  split
  . exact h
  . next code hcode =>
    rw [hcode] at hok
    apply h.setCode hpc
    . simp
    . simp
    . simp
    . exact hok
  . next code hcode =>
    rw [hcode] at hok
    simp only [Op.ok, Bool.and_eq_true] at hok
    have hlock := (h.lock c).mpr (Or.inr ⟨Or.inl hpc, hok.1⟩)
    apply h.of_own
    . apply Changes.lock
      apply Changes.setProc (Changes.refl m c)
    . simp [hpc]
    . simp [hpc, Pc.procs]
    . simp [hpc]
    . simp
    . apply LockStep.give hlock
      . simp
      . simp [Holds, hpc, Pc.inside]
    . simp only [Local, release_pc, setProc_pc, hpc, release_current, setProc_current, release_proc,
        setProc_proc_self]
      exact ⟨hstate, hok.2⟩
    . simp
    . simp [hstate]
    . simp [hstate]
  . next regs code hcode =>
    apply h.setCode hpc
    . simp
    . simp
    . simp
    . simp [Op.ok]
  . next code hcode =>
    rw [hcode] at hok
    unfold Machine.acquire
    split
    . exact h
    . next hlock =>
      apply h.of_own
      . apply Changes.setProc (Changes.lock (Changes.refl m c) _)
      . simp [hpc]
      . simp [hpc, Pc.procs]
      . simp [hpc]
      . simp
      . apply LockStep.take hlock
        . simp
        . simp [Holds, hpc]
      . simp only [Local, setProc_pc, hpc, setProc_current, setProc_proc_self]
        exact ⟨hstate, hok⟩
      . simp
      . simp [hstate]
      . simp [hstate]
  . next code hcode =>
    rw [hcode] at hok
    have hwindow : (m.proc (m.current c)).window = true := hok
    -- `startproc` for the process that calls `exec`
    have hcode' : Safe (m.setProc (m.current c) fun proc => { proc with state := .RUNNING, code := [] }) := by
      apply h.of_own
      . apply Changes.setProc (Changes.refl m c)
      . simp [hpc]
      . simp [hpc, Pc.procs]
      . simp [hpc]
      . simp
      . apply LockStep.keep
        . simp
        . simp [Holds]
      . simp only [Local, setProc_pc, hpc, setProc_current, setProc_proc_self]
        exact ⟨trivial, rfl⟩
      . simp
      . simp [hstate]
      . simp
    apply hcode'.startLoad
    . simp [Holds, hpc, hwindow]
    . simp [hpc]
    . simp [hpc, Pc.procs]
    . simp
    . simp [Op.ok]
    . intro _
      simp only [Local, setProc_pc, hpc, setProc_current, setProc_proc_self]
      exact ⟨trivial, rfl⟩

theorem step (h : Safe m) (hproper : ∀ p, m.Starts c p → ∀ q, q ≠ p →
    (m.proc q).state ≠ .UNUSED → (m.proc q).pid ≠ (m.proc p).pid) : Safe (m.step c rsp) := by
  cases hpc : m.pc c with
  | boot =>
    unfold Machine.step
    rw [hpc]
    exact h
  | thread => exact h.step_thread hpc
  | acq => exact h.step_acq hpc
  | mark => exact h.step_mark hpc (fun hunused => hproper _ (Or.inr ⟨hpc, rfl, hunused⟩))
  | scan => exact h.step_scan hpc
  | found p => exact h.step_found hpc
  | run prev p => exact h.step_run hpc
  | save prev p => exact h.step_save hpc
  | load p => exact h.step_load hpc
  | r => exact h.step_r hpc
  | startAcq p => exact h.step_startAcq hpc
  | startRun p => exact h.step_startRun hpc (hproper p (Or.inl hpc))
  | startLoad p => exact h.step_startLoad hpc

theorem tick (h : Safe m) (hpc : ∀ p, m.pc c ≠ .startRun p ∧ m.pc c ≠ .startLoad p) : Safe (m.tick c) := by
  rcases m.tick_cases c with heq | ⟨place, p, hat, heq⟩
  . rw [heq]
    exact h
  . rw [heq]
    have hlocal := h.here c
    unfold Local at hlocal
    have hown : Changes m (m.interrupt c place) c [m.current c] :=
      Changes.setPc (Changes.setProc (Changes.refl m c)) .acq
    cases place with
    | thread =>
      change m.pc c = .thread at hat
      rw [hat] at hlocal
      apply h.of_own hown
      . simp [hat]
      . simp [hat, Pc.procs]
      . simp
      . simp
      . apply LockStep.keep
        . simp
        . simp [Holds, hat, Pc.inside, Machine.interrupt]
      . simp only [Local, Machine.interrupt, setPc_pc_self, setPc_current, setProc_current, setPc_proc, setProc_proc_self]
        exact ⟨Or.inl hlocal.1, by simpa using hlocal.2⟩
      . simp [Machine.interrupt]
      . simp [Machine.interrupt]
      . simp [Machine.interrupt, hlocal.1]
    | startAcq =>
      change m.pc c = .startAcq p at hat
      rw [hat] at hlocal
      rcases hlocal with ⟨hcurrent, hstate, hwindow, hstarts⟩
      apply h.of_own hown
      . simp [hat]
      . simp [hat, Pc.procs, hcurrent]
      . simp
      . simp
      . apply LockStep.keep
        . simp
        . simp [Holds, hat, Pc.inside, Machine.interrupt, hwindow]
      . simp only [Local, Machine.interrupt, setPc_pc_self, setPc_current, setProc_current, setPc_proc,
          setProc_proc_self]
        refine ⟨?_, ?_⟩
        . unfold Proc.Runs
          dsimp only
          cases hstate' : (m.proc (m.current c)).state with
          | UNUSED => exact Or.inr ⟨rfl, by simp⟩
          | RUNNABLE => exact absurd hstate' hstate
          | RUNNING => exact Or.inl rfl
        . rw [if_neg (by simp)]
          exact ⟨hwindow, hstarts⟩
      . simp [Machine.interrupt]
      . simp [Machine.interrupt]
      . simp [Machine.interrupt, hstate]
    | startRun => exact absurd hat (hpc p).1
    | startLoad => exact absurd hat (hpc p).2

theorem init_proc (h : Safe m) {i : Nat} (hstate : (m.proc i).state = .UNUSED)
    (hcurrent : ∀ c', m.pc c' ≠ .boot → m.current c' ≠ i) : Safe (m.init_proc c i) := by
  unfold Machine.init_proc
  split
  . next hpc =>
    have hnot : ∀ q, ¬ m.Touches c q := by
      intro q htouch
      exact htouch.1 hpc
    apply h.of_changes
    . apply Changes.setPc
      apply Changes.set_current_proc (Changes.refl m c)
    . simp
    . apply LockStep.keep
      . simp
      . simp [Holds, hpc, Pc.inside]
    . intro c' _ hb
      simpa using hcurrent c' hb
    . simp only [Local, setPc_pc_self, setPc_current, set_current_proc_current_self, setPc_proc,
        set_current_proc_proc]
      have hready : (m.proc i).Ready := by
        apply h.ready
        intro c' htouch
        apply hcurrent c' htouch.1
        by_contra hne
        have hrun := (h.runnable_of_mem (htouch.2.resolve_left hne) hne).2
        rw [hstate] at hrun
        cases hrun
      refine ⟨trivial, by simp [hstate], hready.1, ?_⟩
      intro hfresh
      have hcode := hready.2
      rwa [if_pos hfresh] at hcode
    . intro q htouch
      exact absurd htouch (hnot q)
    . exact h.pid
    . intro q htouch
      exact absurd htouch (hnot q)
  . exact h

omit [DecidableEq Cpu] in
theorem setProc_newproc (h : Safe m) (hstate : (m.proc p).state = .UNUSED) (pid : BitVec 32)
    (entry : Entry) (page : Vmm.Addr) : Safe (m.setProc p fun proc => newproc proc pid entry page) := by
  have hentry := entry.ok
  rw [Bool.and_eq_true] at hentry
  have hready : ∀ proc : Proc, proc.Ready → (newproc proc pid entry page).Ready := by
    intro proc hproc
    exact ⟨hproc.1, hentry.1, hentry.2⟩
  have hstates : ∀ q, ((m.setProc p fun proc => newproc proc pid entry page).proc q).state =
      (m.proc q).state := by
    intro q
    by_cases hq : q = p
    . rw [hq, setProc_proc_self]
      rfl
    . rw [setProc_proc_of_ne hq]
  constructor
  case lock =>
    intro c
    unfold Holds
    simp only [setProc_lock, setProc_pc, setProc_current]
    rw [h.lock c]
    unfold Holds
    by_cases hc : m.current c = p
    . rw [hc, setProc_proc_self]
      rfl
    . rw [setProc_proc_of_ne hc]
  case unique => exact h.unique
  case here =>
    intro c
    by_cases htouch : m.Touches c p
    . -- the process is about to be started
      have hcurrent : m.current c = p := by
        by_contra hne
        have hrun := (h.runnable_of_mem (htouch.2.resolve_left hne) hne).2
        rw [hstate] at hrun
        cases hrun
      have hlocal := h.here c
      unfold Local at hlocal ⊢
      simp only [setProc_pc, setProc_current]
      rw [hcurrent] at hlocal ⊢
      cases hpc : m.pc c with
      | boot => trivial
      | thread | scan | r | found | run | save | load | startLoad =>
        rw [hpc] at hlocal
        simp [hstate] at hlocal
      | acq =>
        rw [hpc] at hlocal
        dsimp only at hlocal ⊢
        have hinterrupted := (hlocal.1.resolve_left (by simp [hstate])).2
        have hidle := hlocal.2
        rw [if_neg hinterrupted] at hidle
        rw [setProc_proc_self]
        refine ⟨Or.inr ⟨hstate, hinterrupted⟩, ?_⟩
        rw [if_neg (show (newproc (m.proc p) pid entry page).interrupted ≠ .thread from hinterrupted)]
        exact hidle.start hinterrupted rfl rfl ⟨hentry.1, hentry.2⟩
      | mark =>
        rw [hpc] at hlocal
        dsimp only at hlocal ⊢
        have hinterrupted := (hlocal.1.resolve_left (by simp [hstate])).2
        rw [setProc_proc_self]
        exact ⟨Or.inr ⟨hstate, hinterrupted⟩, hlocal.2.start hinterrupted rfl rfl ⟨hentry.1, hentry.2⟩⟩
      | startAcq | startRun =>
        rw [hpc] at hlocal
        dsimp only at hlocal ⊢
        rw [setProc_proc_self]
        exact ⟨hlocal.1, hlocal.2.1, hlocal.2.2.1, fun _ => ⟨hentry.1, hentry.2⟩⟩
    . apply (h.here c).frame
      . simp
      . simp
      . intro q hq
        apply setProc_proc_of_ne
        intro heq
        rw [heq] at hq
        exact htouch hq
  case ready =>
    intro q hq
    have hold : (m.proc q).Ready := h.ready q hq
    by_cases hqp : q = p
    . subst hqp
      rw [setProc_proc_self]
      exact hready _ hold
    . rw [setProc_proc_of_ne hqp]
      exact hold
  case pid =>
    intro q1 q2 hq1 hq2 heq
    rw [hstates] at hq1 hq2
    have hne : ∀ q, (m.proc q).state ≠ .UNUSED → q ≠ p := by
      intro q hq hqp
      rw [hqp] at hq
      exact hq hstate
    rw [setProc_proc_of_ne (hne q1 hq1), setProc_proc_of_ne (hne q2 hq2)] at heq
    exact h.pid q1 q2 hq1 hq2 heq
  case saved =>
    intro q hrun
    rw [hstates] at hrun
    have hne : q ≠ p := by
      intro hqp
      rw [hqp, hstate] at hrun
      cases hrun
    rw [setProc_proc_of_ne hne]
    exact h.saved q hrun

omit [DecidableEq Cpu] in
theorem allocproc (h : Safe m) {entry : Entry} {page : Vmm.Addr} : Safe (m.allocproc entry page).2 := by
  unfold Machine.allocproc
  split
  . next p _ hget =>
    have hnew := h.setProc_newproc (getproc_state hget) (m.nextpid + 1) entry page
    exact ⟨hnew.lock, hnew.unique, hnew.here, hnew.ready, hnew.pid, hnew.saved⟩
  . exact h

end Safe

/--
A process that is started is not in use yet and has a pid of its own.
-/
def Proper (m : Machine Cpu) : Event Cpu → Prop
  | .init_proc _ i => (m.proc i).state = .UNUSED ∧ ∀ c', m.pc c' ≠ .boot → m.current c' ≠ i
  | .step c _ =>
    ∀ p, m.Starts c p → ∀ q, q ≠ p → (m.proc q).state ≠ .UNUSED → (m.proc q).pid ≠ (m.proc p).pid
  | _ => True

/--
Every CPU that has a process is in the thread of one of its own, the other processes wait to be resumed
with their stacks saved, and at most one of the threads has not called `r` yet. None is in `startproc`.
-/
structure Start (m : Machine Cpu) : Prop where
  pc : ∀ c, m.pc c = .boot ∨ m.pc c = .thread
  state : ∀ c, m.pc c = .thread → (m.proc (m.current c)).state = .RUNNING
  unique : ∀ c c', m.pc c = .thread → m.pc c' = .thread → m.current c = m.current c' → c = c'
  pid : ∀ p q, (m.proc p).state ≠ .UNUSED → (m.proc q).state ≠ .UNUSED →
    (m.proc p).pid = (m.proc q).pid → p = q
  lock : ∀ c, m.lock = some c ↔ m.pc c = .thread ∧ (m.proc (m.current c)).window = true
  code : ∀ c, m.pc c = .thread →
    Op.ok (m.proc (m.current c)).window (m.proc (m.current c)).code = true
  ready : ∀ q, (∀ c, m.pc c = .thread → m.current c ≠ q) →
    (m.proc q).Ready ∧ ((m.proc q).state = .RUNNABLE → (m.proc q).saved = true)
  interrupted : ∀ q, (m.proc q).interrupted = .thread

omit [DecidableEq Cpu] in
theorem Start.safe (h : Start m) : Safe m := by
  have hthread : ∀ c, m.pc c ≠ .boot → m.pc c = .thread := by
    intro c hc
    exact (h.pc c).resolve_left hc
  constructor
  case lock =>
    intro c
    rw [h.lock]
    rcases h.pc c with hpc | hpc
    . simp [Holds, hpc, Pc.inside]
    . simp [Holds, hpc, Pc.inside]
  case unique =>
    intro c c' hc hc' heq
    exact h.unique c c' (hthread c hc) (hthread c' hc') heq
  case here =>
    intro c
    rcases h.pc c with hpc | hpc
    . simp only [Local, hpc]
    . simp only [Local, hpc]
      exact ⟨h.state c hpc, h.code c hpc⟩
  case ready =>
    intro q hq
    apply (h.ready q _).1
    intro c hpc heq
    exact hq c ⟨by simp [hpc], Or.inl heq⟩
  case pid => exact h.pid
  case saved =>
    intro q hrun
    left
    apply (h.ready q _).2 hrun
    intro c hpc heq
    rw [← heq, h.state c hpc] at hrun
    cases hrun

end Machine

end Sched
end Franklin
