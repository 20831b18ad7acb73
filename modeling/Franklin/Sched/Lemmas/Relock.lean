import Franklin.Sched.Lemmas.Alloc
import Franklin.Sched.Lemmas.Handover

/-!
This module contains when a CPU waits for `ptable.lock` while it holds the lock itself. The lock is taken
before a thread begins and given back by the call of `r` in the thread, and interrupts are enabled all that time.
-/

namespace Franklin
namespace Sched

def Op.Shape (code : List Op) : Prop :=
  code.all isCall = true ∨ code = [acq, switc] ∨ code = [switc]

theorem Op.Shape.tail {op : Op} {code : List Op} (hop : op.isCall = true) (h : Shape (op :: code))
    : code.all isCall = true := by
  rcases h with h | h | h
  . rw [List.all_cons, Bool.and_eq_true] at h
    exact h.2
  . cases h
    cases hop
  . cases h
    cases hop

theorem Op.head_ne_acq {code : List Op} (h : code.all isCall = true) : code.head? ≠ some acq := by
  cases code with
  | nil => simp
  | cons op code =>
    rw [List.all_cons, Bool.and_eq_true] at h
    intro heq
    rw [List.head?_cons, Option.some.injEq] at heq
    rw [heq] at h
    cases h.1

namespace Machine

variable {Cpu : Type} {m m' : Machine Cpu} {c c' : Cpu} {p q : Nat} {rsp : Vmm.Addr}

def Acquires (m : Machine Cpu) (c : Cpu) : Prop :=
  m.pc c = .acq ∨ (∃ p, m.pc c = .startAcq p) ∨
    m.pc c = .thread ∧ (m.proc (m.current c)).code.head? = some .acq

def Relocks (m : Machine Cpu) (c : Cpu) : Prop :=
  m.lock = some c ∧ m.Acquires c

/--
The timer does not interrupt `startproc` behind its `acq`. It does not interrupt a thread, and no thread calls `exec`,
from the entry point, or the `acq` of `exec`, to the end of `r`.
-/
def Timely (m : Machine Cpu) : Event Cpu → Prop
  | .tick c =>
    (m.pc c = .thread → (m.proc (m.current c)).window = false) ∧
      ∀ p, m.pc c ≠ .startRun p ∧ m.pc c ≠ .startLoad p
  | .step c _ =>
    m.pc c = .thread → ∀ regs code, (m.proc (m.current c)).code = .exec regs :: code →
      (m.proc (m.current c)).window = false
  | _ => True

/--
`startproc` loads the stack that `allocproc` has made, and not one that `scheduler` has saved since.
-/
def Unused (m : Machine Cpu) : Event Cpu → Prop
  | .step c _ =>
    (m.pc c = .startLoad (m.current c) ∨ m.pc c = .thread ∧ (m.proc (m.current c)).code.head? = some .switc) →
      (m.proc (m.current c)).fresh = true
  | _ => True

structure Calm (m : Machine Cpu) : Prop where
  shape : ∀ q, Op.Shape (m.proc q).code
  acq : ∀ c, m.pc c = .acq → (m.proc (m.current c)).window = false
  exec : ∀ c, m.pc c = .thread → (m.proc (m.current c)).code.head? = some .acq →
    (m.proc (m.current c)).window = false

theorem Calm.not_relocks (h : Calm m) (hsafe : Safe m) (c : Cpu) : ¬ m.Relocks c := by
  rintro ⟨hlock, hacq⟩
  have hholds := (hsafe.lock c).mp hlock
  unfold Holds at hholds
  rcases hacq with hpc | ⟨p, hpc⟩ | ⟨hpc, hcode⟩
  . rw [hpc, h.acq c hpc] at hholds
    simp [Pc.inside] at hholds
  . rw [hpc] at hholds
    simp [Pc.inside] at hholds
  . rw [hpc, h.exec c hpc hcode] at hholds
    simp [Pc.inside] at hholds

theorem Safe.not_touches_of_touches (h : Safe m) (hq : m.Touches c q) (hne : c' ≠ c)
    : ¬ m.Touches c' q := by
  apply h.not_touches _ hne
  by_cases hcur : m.current c = q
  . exact Or.inl ⟨hq.1, hcur⟩
  . exact Or.inr (h.runnable_of_mem (hq.2.resolve_left hcur) hcur)

theorem setProc_code {f : Proc → Proc} (hf : ∀ proc, (f proc).code = proc.code) (q : Nat)
    : ((m.setProc p f).proc q).code = (m.proc q).code := by
  by_cases hq : q = p
  . rw [hq, setProc_proc_self]
    exact hf _
  . rw [setProc_proc_of_ne hq]

theorem setProc_shape {f : Proc → Proc} (h : ∀ q, Op.Shape (m.proc q).code)
    (hf : Op.Shape (f (m.proc p)).code) (q : Nat) : Op.Shape ((m.setProc p f).proc q).code := by
  by_cases hq : q = p
  . rw [hq, setProc_proc_self]
    exact hf
  . rw [setProc_proc_of_ne hq]
    exact h q

variable [DecidableEq Cpu]

theorem resume_code (q : Nat) : ((m.resume c p).proc q).code = (m.proc q).code := by
  unfold resume
  split
  . rw [setPc_proc]
    apply setProc_code
    intro proc
    rfl
  . rw [setPc_proc]
    apply setProc_code
    intro proc
    rfl

theorem startLoad_code
    : ((m.startLoad c p).proc p).code = if (m.proc p).fresh then (m.proc p).code else [] := by
  unfold startLoad
  rw [resume_code, setProc_proc_self]
  split
  . rfl
  . rfl

theorem startLoad_shape (h : ∀ q, Op.Shape (m.proc q).code) (q : Nat)
    : Op.Shape ((m.startLoad c p).proc q).code := by
  unfold startLoad
  rw [resume_code]
  apply setProc_shape h
  split
  . exact h p
  . exact Or.inl rfl

theorem threadStep_shape (h : ∀ q, Op.Shape (m.proc q).code) (q : Nat)
    : Op.Shape ((m.threadStep c p).proc q).code := by
  have hp := h p
  unfold threadStep
  split
  . exact h q
  . next code hcode =>
    rw [hcode] at hp
    apply setProc_shape h
    exact Or.inl (hp.tail rfl)
  . next code hcode =>
    rw [hcode] at hp
    rw [release_proc]
    apply setProc_shape h
    exact Or.inl (hp.tail rfl)
  . next regs code hcode =>
    apply setProc_shape h
    exact Or.inr (Or.inl rfl)
  . next code hcode =>
    unfold acquire
    split
    . exact h q
    . rw [hcode] at hp
      dsimp only
      apply setProc_shape
      . exact h
      . rcases hp with hp | hp | hp
        . cases hp
        . cases hp
          exact Or.inr (Or.inr rfl)
        . cases hp
  . apply startLoad_shape
    apply setProc_shape h
    exact Or.inl rfl

theorem step_shape (h : ∀ q, Op.Shape (m.proc q).code) (q : Nat)
    : Op.Shape ((m.step c rsp).proc q).code := by
  unfold step
  cases heq : m.pc c with
  | boot | found => exact h q
  | thread => exact threadStep_shape h q
  | acq | startAcq =>
    dsimp only
    unfold acquire
    split
    . exact h q
    . exact h q
  | mark | save | r | startRun =>
    simp only [release_proc, setPc_proc]
    apply setProc_shape
    . exact h
    . apply h
  | scan =>
    dsimp only
    split
    . split
      . exact h q
      . exact h q
    . exact h q
  | run prev p =>
    dsimp only
    split
    . rw [setPc_proc]
      apply setProc_shape h
      apply h
    . rw [setPc_proc]
      apply setProc_shape h
      apply h
  | load =>
    dsimp only
    rw [resume_code]
    exact h q
  | startLoad => exact startLoad_shape h q

theorem Changes.resume {S : List Nat} (h : Changes m m' c S) : Changes m (m'.resume c p) c (p :: S) := by
  unfold Machine.resume
  split
  . apply Changes.setPc
    apply Changes.setProc h
  . apply Changes.setPc
    apply Changes.setProc h

theorem Changes.startLoad {S : List Nat} (h : Changes m m' c S) : Changes m (m'.startLoad c p) c (p :: S) := by
  apply Changes.mono (Changes.resume (Changes.setProc h))
  simp

theorem threadStep_changes : Changes m (m.threadStep c p) c [p] := by
  have hrefl : Changes m m c [p] := (Changes.refl m c).mono (List.nil_subset _)
  unfold threadStep
  split
  . exact hrefl
  . apply Changes.setProc (Changes.refl m c)
  . apply Changes.lock
    apply Changes.setProc (Changes.refl m c)
  . apply Changes.setProc (Changes.refl m c)
  . unfold acquire
    split
    . exact hrefl
    . apply Changes.setProc
      apply Changes.lock (Changes.refl m c)
  . apply Changes.mono (Changes.startLoad (Changes.setProc (Changes.refl m c)))
    simp

variable (m c rsp) in
theorem step_changes : ∃ S, Changes m (m.step c rsp) c S ∧ ∀ q ∈ S, m.Touches c q := by
  have hnil : ∀ q ∈ ([] : List Nat), m.Touches c q := by
    intro q hq
    cases hq
  have hone : ∀ p, m.Touches c p → ∀ q ∈ [p], m.Touches c q := by
    intro p hp q hq
    rw [List.mem_singleton.mp hq]
    exact hp
  unfold step
  cases hpc : m.pc c with
  | boot => exact ⟨[], Changes.refl m c, hnil⟩
  | thread => exact ⟨_, threadStep_changes, hone _ ⟨by simp [hpc], Or.inl rfl⟩⟩
  | acq | startAcq p =>
    refine ⟨[], ?_, hnil⟩
    dsimp only
    unfold acquire
    split
    . exact Changes.refl m c
    . apply Changes.setPc
      apply Changes.lock (Changes.refl m c)
  | mark =>
    refine ⟨_, ?_, hone _ ⟨by simp [hpc], Or.inl rfl⟩⟩
    apply Changes.setPc
    apply Changes.setProc (Changes.refl m c)
  | scan =>
    refine ⟨[], ?_, hnil⟩
    dsimp only
    split
    . split
      . apply Changes.setPc (Changes.refl m c)
      . exact ⟨fun _ _ => rfl, fun _ _ => rfl, fun _ _ => rfl⟩
    . exact ⟨fun _ _ => rfl, fun _ _ => rfl, fun _ _ => rfl⟩
  | found p =>
    refine ⟨[], ?_, hnil⟩
    apply Changes.setPc
    apply Changes.set_current_proc (Changes.refl m c)
  | run prev p =>
    refine ⟨_, ?_, hone p ⟨by simp [hpc], Or.inr (by simp [hpc, Pc.procs])⟩⟩
    dsimp only
    split
    . apply Changes.setPc
      apply Changes.setProc (Changes.refl m c)
    . apply Changes.setPc
      apply Changes.setProc (Changes.refl m c)
  | save prev p =>
    refine ⟨_, ?_, hone prev ⟨by simp [hpc], Or.inr (by simp [hpc, Pc.procs])⟩⟩
    apply Changes.setPc
    apply Changes.setProc (Changes.refl m c)
  | load p =>
    refine ⟨_, ?_, hone p ⟨by simp [hpc], Or.inr (by simp [hpc, Pc.procs])⟩⟩
    apply Changes.resume (Changes.refl m c)
  | startLoad p =>
    refine ⟨_, ?_, hone p ⟨by simp [hpc], Or.inr (by simp [hpc, Pc.procs])⟩⟩
    apply Changes.startLoad (Changes.refl m c)
  | r =>
    refine ⟨_, ?_, hone _ ⟨by simp [hpc], Or.inl rfl⟩⟩
    apply Changes.lock
    apply Changes.setPc
    apply Changes.setProc (Changes.refl m c)
  | startRun p =>
    refine ⟨_, ?_, hone p ⟨by simp [hpc], Or.inr (by simp [hpc, Pc.procs])⟩⟩
    apply Changes.setPc
    apply Changes.setProc
    apply Changes.set_current_proc (Changes.refl m c)

theorem resume_pc : (m.resume c p).pc c = .thread ∨ (m.resume c p).pc c = .r := by
  unfold resume
  split
  . exact Or.inl setPc_pc_self
  . exact Or.inr setPc_pc_self

@[simp]
theorem resume_current : (m.resume c p).current = m.current := by
  unfold resume
  split
  . rfl
  . rfl

@[simp]
theorem startLoad_current : (m.startLoad c p).current = m.current := by
  unfold startLoad
  rw [resume_current]
  rfl

theorem startLoad_pc : (m.startLoad c p).pc c = .thread ∨ (m.startLoad c p).pc c = .r :=
  resume_pc

theorem threadStep_current : (m.threadStep c p).current = m.current := by
  unfold threadStep
  split
  . rfl
  . rfl
  . rfl
  . rfl
  . unfold acquire
    split
    . rfl
    . rfl
  . rw [startLoad_current]
    rfl

theorem resume_fresh (h : (m.resume c p).pc c = .thread) : (m.proc p).fresh = true := by
  unfold resume at h
  split at h
  . next hfresh => exact hfresh
  . rw [setPc_pc_self] at h
    cases h

theorem threadStep_pc (hpc : m.pc c = .thread) : (m.threadStep c p).pc c ≠ .acq := by
  unfold threadStep
  split
  . simp [hpc]
  . simp [hpc]
  . simp [hpc]
  . simp [hpc]
  . unfold acquire
    split
    . simp [hpc]
    . simp [hpc]
  . intro heq
    rcases startLoad_pc (m := m.setProc p fun proc => { proc with state := .RUNNING, code := [] })
      (c := c) (p := p) with h | h
    . rw [heq] at h
      cases h
    . rw [heq] at h
      cases h

theorem step_pc_acq (hsafe : Safe m) (h : (m.step c rsp).pc c = .acq) : m.step c rsp = m := by
  have hlocal := hsafe.here c
  unfold Local at hlocal
  unfold step at h ⊢
  cases hpc : m.pc c with
  | boot => rfl
  | thread =>
    rw [hpc] at h
    exact absurd h (threadStep_pc hpc)
  | acq =>
    rw [hpc] at h
    dsimp only at h ⊢
    unfold acquire at h ⊢
    split
    . rfl
    . next hlock =>
      rw [hlock] at h
      simp at h
  | startAcq p =>
    rw [hpc] at h
    dsimp only at h ⊢
    unfold acquire at h ⊢
    split
    . rfl
    . next hlock =>
      rw [hlock] at h
      simp at h
  | mark | found | save | startRun =>
    rw [hpc] at h
    simp at h
  | r =>
    rw [hpc] at h hlocal
    rcases hlocal.2.interrupted with hback | hback <;> simp [hback, Place.pc] at h
  | scan =>
    rw [hpc] at h
    dsimp only at h
    split at h
    . split at h
      . simp at h
      . simp [hpc] at h
    . simp [hpc] at h
  | run prev p =>
    rw [hpc] at h
    dsimp only at h
    split at h
    . simp at h
    . simp at h
  | load p =>
    rw [hpc] at h
    dsimp only at h
    rcases resume_pc (m := m) (c := c) (p := p) with hr | hr
    . rw [hr] at h
      cases h
    . rw [hr] at h
      cases h
  | startLoad p =>
    rw [hpc] at h
    dsimp only at h
    rcases startLoad_pc (m := m) (c := c) (p := p) with hr | hr
    . rw [hr] at h
      cases h
    . rw [hr] at h
      cases h

namespace Calm

theorem threadStep (h : Calm m) (hpc : m.pc c = .thread)
    (htimely : ∀ regs code, (m.proc (m.current c)).code = .exec regs :: code →
      (m.proc (m.current c)).window = false)
    (hcode : ((m.threadStep c (m.current c)).proc (m.current c)).code.head? = some .acq)
    : ((m.threadStep c (m.current c)).proc (m.current c)).window = false := by
  have hshape := h.shape (m.current c)
  have hexec := h.exec c hpc
  unfold Machine.threadStep at hcode ⊢
  split
  . next heq =>
    simp [heq] at hcode
  . next code heq =>
    rw [heq] at hcode hshape
    simp only [setProc_proc_self] at hcode
    exact absurd hcode (Op.head_ne_acq (hshape.tail rfl))
  . next code heq =>
    rw [release_proc, setProc_proc_self]
  . next regs code heq =>
    rw [setProc_proc_self]
    exact htimely regs code heq
  . next code heq =>
    rw [heq] at hcode hshape
    dsimp only at hcode
    unfold acquire at hcode ⊢
    split
    . apply hexec
      rw [heq]
      rfl
    . next hlock =>
      rw [hlock] at hcode
      simp only [setProc_proc_self] at hcode
      rcases hshape with hshape | hshape | hshape
      . cases hshape
      . cases hshape
        cases hcode
      . cases hshape
  . next code heq =>
    rw [heq] at hcode
    dsimp only at hcode
    rw [startLoad_code, setProc_proc_self] at hcode
    simp at hcode

theorem resume (hp : m.current c = p)
    (hcode : (m.proc (m.current c)).fresh = true → (m.proc (m.current c)).code.all Op.isCall = true)
    (hpc : (m.resume c p).pc c = .thread)
    : ((m.resume c p).proc ((m.resume c p).current c)).code.head? ≠ some .acq := by
  rw [resume_current, resume_code]
  apply Op.head_ne_acq
  apply hcode
  rw [hp]
  exact resume_fresh hpc

theorem startLoad (hp : m.current c = p)
    (hcode : (m.proc (m.current c)).fresh = true → (m.proc (m.current c)).code.all Op.isCall = true)
    : ((m.startLoad c p).proc ((m.startLoad c p).current c)).code.head? ≠ some .acq := by
  rw [startLoad_current, hp, startLoad_code]
  rw [hp] at hcode
  split
  . next hfresh => exact Op.head_ne_acq (hcode hfresh)
  . simp

theorem step_exec (h : Calm m) (hsafe : Safe m) (htimely : m.Timely (.step c rsp))
    (hthread : (m.step c rsp).pc c = .thread)
    (hcode : ((m.step c rsp).proc ((m.step c rsp).current c)).code.head? = some .acq)
    : ((m.step c rsp).proc ((m.step c rsp).current c)).window = false := by
  have hlocal := hsafe.here c
  unfold Local at hlocal
  unfold step at hthread hcode ⊢
  cases hpc : m.pc c with
  | boot =>
    rw [hpc] at hthread
    simp [hpc] at hthread
  | thread =>
    rw [hpc] at hcode
    dsimp only at hcode ⊢
    rw [threadStep_current] at hcode ⊢
    exact h.threadStep hpc (htimely hpc) hcode
  | acq | startAcq p =>
    rw [hpc] at hthread
    dsimp only at hthread
    unfold acquire at hthread
    split at hthread
    . simp [hpc] at hthread
    . simp at hthread
  | mark | found | save | startRun =>
    rw [hpc] at hthread
    simp at hthread
  | scan =>
    rw [hpc] at hthread
    dsimp only at hthread
    split at hthread
    . split at hthread
      . simp at hthread
      . simp [hpc] at hthread
    . simp [hpc] at hthread
  | run prev p =>
    rw [hpc] at hthread
    dsimp only at hthread
    split at hthread
    . simp at hthread
    . simp at hthread
  | load p =>
    rw [hpc] at hthread hcode hlocal
    rcases hlocal with ⟨hcurrent, _, hready, _⟩
    have hstarts : (m.proc (m.current c)).fresh = true → (m.proc (m.current c)).code.all Op.isCall = true := by
      intro hfresh
      have hnew := hready.2
      rw [if_pos hfresh] at hnew
      exact hnew.2
    exact absurd hcode (resume hcurrent hstarts hthread)
  | startLoad p =>
    rw [hpc] at hcode hlocal
    exact absurd hcode (startLoad hlocal.1 fun hfresh => (hlocal.2.2.2 hfresh).2)
  | r => simp

theorem of_changes (h : Calm m) (hsafe : Safe m) {S : List Nat} (hch : Changes m m' c S)
    (hS : ∀ q ∈ S, m.Touches c q) (hshape : ∀ q, Op.Shape (m'.proc q).code)
    (hacq : m'.pc c = .acq → (m'.proc (m'.current c)).window = false)
    (hexec : m'.pc c = .thread → (m'.proc (m'.current c)).code.head? = some .acq →
      (m'.proc (m'.current c)).window = false) : Calm m' := by
  have hother : ∀ c', c' ≠ c → m.pc c' ≠ .boot →
      m'.proc (m.current c') = m.proc (m.current c') := by
    intro c' hne hboot
    apply hch.proc
    intro hmem
    exact hsafe.not_touches_of_touches (hS _ hmem) hne ⟨hboot, Or.inl rfl⟩
  constructor
  case shape => exact hshape
  case acq =>
    intro c' hpc
    by_cases hc : c' = c
    . rw [hc] at hpc ⊢
      exact hacq hpc
    . rw [hch.pc c' hc] at hpc
      rw [hch.current c' hc, hother c' hc (by simp [hpc])]
      exact h.acq c' hpc
  case exec =>
    intro c' hpc
    by_cases hc : c' = c
    . rw [hc] at hpc ⊢
      exact hexec hpc
    . rw [hch.pc c' hc] at hpc
      rw [hch.current c' hc, hother c' hc (by simp [hpc])]
      exact h.exec c' hpc

theorem step (h : Calm m) (hsafe : Safe m) (htimely : m.Timely (.step c rsp))
    : Calm (m.step c rsp) := by
  rcases step_changes m c rsp with ⟨S, hch, hS⟩
  apply h.of_changes hsafe hch hS
  . exact step_shape h.shape
  . intro hpc
    have hsame := step_pc_acq hsafe hpc
    rw [hsame] at hpc ⊢
    exact h.acq c hpc
  . exact h.step_exec hsafe htimely

theorem tick (h : Calm m) (hsafe : Safe m) (htimely : m.Timely (.tick c)) : Calm (m.tick c) := by
  rcases m.tick_cases c with heq | ⟨place, p, hpc, heq⟩
  . rw [heq]
    exact h
  . rw [heq]
    have hlocal := hsafe.here c
    unfold Local at hlocal
    have hboot : m.pc c ≠ .boot := by
      rw [hpc]
      cases place <;> simp [Place.pc]
    have hwindow : (m.proc (m.current c)).window = false := by
      cases place with
      | thread => exact htimely.1 hpc
      | startAcq =>
        rw [hpc] at hlocal
        exact hlocal.2.2.1
      | startRun => exact absurd hpc (htimely.2 p).1
      | startLoad => exact absurd hpc (htimely.2 p).2
    have hch : Changes m (m.interrupt c place) c [m.current c] :=
      Changes.setPc (Changes.setProc (Changes.refl m c)) .acq
    apply h.of_changes hsafe hch
    . intro q hq
      rw [List.mem_singleton.mp hq]
      exact ⟨hboot, Or.inl rfl⟩
    . unfold interrupt
      simp only [setPc_proc]
      apply setProc_shape h.shape
      apply h.shape
    . intro _
      simpa [interrupt] using hwindow
    . intro hthread
      simp at hthread

theorem init_proc (h : Calm m) (hsafe : Safe m) {i : Nat} : Calm (m.init_proc c i) := by
  unfold Machine.init_proc
  split
  . next hpc =>
    apply h.of_changes hsafe (Changes.setPc (Changes.set_current_proc (Changes.refl m c)) (.startAcq i))
    . simp
    . exact h.shape
    . simp
    . simp
  . exact h

omit [DecidableEq Cpu] in
theorem setProc_newproc (h : Calm m) (pid : BitVec 32) (entry : Entry) (page : Vmm.Addr)
    : Calm (m.setProc p fun proc => newproc proc pid entry page) := by
  have hentry := entry.ok
  rw [Bool.and_eq_true] at hentry
  have hwindow : ∀ q, ((m.setProc p fun proc => newproc proc pid entry page).proc q).window =
      (m.proc q).window := by
    intro q
    by_cases hq : q = p
    . rw [hq, setProc_proc_self]
      rfl
    . rw [setProc_proc_of_ne hq]
  constructor
  case shape =>
    apply setProc_shape h.shape
    exact Or.inl hentry.2
  case acq =>
    intro c hpc
    rw [hwindow]
    exact h.acq c hpc
  case exec =>
    intro c hpc hcode
    rw [hwindow]
    rw [setProc_current] at hcode
    by_cases hq : m.current c = p
    . rw [hq, setProc_proc_self] at hcode
      exact absurd hcode (Op.head_ne_acq hentry.2)
    . rw [setProc_proc_of_ne hq] at hcode
      exact h.exec c hpc hcode

omit [DecidableEq Cpu] in
theorem allocproc (h : Calm m) {entry : Entry} {page : Vmm.Addr} : Calm (m.allocproc entry page).2 := by
  unfold Machine.allocproc
  split
  . next p _ hget =>
    have hnew := h.setProc_newproc (p := p) (m.nextpid + 1) entry page
    exact ⟨hnew.shape, hnew.acq, hnew.exec⟩
  . exact h

theorem next {e : Event Cpu} (h : Calm m) (hsafe : Safe m) (htimely : m.Timely e)
    : Calm (m.next e) := by
  cases e with
  | allocproc entry page => exact h.allocproc
  | init_proc c i => exact h.init_proc hsafe
  | tick c => exact h.tick hsafe htimely
  | step c rsp => exact h.step hsafe htimely

end Calm

theorem Safe.relocks {e : Event Cpu} (hsafe : Safe m) (he : ¬ m.Timely e) : ∃ c, (m.next e).Relocks c := by
  unfold Timely at he
  cases e with
  | allocproc | init_proc => exact absurd trivial he
  | tick c =>
    have hholds : (∃ place p, m.pc c = Place.pc p place) ∧ m.Holds c := by
      by_cases hthread : m.pc c = .thread
      . refine ⟨⟨.thread, 0, hthread⟩, Or.inr ⟨Or.inl hthread, ?_⟩⟩
        by_contra hwindow
        exact he ⟨fun _ => by simpa using hwindow, fun p => by simp [hthread]⟩
      . simp only [hthread, false_implies, true_and, not_forall, not_and_or, not_not] at he
        rcases he with ⟨p, hpc | hpc⟩
        . exact ⟨⟨.startRun, p, hpc⟩, Or.inl (by simp [hpc, Pc.inside])⟩
        . exact ⟨⟨.startLoad, p, hpc⟩, Or.inl (by simp [hpc, Pc.inside])⟩
    rcases hholds with ⟨⟨place, p, hpc⟩, hholds⟩
    refine ⟨c, ?_⟩
    show (m.tick c).Relocks c
    rw [tick_eq_interrupt hpc]
    exact ⟨interrupt_lock.trans ((hsafe.lock c).mpr hholds), Or.inl interrupt_pc⟩
  | step c rsp =>
    simp only [Classical.not_imp, not_forall, Bool.not_eq_false] at he
    rcases he with ⟨hpc, regs, code, hcode, hwindow⟩
    have hlock := (hsafe.lock c).mpr (Or.inr ⟨Or.inl hpc, hwindow⟩)
    refine ⟨c, ?_⟩
    unfold Machine.next Machine.step
    dsimp only
    rw [hpc]
    dsimp only
    unfold threadStep
    rw [hcode]
    refine ⟨hlock, Or.inr (Or.inr ⟨hpc, ?_⟩)⟩
    simp

omit [DecidableEq Cpu] in
theorem Start.calm (h : Start m) (hcode : ∀ q, (m.proc q).code.all Op.isCall = true) : Calm m := by
  constructor
  case shape => exact fun q => Or.inl (hcode q)
  case acq =>
    intro c hpc
    rcases h.pc c with heq | heq
    . rw [heq] at hpc
      cases hpc
    . rw [heq] at hpc
      cases hpc
  case exec =>
    intro c _ hacq
    exact absurd hacq (Op.head_ne_acq (hcode _))

theorem Safe.next {e : Event Cpu} (h : Safe m) (he : m.Proper e) (htimely : m.Timely e) : Safe (m.next e) := by
  cases e with
  | allocproc entry page => exact h.allocproc
  | init_proc c i => exact h.init_proc he.1 he.2
  | tick c => exact h.tick htimely.2
  | step c rsp => exact h.step he

/--
As long as the timer and `exec` wait for the call of `r`, no CPU waits for `ptable.lock` while it holds the
lock itself, and the first time that they do not, one does.
-/
theorem never_relocks {gs : List Given} (hm : Start m) (hcode : ∀ q, (m.proc q).code.all Op.isCall = true)
    (h : Reached (fun _ m e => m.Proper e ∧ m.Unused e ∧ m.Timely e) m gs m')
    : (∀ c, ¬ m'.Relocks c) ∧ ∀ e, ¬ m'.Timely e → ∃ c, (m'.next e).Relocks c := by
  have hinv : Safe m' ∧ Calm m' := by
    induction h with
    | refl => exact ⟨hm.safe, hm.calm hcode⟩
    | step e _ hcond ih => exact ⟨ih.1.next hcond.1 hcond.2.2, ih.2.next ih.1 hcond.2.2⟩
  exact ⟨hinv.2.not_relocks hinv.1, fun e => hinv.1.relocks⟩

end Machine

theorem never_relocks_oneProc : ¬ (oneProc.next (.tick ())).Relocks () := by
  have h : Machine.Reached (fun _ m e => m.Proper e ∧ m.Unused e ∧ m.Timely e) oneProc _ _ :=
    Machine.Reached.refl.step (.tick ()) ⟨trivial, trivial, fun _ => rfl, fun p => by simp [oneProc]⟩
  exact (Machine.never_relocks oneProc_start (fun _ => rfl) h).1 ()

theorem relocks_thread2
    : ∃ gs m, Machine.Reached (fun _ m e => m.Proper e) zeroTable gs m ∧ m.Relocks () := by
  -- no process is in use until `startproc` has run
  have hunused : ∀ q, (Function.update zeroTable.proc 0
      (Machine.newproc (zeroTable.proc 0) 1 thread2 0x5000) q).state = .UNUSED := by
    intro q
    by_cases hq : q = 0
    . rw [hq, Function.update_self]
      rfl
    . rw [Function.update_of_ne hq]
      rfl
  have hproper : ∀ m : Machine Unit, (∀ q, (m.proc q).state = .UNUSED) → m.Proper (.step () 0) := by
    intro m hm p _ q _ hstate
    exact absurd (hm q) hstate
  have h0 : Machine.Reached (fun _ m e => m.Proper e) zeroTable _ _ :=
    Machine.Reached.refl.step (.allocproc thread2 0x5000) trivial
  have h1 := h0.step (.init_proc () 0) ⟨rfl, fun _ hpc => absurd rfl hpc⟩
  have h2 := h1.step (.step () 0) (hproper _ hunused)
  have h3 := h2.step (.step () 0) (hproper _ hunused)
  have h4 := h3.step (.step () 0) (by
    rintro p (hpc | ⟨hpc, _⟩)
    . cases hpc
    . cases hpc)
  have h5 := h4.step (.tick ()) trivial
  refine ⟨_, _, h5, ?_, Or.inl ?_⟩
  . decide +kernel
  . decide +kernel

end Sched
end Franklin
