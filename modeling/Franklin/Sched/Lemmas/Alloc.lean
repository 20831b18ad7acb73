import Franklin.Sched.Lemmas.Machine

/-!
This module contains when the processes that `allocproc` returns are distinct: as long as all of them have
been started before the next call.
-/

namespace Franklin
namespace Sched

def Proc.Kept (proc proc' : Proc) : Prop :=
  proc'.pid = proc.pid ∧ proc'.page = proc.page ∧ proc'.regs = proc.regs

theorem Proc.Kept.refl (proc : Proc) : proc.Kept proc :=
  ⟨rfl, rfl, rfl⟩

theorem Proc.Kept.trans {proc proc' proc'' : Proc} (h : proc.Kept proc') (h' : proc'.Kept proc'')
    : proc.Kept proc'' :=
  ⟨h'.1.trans h.1, h'.2.1.trans h.2.1, h'.2.2.trans h.2.2⟩

namespace Machine

variable {Cpu : Type} [DecidableEq Cpu] {m : Machine Cpu} {c : Cpu} {p q : Nat}

omit [DecidableEq Cpu] in
theorem setProc_kept {f : Proc → Proc} (hf : ∀ proc : Proc, proc.Kept (f proc))
    : (m.proc q).Kept ((m.setProc p f).proc q) := by
  by_cases h : q = p
  . rw [h, setProc_proc_self]
    apply hf
  . rw [setProc_proc_of_ne h]
    apply Proc.Kept.refl

theorem resume_kept : (m.proc q).Kept ((m.resume c p).proc q) := by
  unfold resume
  split
  . rw [setPc_proc]
    apply setProc_kept
    intro proc
    exact ⟨rfl, rfl, rfl⟩
  . rw [setPc_proc]
    apply setProc_kept
    intro proc
    exact ⟨rfl, rfl, rfl⟩

theorem startLoad_kept : (m.proc q).Kept ((m.startLoad c p).proc q) := by
  unfold startLoad
  apply Proc.Kept.trans _ resume_kept
  apply setProc_kept
  intro proc
  split
  . apply Proc.Kept.refl
  . exact ⟨rfl, rfl, rfl⟩

theorem tick_kept : (m.proc q).Kept ((m.tick c).proc q) := by
  rcases m.tick_cases c with heq | ⟨place, p, _, heq⟩
  . rw [heq]
    apply Proc.Kept.refl
  . rw [heq]
    unfold interrupt
    rw [setPc_proc]
    apply setProc_kept
    intro proc
    exact ⟨rfl, rfl, rfl⟩

omit [DecidableEq Cpu] in
theorem acquire_kept {f : Machine Cpu → Machine Cpu}
    (hf : ∀ m : Machine Cpu, (m.proc q).Kept ((f m).proc q))
    : (m.proc q).Kept ((m.acquire c f).proc q) := by
  unfold acquire
  split
  . apply Proc.Kept.refl
  . apply hf { m with lock := some c }

def NoExec (m : Machine Cpu) (c : Cpu) : Prop :=
  m.pc c = .thread → ∀ regs code, (m.proc (m.current c)).code ≠ .exec regs :: code

theorem threadStep_kept (h : ∀ regs code, (m.proc p).code ≠ .exec regs :: code)
    : (m.proc q).Kept ((m.threadStep c p).proc q) := by
  unfold threadStep
  split
  . apply Proc.Kept.refl
  . apply setProc_kept
    intro proc
    exact ⟨rfl, rfl, rfl⟩
  . rw [release_proc]
    apply setProc_kept
    intro proc
    exact ⟨rfl, rfl, rfl⟩
  . next regs code hcode => exact absurd hcode (h regs code)
  . apply acquire_kept
    intro m
    apply setProc_kept
    intro proc
    exact ⟨rfl, rfl, rfl⟩
  . apply Proc.Kept.trans _ startLoad_kept
    apply setProc_kept
    intro proc
    exact ⟨rfl, rfl, rfl⟩

theorem step_kept {rsp : Vmm.Addr} (h : m.NoExec c) : (m.proc q).Kept ((m.step c rsp).proc q) := by
  unfold step
  cases hpc : m.pc c with
  | boot => apply Proc.Kept.refl
  | thread => apply threadStep_kept (h hpc)
  | acq =>
    apply acquire_kept
    intro m
    apply Proc.Kept.refl
  | mark =>
    dsimp only
    rw [setPc_proc]
    apply setProc_kept
    intro proc
    exact ⟨rfl, rfl, rfl⟩
  | scan =>
    dsimp only
    split
    . split
      . apply Proc.Kept.refl
      . apply Proc.Kept.refl
    . apply Proc.Kept.refl
  | found p => apply Proc.Kept.refl
  | run prev p =>
    have hrun : (m.proc q).Kept
        ((m.setProc p fun proc => { proc with state := .RUNNING }).proc q) := by
      apply setProc_kept
      intro proc
      exact ⟨rfl, rfl, rfl⟩
    dsimp only
    split
    . exact hrun
    . exact hrun
  | save prev p =>
    dsimp only
    rw [setPc_proc]
    apply setProc_kept
    intro proc
    exact ⟨rfl, rfl, rfl⟩
  | load p => apply resume_kept
  | r =>
    dsimp only
    rw [release_proc, setPc_proc]
    apply setProc_kept
    intro proc
    exact ⟨rfl, rfl, rfl⟩
  | startAcq p =>
    apply acquire_kept
    intro m
    apply Proc.Kept.refl
  | startRun p =>
    dsimp only
    rw [setPc_proc, ← set_current_proc_proc (m := m) (c := c) (p := p)]
    apply setProc_kept
    intro proc
    exact ⟨rfl, rfl, rfl⟩
  | startLoad p => apply startLoad_kept

/--
Every process that has been returned is in use before the next call of `allocproc`, and the scheduler
does not run into `exec`.
-/
def InUse (gs : List Given) (m : Machine Cpu) : Event Cpu → Prop
  | .allocproc _ _ => ∀ g ∈ gs, (m.proc g.slot).state ≠ .UNUSED
  | .step c _ => m.NoExec c
  | _ => True

def Has (m : Machine Cpu) (g : Given) : Prop :=
  (m.proc g.slot).pid = g.pid ∧ (m.proc g.slot).page = g.page ∧ (m.proc g.slot).regs.rip = g.entry.rip

omit [DecidableEq Cpu] in
theorem Has.of_kept {m' : Machine Cpu} {g : Given} (h : m.Has g)
    (hkept : (m.proc g.slot).Kept (m'.proc g.slot)) : m'.Has g := by
  rcases h with ⟨hpid, hpage, hrip⟩
  rcases hkept with ⟨hpid', hpage', hregs'⟩
  exact ⟨hpid'.trans hpid, hpage'.trans hpage, by rw [hregs', hrip]⟩

theorem allocproc_cases (m : Machine Cpu) (entry : Entry) (page : Vmm.Addr)
    : (m.given (.allocproc entry page) = [] ∧ (m.next (.allocproc entry page)) = m) ∨
        ∃ g, m.given (.allocproc entry page) = [g] ∧ (m.proc g.slot).state = .UNUSED ∧
          (m.next (.allocproc entry page)).Has g ∧
          ∀ q, q ≠ g.slot → (m.next (.allocproc entry page)).proc q = m.proc q := by
  cases hlock : m.lock with
  | some c =>
    left
    simp [given, next, allocproc, hlock]
  | none =>
    cases hget : (getproc m.proc .UNUSED 0).1 with
    | none =>
      left
      simp [given, next, allocproc, hlock, hget]
    | some p =>
      right
      refine ⟨⟨p, m.nextpid + 1, entry, page⟩, ?_, getproc_state hget, ?_, ?_⟩
      . simp [given, allocproc, hlock, hget, setProc, newproc]
      . simp [Has, next, allocproc, hlock, hget, setProc, newproc]
      . intro q hq
        simp [next, allocproc, hlock, hget, setProc, hq]

end Machine

theorem allocproc_distinct {Cpu : Type} [DecidableEq Cpu] {m m' : Machine Cpu} {gs : List Given}
    (h : Machine.Reached Machine.InUse m gs m')
    : (gs.map Given.slot).Nodup ∧ ∀ g ∈ gs, m'.Has g := by
  induction h with
  | refl => simp
  | @step gs m' e _ hcond ih =>
    cases e with
    | allocproc entry page =>
      rcases m'.allocproc_cases entry page with ⟨hgiven, hnext⟩ | ⟨g, hgiven, hunused, hhas, hother⟩
      . rw [hgiven, hnext]
        exact ih
      . rw [hgiven]
        -- the ones that were returned before are in use, so `g` is none of them
        have hne : ∀ g' ∈ gs, g'.slot ≠ g.slot := by
          intro g' hg' heq
          apply hcond g' hg'
          rw [heq, hunused]
        refine ⟨?_, ?_⟩
        . simp only [List.singleton_append, List.map_cons, List.nodup_cons, List.mem_map, not_exists,
            not_and]
          exact ⟨hne, ih.1⟩
        . intro g' hg'
          rw [List.singleton_append, List.mem_cons] at hg'
          rcases hg' with rfl | hg'
          . exact hhas
          . apply (ih.2 g' hg').of_kept
            rw [hother _ (hne g' hg')]
            apply Proc.Kept.refl
    | init_proc c i =>
      refine ⟨ih.1, ?_⟩
      intro g hg
      apply (ih.2 g hg).of_kept
      unfold Machine.next Machine.init_proc
      dsimp only
      split
      . apply Proc.Kept.refl
      . apply Proc.Kept.refl
    | tick c =>
      refine ⟨ih.1, ?_⟩
      intro g hg
      apply (ih.2 g hg).of_kept
      exact Machine.tick_kept
    | step c rsp =>
      refine ⟨ih.1, ?_⟩
      intro g hg
      apply (ih.2 g hg).of_kept
      apply Machine.step_kept hcond

def zeroTable : Machine Unit where
  proc _ :=
    { page := 0
      regs := ⟨0, 0, 0, 0⟩
      stack := 0
      state := .UNUSED
      pid := 0
      fresh := false
      code := []
      saved := true
      window := false }
  nextpid := 0
  index := 2
  lock := none
  current _ := 0
  pc _ := .boot

def thread1 : Entry :=
  ⟨0x1000, [.other, .exec ⟨0x400000, 0x43, 0x202, 0x70000040000⟩, .r, .other], by decide⟩

def thread2 : Entry :=
  ⟨0x2000, [.other, .r, .other], by decide⟩

theorem allocproc_distinct_started
    : ∃ gs m, Machine.Reached Machine.InUse zeroTable gs m ∧ gs.map Given.slot = [1, 0] ∧
        (gs.map Given.slot).Nodup := by
  have hnoexec : ∀ m : Machine Unit, m.pc () ≠ .thread ∨ (m.proc (m.current ())).code.head? = some .r ∨
      (m.proc (m.current ())).code.head? = some .other → m.NoExec () := by
    intro m hm hpc regs code hcode
    rw [hcode] at hm
    simp [hpc] at hm
  have h0 : Machine.Reached Machine.InUse zeroTable _ _ :=
    Machine.Reached.refl.step (.allocproc thread2 0x5000) (by intro g hg; cases hg)
  have h1 := h0.step (.init_proc () 0) trivial
  have h2 := h1.step (.step () 0) (hnoexec _ (by decide +kernel))
  have h3 := h2.step (.step () 0) (hnoexec _ (by decide +kernel))
  have h4 := h3.step (.step () 0) (hnoexec _ (by decide +kernel))
  have h5 := h4.step (.step () 0) (hnoexec _ (by decide +kernel))
  have h6 := h5.step (.step () 0) (hnoexec _ (by decide +kernel))
  have h7 := h6.step (.allocproc thread1 0x6000) (by
    show ∀ g ∈ _, _
    decide +kernel)
  exact ⟨_, _, h7, by decide +kernel, (allocproc_distinct h7).1⟩

theorem allocproc_same_slot
    : ∃ g g' m, Machine.Reached Machine.Any zeroTable [g', g] m ∧ g.slot = g'.slot ∧
        g.entry = thread1 ∧ (m.proc g.slot).regs.rip ≠ g.entry.rip := by
  have h0 : Machine.Reached Machine.Any zeroTable _ _ :=
    Machine.Reached.refl.step (.allocproc thread1 0x5000) trivial
  have h1 := h0.step (.allocproc thread2 0x6000) trivial
  refine ⟨⟨0, 1, thread1, 0x5000⟩, ⟨0, 2, thread2, 0x6000⟩, _, h1, rfl, rfl, ?_⟩
  decide +kernel

end Sched
end Franklin
