import Franklin.Sched.Basic

/-!
This module contains what the single updates of the process table and of the CPUs leave alone.
-/

namespace Franklin
namespace Sched

namespace getproc

variable {proc : Nat → Proc} {state : ProcState} {n index p : Nat}

theorem go_state (h : (go proc state n index).1 = some p) : (proc p).state = state := by
  induction n generalizing index with
  | zero => cases h
  | succ n ih =>
    unfold go at h
    split at h
    . next hstate =>
      rw [Option.some.injEq] at h
      rw [← h]
      exact hstate
    . apply ih h

end getproc

theorem getproc_state {proc : Nat → Proc} {state : ProcState} {index p : Nat}
    (h : (getproc proc state index).1 = some p) : (proc p).state = state :=
  getproc.go_state h

namespace Machine

section

variable {Cpu : Type} {m : Machine Cpu} {p q : Nat} {f : Proc → Proc}

@[simp]
theorem setProc_pc : (m.setProc p f).pc = m.pc := by
  rfl

@[simp]
theorem setProc_lock : (m.setProc p f).lock = m.lock := by
  rfl

@[simp]
theorem setProc_current : (m.setProc p f).current = m.current := by
  rfl

@[simp]
theorem setProc_proc_self : (m.setProc p f).proc p = f (m.proc p) := by
  simp [setProc]

theorem setProc_proc_of_ne (h : q ≠ p) : (m.setProc p f).proc q = m.proc q := by
  simp [setProc, h]

@[simp]
theorem release_proc : m.release.proc = m.proc := by
  rfl

@[simp]
theorem release_pc : m.release.pc = m.pc := by
  rfl

@[simp]
theorem release_current : m.release.current = m.current := by
  rfl

@[simp]
theorem release_lock : m.release.lock = none := by
  rfl

end

section

variable {Cpu : Type} [DecidableEq Cpu] {m : Machine Cpu} {c c' : Cpu} {p : Nat} {pc : Pc}

@[simp]
theorem setPc_proc : (m.setPc c pc).proc = m.proc := by
  rfl

@[simp]
theorem setPc_lock : (m.setPc c pc).lock = m.lock := by
  rfl

@[simp]
theorem setPc_current : (m.setPc c pc).current = m.current := by
  rfl

@[simp]
theorem setPc_pc_self : (m.setPc c pc).pc c = pc := by
  simp [setPc]

theorem setPc_pc_of_ne (h : c' ≠ c) : (m.setPc c pc).pc c' = m.pc c' := by
  simp [setPc, h]

@[simp]
theorem set_current_proc_proc : (m.set_current_proc c p).proc = m.proc := by
  rfl

@[simp]
theorem set_current_proc_pc : (m.set_current_proc c p).pc = m.pc := by
  rfl

@[simp]
theorem set_current_proc_lock : (m.set_current_proc c p).lock = m.lock := by
  rfl

@[simp]
theorem set_current_proc_current_self : (m.set_current_proc c p).current c = p := by
  simp [set_current_proc]

theorem set_current_proc_current_of_ne (h : c' ≠ c)
    : (m.set_current_proc c p).current c' = m.current c' := by
  simp [set_current_proc, h]

theorem startLoad_of_fresh (h : (m.proc p).fresh = true) : m.startLoad c p = m.resume c p := by
  unfold startLoad setProc
  dsimp only
  rw [if_pos h, Function.update_eq_self]

theorem startLoad_of_saved (h : (m.proc p).fresh = false)
    : m.startLoad c p =
        (m.setProc p fun proc => { proc with code := [], interrupted := .thread }).resume c p := by
  unfold startLoad setProc
  dsimp only
  rw [if_neg (by simp [h])]

theorem tick_cases (m : Machine Cpu) (c : Cpu)
    : m.tick c = m ∨ ∃ place p, m.pc c = Place.pc p place ∧ m.tick c = m.interrupt c place := by
  unfold tick
  cases hpc : m.pc c with
  | thread => exact Or.inr ⟨.thread, 0, rfl, rfl⟩
  | startAcq p => exact Or.inr ⟨.startAcq, p, rfl, rfl⟩
  | startRun p => exact Or.inr ⟨.startRun, p, rfl, rfl⟩
  | startLoad p => exact Or.inr ⟨.startLoad, p, rfl, rfl⟩
  | boot | acq | mark | scan | found | run | save | load | r => exact Or.inl rfl

theorem tick_eq_interrupt {place : Place} (hpc : m.pc c = place.pc p) : m.tick c = m.interrupt c place := by
  unfold tick
  cases place with
  | thread | startAcq | startRun | startLoad =>
    rw [hpc]
    rfl

@[simp]
theorem interrupt_pc {place : Place} : (m.interrupt c place).pc c = .acq :=
  setPc_pc_self

@[simp]
theorem interrupt_lock {place : Place} : (m.interrupt c place).lock = m.lock := by
  rfl

@[simp]
theorem interrupt_current {place : Place} : (m.interrupt c place).current = m.current := by
  rfl

end

end Machine

end Sched
end Franklin
