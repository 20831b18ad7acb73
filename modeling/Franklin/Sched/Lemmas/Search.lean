import Franklin.Lib.Orbit
import Franklin.Sched.Lemmas.Reselect

/-!
This module contains the search of `scheduler`, which ends because the process of the CPU is `RUNNABLE`.
-/

namespace Franklin
namespace Sched
namespace scheduler

variable {proc : Nat → Proc} {i j j' : BitVec 8} {p : Nat}

/--
What is expected of the search: it ends with a process that is `RUNNABLE`, and the index is either incremented below
the end of the table, or set to 0 behind it.
-/
structure Searched (proc : Nat → Proc) (i : BitVec 8) : Prop where
  ends : ∃ fuel p, search proc fuel i = some p ∧ p.toNat < NPROC ∧ (proc p.toNat).state = .RUNNABLE
  index : ∀ j j', Visited (round proc) i j → round proc j = some j' →
    (j.toNat < NPROC ∧ j'.toNat = j.toNat + 1) ∨ (NPROC ≤ j.toNat ∧ j' = 0#8)

theorem round_eq_some (h : round proc j = some j')
    : (j.toNat < NPROC ∧ (proc j.toNat).state ≠ .RUNNABLE ∧ j'.toNat = j.toNat + 1)
      ∨
      (NPROC ≤ j.toNat ∧ j' = 0#8) := by
  unfold round at h
  by_cases hlt : j.toNat < NPROC
  . rw [if_pos hlt] at h
    by_cases hstate : (proc j.toNat).state = .RUNNABLE
    . rw [if_pos hstate] at h
      cases h
    . rw [if_neg hstate] at h
      obtain rfl := Option.some.inj h
      -- `NPROC` is the largest index
      have hone : j.toNat + (1#8).toNat < 2 ^ 8 := by
        unfold NPROC at hlt
        simp only [BitVec.toNat_ofNat]
        omega
      exact .inl ⟨hlt, hstate, BitVec.toNat_add_of_lt hone⟩
  . rw [if_neg hlt] at h
    obtain rfl := Option.some.inj h
    exact .inr ⟨Nat.le_of_not_lt hlt, rfl⟩

theorem round_eq_none (h : round proc j = none) : j.toNat < NPROC ∧ (proc j.toNat).state = .RUNNABLE := by
  unfold round at h
  by_cases hlt : j.toNat < NPROC
  . rw [if_pos hlt] at h
    by_cases hstate : (proc j.toNat).state = .RUNNABLE
    . exact ⟨hlt, hstate⟩
    . rw [if_neg hstate] at h
      cases h
  . rw [if_neg hlt] at h
    cases h

theorem ends (hp : p < NPROC) (hstate : (proc p).state = .RUNNABLE) : Ends (round proc) i := by
  apply Ends.of_measure fun j => Machine.rounds j.toNat p
  intro j j' _ hround
  rcases round_eq_some hround with ⟨hlt, hne, hj'⟩ | ⟨hle, rfl⟩
  . rw [hj']
    apply Machine.rounds_succ hlt
    rintro rfl
    exact hne hstate
  . exact Machine.rounds_zero (Nat.not_lt.mpr hle) hp

theorem search_of_ends (h : Ends (round proc) i)
    : ∃ fuel p, search proc fuel i = some p ∧ p.toNat < NPROC ∧ (proc p.toNat).state = .RUNNABLE := by
  apply h.induct
  . intro j hnone
    refine ⟨1, j, ?_, round_eq_none hnone⟩
    unfold search
    rw [hnone]
  . intro j j' hsome ih
    rcases ih with ⟨fuel, p, hsearch, hp⟩
    refine ⟨fuel + 1, p, ?_, hp⟩
    unfold search
    rw [hsome]
    exact hsearch

theorem searched_of_runnable (hp : p < NPROC) (hstate : (proc p).state = .RUNNABLE) : Searched proc i where
  ends := search_of_ends (ends hp hstate)
  index j j' _ hround := by
    rcases round_eq_some hround with ⟨hlt, _, hj'⟩ | hend
    . exact .inl ⟨hlt, hj'⟩
    . exact .inr hend

end scheduler

namespace Machine

variable {Cpu : Type} [DecidableEq Cpu] {m : Machine Cpu} {c : Cpu} {i : BitVec 8}

theorem step_scan (hpc : m.pc c = .scan) (hindex : m.index = i.toNat) (rsp : Vmm.Addr)
    : m.step c rsp =
        ((scheduler.round m.proc i).map fun j => { m with index := j.toNat }).getD (m.setPc c (.found i.toNat)) := by
  unfold step
  rw [hpc, hindex]
  dsimp only
  cases hround : scheduler.round m.proc i with
  | none =>
    rcases scheduler.round_eq_none hround with ⟨hlt, hstate⟩
    rw [if_pos hlt, if_pos hstate]
    rfl
  | some j =>
    rcases scheduler.round_eq_some hround with ⟨hlt, hne, hj⟩ | ⟨hle, rfl⟩
    . rw [if_pos hlt, if_neg hne, Option.map_some, Option.getD_some, hj]
    . rw [if_neg (Nat.not_lt.mpr hle)]
      rfl

end Machine

theorem scheduler_searched (proc : Nat → Proc) (current : Fin NPROC) (i : BitVec 8)
    : scheduler.Searched (apic_timer proc current) i := by
  apply scheduler.searched_of_runnable current.isLt
  unfold apic_timer
  rw [Function.update_self]

end Sched
end Franklin
