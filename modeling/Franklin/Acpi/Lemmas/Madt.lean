import Franklin.Acpi.Basic

/-!
This module contains the walk through the entries of a MADT, whose end is the length of the whole table.
-/

namespace Franklin
namespace Acpi

open Vmm (Addr P2V V2P)

namespace walk_madt

variable {madt : MADT} {stack : Nat → UInt8} {lint : UInt8} {s s' u : State} {i : BitVec 32}
  {offs : List (BitVec 32)} {fuel : Nat}

inductive Records (madt : MADT) : BitVec 32 → List (BitVec 32) → Prop
  | done {i : BitVec 32} (h : i.toNat = madt.area) : Records madt i []
  | record {i : BitVec 32} {offs : List (BitVec 32)} (hsize : 2 ≤ (size madt i).toNat)
      (hle : i.toNat + (size madt i).toNat ≤ madt.area) (h : Records madt (i + size madt i) offs)
      : Records madt i (i :: offs)

structure Correct (madt : MADT) (stack : Nat → UInt8) (lint : UInt8) : Prop where
  terminates : ∃ fuel lint', walk_madt fuel madt stack lint = some lint'
  reads : ∀ s, Visited (step madt) (start stack lint) s → s.i < madt.length →
    ∀ j ∈ reads madt s.i, j.toNat < madt.area
  stores : ∀ s, Visited (step madt) (start stack lint) s → s.i < madt.length → madt.entry s.i = 0 →
    s.x.toNat < s.lapicId.size
  records : ∀ offs, Records madt 0#32 offs →
    ∀ i, (∃ s, Visited (step madt) (start stack lint) s ∧ s.i < madt.length ∧ s.i = i) ↔ i ∈ offs

/--
The lengths of the records lead from `i` through `offs`, where every byte that is read is in the entry area, to
an offset that is not less than the length of the table.
-/
inductive Chain (madt : MADT) : BitVec 32 → List (BitVec 32) → Prop
  | beyond {i : BitVec 32} (h : madt.length ≤ i) : Chain madt i []
  | record {i : BitVec 32} {offs : List (BitVec 32)} (hreads : ∀ j ∈ walk_madt.reads madt i, j.toNat < madt.area)
      (h : Chain madt (i + size madt i) offs) : Chain madt i (i :: offs)

def ids (madt : MADT) (offs : List (BitVec 32)) : Nat :=
  offs.countP fun i => madt.entry i = 0

theorem ids_cons (madt : MADT) (i : BitVec 32) (offs : List (BitVec 32))
    : ids madt (i :: offs) = ids madt offs + if madt.entry i = 0 then 1 else 0 := by
  unfold ids
  rw [List.countP_cons]
  congr 1
  simp only [decide_eq_true_eq]

theorem mem_reads_self : i ∈ reads madt i := by
  unfold reads
  rw [List.append_assoc]
  exact List.mem_append_left _ (List.mem_cons_self ..)

theorem lt_length_of_reads (h : ∀ j ∈ reads madt i, j.toNat < madt.area) : i < madt.length := by
  have hi := h i mem_reads_self
  unfold MADT.area at hi
  rw [BitVec.lt_def]
  omega

theorem loop_succ_of_lt (h : s.i < madt.length) : loop madt (fuel + 1) s = (body madt s).bind (loop madt fuel) := by
  rw [loop, if_pos h]
  rfl

theorem loop_succ_of_not_lt (h : ¬ s.i < madt.length) : loop madt (fuel + 1) s = some s := by
  rw [loop, if_neg h]

theorem step_of_not_lt (h : ¬ s.i < madt.length) : step madt s = none := by
  unfold step
  rw [if_neg h]

theorem step_of_lt (h : s.i < madt.length) : step madt s = body madt s := by
  unfold step
  rw [if_pos h]

structure Stepped (madt : MADT) (s s' : State) : Prop where
  i : s'.i = s.i + size madt s.i
  size : s'.lapicId.size = s.lapicId.size
  x : s'.x = if madt.entry s.i = 0 then s.x + 1#8 else s.x

theorem body_eq_some (hspace : madt.entry s.i = 0 → s.x.toNat < s.lapicId.size)
    : ∃ s', body madt s = some s' ∧ Stepped madt s s' := by
  unfold body
  by_cases h : madt.entry s.i = 0
  . have hset : s.lapicId.set s.x.toNat (madt.entry (s.i + 3#32)) =
        some { s.lapicId with byte := Function.update s.lapicId.byte s.x.toNat (madt.entry (s.i + 3#32)) } := by
      unfold Block.set
      rw [if_pos ⟨Int.natCast_nonneg _, Int.ofNat_lt.mpr (hspace h)⟩]
      rfl
    rw [if_pos h, hset, Option.bind_eq_bind, Option.bind_some]
    exact ⟨_, rfl, rfl, rfl, rfl⟩
  . rw [if_neg h, Option.bind_eq_bind, Option.bind_some]
    exact ⟨_, rfl, rfl, rfl, rfl⟩

theorem space_of_body (h : body madt s = some s') : madt.entry s.i = 0 → s.x.toNat < s.lapicId.size := by
  intro hentry
  unfold body at h
  rw [if_pos hentry] at h
  by_contra hspace
  have hset : s.lapicId.set s.x.toNat (madt.entry (s.i + 3#32)) = none := by
    unfold Block.set
    rw [if_neg]
    rintro ⟨-, hlt⟩
    exact hspace (Int.ofNat_lt.mp hlt)
  rw [hset] at h
  cases h

theorem Stepped.space (h : Stepped madt s s') (hspace : s.x.toNat + ids madt (s.i :: offs) ≤ 100)
    : s'.x.toNat + ids madt offs ≤ 100 := by
  rw [ids_cons] at hspace
  rw [h.x]
  by_cases hentry : madt.entry s.i = 0
  . rw [if_pos hentry] at hspace ⊢
    rw [BitVec.toNat_add_of_lt (by simp only [BitVec.toNat_ofNat]; omega)]
    simp only [BitVec.toNat_ofNat]
    omega
  . rw [if_neg hentry] at hspace ⊢
    omega

theorem space_of_ids (hsize : s.lapicId.size = 100) (hspace : s.x.toNat + ids madt (s.i :: offs) ≤ 100)
    : madt.entry s.i = 0 → s.x.toNat < s.lapicId.size := by
  intro hentry
  rw [ids_cons, if_pos hentry] at hspace
  omega

theorem Chain.walk (h : Chain madt i offs) (hi : s.i = i) (hsize : s.lapicId.size = 100)
    (hspace : s.x.toNat + ids madt offs ≤ 100)
    : (∃ s', loop madt (offs.length + 1) s = some s') ∧
      ∀ u, Visited (step madt) s u → u.i < madt.length →
        (∀ j ∈ walk_madt.reads madt u.i, j.toNat < madt.area) ∧
        (madt.entry u.i = 0 → u.x.toNat < u.lapicId.size) := by
  induction h generalizing s with
  | beyond h =>
    subst hi
    have hnot : ¬ s.i < madt.length := BitVec.not_lt.mpr h
    refine ⟨⟨s, loop_succ_of_not_lt hnot⟩, ?_⟩
    intro u hu hlt
    rcases hu.eq_or with rfl | ⟨b, hb, _⟩
    . exact absurd hlt hnot
    . rw [step_of_not_lt hnot] at hb
      cases hb
  | record hreads _ ih =>
    subst hi
    have hlt := lt_length_of_reads hreads
    have hslot := space_of_ids hsize hspace
    rcases body_eq_some hslot with ⟨s₁, hbody, hstepped⟩
    rcases ih hstepped.i (hstepped.size.trans hsize) (hstepped.space hspace) with ⟨⟨s', hloop⟩, hvisited⟩
    refine ⟨⟨s', ?_⟩, ?_⟩
    . rw [List.length_cons, loop_succ_of_lt hlt, hbody, Option.bind_some, hloop]
    . intro u hu hu'
      rcases hu.eq_or with rfl | ⟨b, hb, hu⟩
      . exact ⟨hreads, hslot⟩
      . rw [step_of_lt hlt, hbody] at hb
        obtain rfl := Option.some.inj hb
        exact hvisited u hu hu'

theorem round_of_loop (hloop : loop madt (fuel + 1) s = some s') (hlt : s.i < madt.length)
    : ∃ s₁, body madt s = some s₁ ∧ Stepped madt s s₁ ∧ loop madt fuel s₁ = some s' := by
  rw [loop_succ_of_lt hlt] at hloop
  rcases Option.bind_eq_some_iff.mp hloop with ⟨s₁, hbody, hloop⟩
  rcases body_eq_some (space_of_body hbody) with ⟨s₂, hbody', hstepped⟩
  obtain rfl := Option.some.inj (hbody.symm.trans hbody')
  exact ⟨s₁, hbody, hstepped, hloop⟩

theorem exists_chain (hsize : s.lapicId.size = 100) (hx : s.x.toNat ≤ 100) (hloop : loop madt fuel s = some s')
    (hreads : ∀ u, Visited (step madt) s u → u.i < madt.length → ∀ j ∈ reads madt u.i, j.toNat < madt.area)
    : ∃ offs, Chain madt s.i offs ∧ s.x.toNat + ids madt offs ≤ 100 := by
  induction fuel generalizing s with
  | zero => cases hloop
  | succ fuel ih =>
    by_cases hlt : s.i < madt.length
    . rcases round_of_loop hloop hlt with ⟨s₁, hbody, hstepped, hloop⟩
      have hspace := space_of_body hbody
      have hx₁ : s₁.x.toNat = s.x.toNat + if madt.entry s.i = 0 then 1 else 0 := by
        rw [hstepped.x]
        by_cases hentry : madt.entry s.i = 0
        . have := hspace hentry
          rw [if_pos hentry, if_pos hentry, BitVec.toNat_add_of_lt (by simp only [BitVec.toNat_ofNat]; omega)]
          rfl
        . rw [if_neg hentry, if_neg hentry, Nat.add_zero]
      have hx₁' : s₁.x.toNat ≤ 100 := by
        rw [hx₁]
        split
        . next hentry =>
          have := hspace hentry
          omega
        . omega
      have hreads₁ : ∀ u, Visited (step madt) s₁ u → u.i < madt.length →
          ∀ j ∈ reads madt u.i, j.toNat < madt.area := by
        intro u hu
        exact hreads u (hu.head ((step_of_lt hlt).trans hbody))
      rcases ih (hstepped.size.trans hsize) hx₁' hloop hreads₁ with ⟨offs, hchain, hids⟩
      rw [hstepped.i] at hchain
      refine ⟨s.i :: offs, .record (hreads s .self hlt) hchain, ?_⟩
      rw [ids_cons]
      omega
    . refine ⟨[], .beyond (BitVec.not_lt.mp hlt), ?_⟩
      unfold ids
      rw [List.countP_nil]
      omega

theorem Records.reads_beyond (h : Records madt i offs) (hi : s.i = i) (hloop : loop madt fuel s = some s')
    (hreads : ∀ u, Visited (step madt) s u → u.i < madt.length → ∀ j ∈ reads madt u.i, j.toNat < madt.area)
    : False := by
  have hlength := madt.le_length
  have hlt : ∀ i : BitVec 32, i.toNat ≤ madt.area → i < madt.length := by
    intro i hi
    unfold MADT.area at hi
    rw [BitVec.lt_def]
    unfold MADT.length at *
    omega
  induction h generalizing s fuel with
  | done h =>
    subst hi
    have hself := hreads s .self (hlt s.i (by omega)) s.i mem_reads_self
    omega
  | record _ hle _ ih =>
    subst hi
    have hlt := hlt s.i (by omega)
    cases fuel with
    | zero => cases hloop
    | succ fuel =>
      rcases round_of_loop hloop hlt with ⟨s₁, hbody, hstepped, hloop⟩
      apply ih hstepped.i hloop
      intro u hu
      exact hreads u (hu.head ((step_of_lt hlt).trans hbody))

theorem walk_madt_eq_some {lint' : UInt8} (h : walk_madt fuel madt stack lint = some lint')
    : ∃ s', loop madt fuel (start stack lint) = some s' := by
  unfold walk_madt at h
  rcases Option.map_eq_some_iff.mp h with ⟨s', hs', _⟩
  exact ⟨s', hs'⟩

theorem Correct.not_records (h : Correct madt stack lint) : ¬ Records madt 0#32 offs := by
  intro hrecords
  rcases h.terminates with ⟨fuel, lint', hwalk⟩
  rcases walk_madt_eq_some hwalk with ⟨s', hloop⟩
  exact hrecords.reads_beyond rfl hloop h.reads

end walk_madt

theorem walk_madt_correct_iff (madt : MADT) (stack : Nat → UInt8) (lint : UInt8)
    : walk_madt.Correct madt stack lint
        ↔
      ∃ offs, walk_madt.Chain madt 0#32 offs ∧ walk_madt.ids madt offs ≤ 99 := by
  constructor
  . intro h
    rcases h.terminates with ⟨fuel, lint', hwalk⟩
    rcases walk_madt.walk_madt_eq_some hwalk with ⟨s', hloop⟩
    have hx : (walk_madt.start stack lint).x.toNat = 1 := rfl
    rcases walk_madt.exists_chain rfl (by omega) hloop h.reads with ⟨offs, hchain, hids⟩
    exact ⟨offs, hchain, by omega⟩
  . rintro ⟨offs, hchain, hids⟩
    have hx : (walk_madt.start stack lint).x.toNat = 1 := rfl
    rcases hchain.walk (s := walk_madt.start stack lint) rfl rfl (by omega) with ⟨⟨s', hloop⟩, hvisited⟩
    have hreads := fun u hu hlt => (hvisited u hu hlt).1
    refine ⟨⟨offs.length + 1, s'.NMI_LINT, ?_⟩, hreads, fun u hu hlt => (hvisited u hu hlt).2, ?_⟩
    . unfold walk_madt
      rw [hloop]
      rfl
    . intro offs' hrecords
      exact (hrecords.reads_beyond rfl hloop hreads).elim

def oneLapic (a : Addr) : UInt8 :=
  let bytes : List (BitVec 64 × UInt8) := [(0x1004#64, 52), (0x102d#64, 8), (0x102f#64, 1), (0x1030#64, 1)]
  (bytes.lookup (V2P a)).getD 0

theorem oneLapic_le_length : 44 ≤ (defaultheader.length oneLapic (P2V 0x1000#64)).toNat := by
  decide

theorem oneLapic_records : walk_madt.Records ⟨oneLapic, P2V 0x1000#64, oneLapic_le_length⟩ 0#32 [0#32] :=
  .record (by decide) (by decide) (.done (by decide))

theorem walk_madt_lapic
    : ¬ walk_madt.Correct ⟨oneLapic, P2V 0x1000#64, oneLapic_le_length⟩ (fun _ => 0) 0 := by
  intro h
  exact h.not_records oneLapic_records

end Acpi
end Franklin
