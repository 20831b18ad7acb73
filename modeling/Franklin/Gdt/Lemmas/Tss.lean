import Franklin.Gdt.Basic

/-!
This module contains which address the processor finds in the descriptor of a task state segment.
-/

namespace Franklin
namespace Gdt

variable {tssdesc : Tssdesc} {tss : BitVec 64}

/--
The members of a descriptor that hold the address, without the one that the functions leave out.
-/
structure Tssdesc.Filled (tssdesc : Tssdesc) (tss : BitVec 64) : Prop where
  low : tssdesc.desc.base_addr = #v[tss.setWidth 8, (tss >>> 8).setWidth 8, (tss >>> 16).setWidth 8]
  high : tssdesc.base_high = (tss >>> 32).setWidth 32

theorem Tssdesc.Filled.getLsbD_base (h : tssdesc.Filled tss) {i : Nat} (hi : i < 64)
    : tssdesc.base.getLsbD i =
        if 24 ≤ i ∧ i < 32 then tssdesc.desc.base_addr2.getLsbD (i - 24) else tss.getLsbD i := by
  have h0 : tssdesc.desc.base_addr[0] = tss.setWidth 8 := by
    simp [h.low]
  have h1 : tssdesc.desc.base_addr[1] = (tss >>> 8).setWidth 8 := by
    simp [h.low]
  have h2 : tssdesc.desc.base_addr[2] = (tss >>> 16).setWidth 8 := by
    simp [h.low]
  unfold Tssdesc.base
  rw [h0, h1, h2, h.high]
  simp only [BitVec.getLsbD_append, BitVec.getLsbD_setWidth, BitVec.getLsbD_ushiftRight]
  grind

theorem Tssdesc.Filled.base_eq_iff (h : tssdesc.Filled tss)
    : tssdesc.base = tss ↔ tssdesc.desc.base_addr2 = (tss >>> 24).setWidth 8 := by
  constructor
  . intro hbase
    apply BitVec.eq_of_getLsbD_eq
    intro i hi
    have hbit := h.getLsbD_base (show 24 + i < 64 by omega)
    rw [hbase, if_pos (by omega), Nat.add_sub_cancel_left] at hbit
    rw [← hbit, BitVec.getLsbD_setWidth, BitVec.getLsbD_ushiftRight, decide_eq_true hi, Bool.true_and]
  . intro hmid
    apply BitVec.eq_of_getLsbD_eq
    intro i hi
    rw [h.getLsbD_base hi]
    split
    . rw [hmid, BitVec.getLsbD_setWidth, BitVec.getLsbD_ushiftRight, decide_eq_true (by omega), Bool.true_and,
        Nat.add_sub_cancel' (by omega)]
    . rfl

theorem load_tss_filled (tssdesc : Tssdesc) (tss : BitVec 64) : (load_tss tssdesc tss).Filled tss :=
  ⟨rfl, rfl⟩

theorem alloc_tss_filled (tss : BitVec 64) : (alloc_tss tss).Filled tss :=
  ⟨rfl, rfl⟩

/--
The byte `base_addr2` keeps what it was in `load_tss`, and is zero in `alloc_tss`.
-/
theorem tss_base_iff (tssdesc : Tssdesc) (tss : BitVec 64)
    : ((load_tss tssdesc tss).base = tss ↔ tssdesc.desc.base_addr2 = (tss >>> 24).setWidth 8)
        ∧ ((alloc_tss tss).base = tss ↔ (tss >>> 24).setWidth 8 = 0#8) := by
  constructor
  . exact (load_tss_filled tssdesc tss).base_eq_iff
  . rw [(alloc_tss_filled tss).base_eq_iff, eq_comm]
    rfl

theorem tss_base_dropped
    : (load_tss ⟨⟨0, #v[0, 0, 0], 0, 0, 0, 0⟩, 0⟩ 0xffff800001000000).base ≠ 0xffff800001000000
        ∧ (alloc_tss 0xffff800001000000).base ≠ 0xffff800001000000 := by
  rw [Ne, Ne, (load_tss_filled _ _).base_eq_iff, (alloc_tss_filled _).base_eq_iff]
  decide

end Gdt
end Franklin
