import Franklin.Exec.Lemmas.Procs
import Franklin.Vmm.Lemmas.Sections

/-!
This module contains what programs can do through the direct map of `init_vm`, which is in the upper half of every
address space and has the bit `PTE_USER`.
-/

open Radix

namespace Franklin
namespace Exec

open Vmm (Addr Mem P2V PTE_GET_ADDR PTE_PRESENT PTE_RW PTE_USER Free entries vpn Sections HHDM_OFFSET)

section Entry

variable {phys : Addr} {sections : Sections} {virtual_base physical_base : BitVec 64}

theorem vpn_P2V (h : phys.toNat < 2 ^ 47) : (vpn (P2V phys)).toNat = 2 ^ 35 + phys.toNat / PGSIZE := by
  have hoffset : HHDM_OFFSET.toNat = 0xffff800000000000 := rfl
  unfold P2V
  rw [vpn, BitVec.toNat_setWidth, BitVec.toNat_ushiftRight, BitVec.toNat_add, hoffset, Nat.shiftRight_eq_div_pow]
  unfold PGSIZE
  omega

theorem P2V_mod (phys : Addr) : (P2V phys).toNat % PGSIZE = phys.toNat % PGSIZE := by
  have hoffset : HHDM_OFFSET.toNat = 0xffff800000000000 := rfl
  unfold P2V PGSIZE
  rw [BitVec.toNat_add, hoffset]
  omega

def InDirect (phys : Addr) : Prop :=
  0x1000 ≤ phys.toNat ∧ phys.toNat < 0x80000000

theorem bootEntries_direct (hend : sections.data_end_addr ≤ 2 ^ 64) (h : InDirect phys)
    : bootEntries (sections.image virtual_base physical_base) (vpn (P2V phys)) =
        BitVec.ofNat 64 (phys.toNat / PGSIZE * PGSIZE) ||| Vmm.init_vm.Region.hhdm.flags := by
  rcases h with ⟨hlow, hhigh⟩
  have hvpn := @vpn_P2V phys (by omega)
  unfold bootEntries
  rw [(Vmm.init_vm.insertAll_mappings hend _).1 .hhdm]
  . unfold Vmm.init_vm.Region.frameOf
    dsimp only
    rw [hvpn, Nat.add_sub_cancel_left]
  . unfold Vmm.init_vm.Region.first
    dsimp only
    rw [hvpn]
    unfold PGSIZE
    omega
  . unfold Vmm.init_vm.Region.stop
    dsimp only
    rw [hvpn]
    unfold PGSIZE
    omega

theorem direct_flags {frame : BitVec 64} (h : PTE_GET_ADDR frame = frame)
    : Writable (frame ||| Vmm.init_vm.Region.hhdm.flags) ∧
        PTE_GET_ADDR (frame ||| Vmm.init_vm.Region.hhdm.flags) = frame := by
  have haddr : PTE_GET_ADDR Vmm.init_vm.Region.hhdm.flags = 0#64 := by
    decide
  exact ⟨writable_or h (by decide), ((Vmm.split_or_iff _ _).mpr ⟨h, haddr⟩).1⟩

end Entry

section Writing

variable {s : State} {kernel_top m : Addr} {maps : List Addr} {phys : Addr} {b : UInt8} {sections : Sections}
variable {virtual_base physical_base : BitVec 64}

theorem Owned.writeVirt_direct (h : Owned kernel_top maps s) (hm : m ∈ maps) (hend : sections.data_end_addr ≤ 2 ^ 64)
    (hkernel : KeepsKernel (sections.image virtual_base physical_base) kernel_top s) (hphys : InDirect phys)
    : writeVirt s.mem m (P2V phys) b = some (writeBytes s.mem (P2V phys) 1 fun _ => b) := by
  have hboot := @bootEntries_direct phys sections virtual_base physical_base hend hphys
  rcases hphys with ⟨hlow, hhigh⟩
  have hn : (vpn (P2V phys)).msb = true := by
    rw [BitVec.msb_eq_decide, vpn_P2V (by omega), decide_eq_true_eq]
    exact Nat.le_add_right _ _
  generalize hframe : BitVec.ofNat 64 (phys.toNat / PGSIZE * PGSIZE) = frame at hboot
  have hpage : PTE_GET_ADDR frame = frame := by
    rw [← hframe]
    apply Vmm.init_vm.PTE_GET_ADDR_page
    unfold PGSIZE
    omega
  rcases direct_flags hpage with ⟨hwritable, haddr⟩
  have hentry : entries s.mem m (vpn (P2V phys)) = frame ||| Vmm.init_vm.Region.hhdm.flags := by
    rw [h.apart.entries_upper (List.mem_append_left _ hm) hn, hkernel _ hn, hboot]
    rw [hboot]
    exact hwritable.1
  have hbyte : P2V frame + BitVec.ofNat 64 ((P2V phys).toNat % PGSIZE) = P2V phys := by
    rw [← hframe, P2V_mod, ← P2V_add, ← BitVec.ofNat_add, Nat.div_add_mod', BitVec.ofNat_toNat, BitVec.setWidth_eq]
  unfold writeVirt
  dsimp only
  rw [Vmm.walk_eq_entries, hentry, if_pos hwritable, haddr, hbyte]

end Writing

def physical (mem : Mem) (top_level : Addr) (a : UserAddr) : Option Addr :=
  let entry := Vmm.walk mem top_level (a.setWidth 64)
  if entry &&& PTE_PRESENT ≠ 0#64 then
    some (PTE_GET_ADDR entry + BitVec.ofNat 64 (userOffset a))
  else
    none

theorem physical_backs {mem : Mem} {a : UserAddr} (h : physical mem m a = some phys)
    : ∃ t, Backs mem m (userPage a) t ∧ t + BitVec.ofNat 64 (userOffset a) = P2V phys := by
  unfold physical at h
  dsimp only at h
  rw [Vmm.walk_eq_entries, ← userPage] at h
  split at h
  . next hpresent =>
    refine ⟨_, ⟨userPage_msb a, hpresent, rfl⟩, ?_⟩
    rw [← Option.some.inj h, P2V_add]
  . cases h

namespace Procs

variable {P : Type} [DecidableEq P] {kernel_top : Addr} {log : List (Access P)} {s : Procs P} {sections : Sections}
variable {virtual_base physical_base : BitVec 64}

/--
Every program can write to every byte of the direct map. If another one has the byte in its lower half, it reads what
has been written, and no program reads anything else in a new way.
-/
theorem Run.writes_direct (h : Run (sections.image virtual_base physical_base) kernel_top log s)
    (hend : sections.data_end_addr ≤ 2 ^ 64) {p : P} {m : Addr} (hm : s.vmap p = some m) {phys : Addr}
    (hphys : InDirect phys) (b : UInt8)
    : ∃ mem, writeVirt s.kernel.mem m (P2V phys) b = some mem ∧ readByte mem (P2V phys) = b ∧
        ∀ q m' a, s.vmap q = some m' → physical s.kernel.mem m' a = some phys →
          ∀ r m'' a', s.vmap r = some m'' →
            readUser mem m'' a' = if r = q ∧ a' = a then some b else readUser s.kernel.mem m'' a' := by
  rcases h.keeps_private with ⟨maps, hprivate, hkernel⟩
  have hwrite := @Owned.writeVirt_direct s.kernel kernel_top m maps phys b sections virtual_base physical_base
    hprivate.owned (hprivate.made p m hm) hend hkernel hphys
  refine ⟨_, hwrite, ?_, ?_⟩
  . rw [readByte_writeBytes, BitVec.sub_self, if_pos (by decide)]
  . intro q m' a hm' hphysical r m'' a' hm''
    have htop := hprivate.made q m' hm'
    rcases physical_backs hphysical with ⟨t, hback, hbyte⟩
    rw [← hbyte]
    by_cases hr : r = q
    . rw [hr, hm'] at hm''
      rw [← Option.some.inj hm'', hprivate.owned.store_read htop hback rfl]
      simp only [hr, true_and]
    . have hne : m'' ≠ m' := by
        rintro rfl
        exact hr (hprivate.apart r q m'' hm'' hm')
      rw [if_neg fun h => hr h.1]
      exact (hprivate.owned.store_only htop hback rfl).other m'' (hprivate.made r m'' hm'') hne a'

theorem Run.writes_direct_started
    : ∃ (kernel_top m : Addr) (image : UserAddr → Option UInt8) (s : Procs Unit),
        Run smallKernel kernel_top [.exec () image, .store () (exec.stackva.setWidth 47) 7] s ∧ s.vmap () = some m ∧
          ∃ mem, writeVirt s.kernel.mem m (P2V 0x1000#64) 1 = some mem ∧ readByte mem (P2V 0x1000#64) = 1 ∧
            ∀ a, physical s.kernel.mem m a = some 0x1000#64 → readUser mem m a = some 1 ∧
              (a ≠ exec.stackva.setWidth 47 → readUser mem m (exec.stackva.setWidth 47) = some 7) := by
  rcases exists_stored with ⟨kernel_top, m, image, s, hrun, hm⟩
  have hphys : InDirect 0x1000#64 := by
    unfold InDirect
    decide
  have hstack : readUser s.kernel.mem m (exec.stackva.setWidth 47) = some 7 := by
    rcases hrun.keeps_private with ⟨maps, hprivate, _⟩
    rw [hprivate.reads () m hm]
    simp [Journal.replay, Access.effect]
  rcases Run.writes_direct hrun (by decide) hm hphys 1 with ⟨mem, hwrite, hread, hlower⟩
  refine ⟨kernel_top, m, image, s, hrun, hm, mem, hwrite, hread, ?_⟩
  intro a ha
  have hreads := hlower () m a hm ha () m
  refine ⟨?_, ?_⟩
  . rw [hreads a hm, if_pos ⟨rfl, rfl⟩]
  . intro hne
    rw [hreads _ hm, if_neg fun h => hne h.2.symm, hstack]

end Procs

end Exec
end Franklin
