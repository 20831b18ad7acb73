import Franklin.Exec.Lemmas.Supply
import Franklin.Fs.Lemmas.File
import Franklin.Vmm.Lemmas.Twin

/-!
This module contains what `loadelf` does for one program header of the type `PT_LOAD`.
-/

open Radix

namespace Franklin
namespace Exec

open Vmm (Addr Mem Vm Good Word Confined P2V single next entries Free vpn page)
open Pmm (Bitmap bitmap_test FreeRun setRun)

section Frame

variable {mem mem' : Mem} {p m n k : Nat} {t : Addr} {f : Nat → UInt8}

theorem P2V_add (a b : Addr) : P2V (a + b) = P2V a + b := by
  unfold Vmm.P2V
  generalize Vmm.HHDM_OFFSET = offset
  rw [BitVec.add_assoc, BitVec.add_comm b, ← BitVec.add_assoc]

theorem frame_add (p j : Nat) : frame (p + j) = frame p + BitVec.ofNat 64 (j * PGSIZE) := by
  unfold frame
  rw [Nat.add_mul, BitVec.ofNat_add]

theorem P2V_frame_add (p j k : Nat)
    : P2V (frame p) + BitVec.ofNat 64 (j * PGSIZE + k) = P2V (frame (p + j)) + BitVec.ofNat 64 k := by
  rw [frame_add, P2V_add, BitVec.ofNat_add, BitVec.add_assoc]

theorem hhdm_aligned : Vmm.HHDM_OFFSET.toNat % PGSIZE = 0 := by
  decide

theorem P2V_frame_aligned (p : Nat) : (P2V (frame p)).toNat % PGSIZE = 0 := by
  have hhdm := hhdm_aligned
  unfold Vmm.P2V frame
  generalize Vmm.HHDM_OFFSET = offset at *
  rw [BitVec.toNat_add, BitVec.toNat_ofNat]
  unfold PGSIZE at *
  omega

theorem sub_aligned {a b : Addr} (ha : a.toNat % PGSIZE = 0) (hb : b.toNat % PGSIZE = 0) (hk : k < PGSIZE)
    : (a - b).toNat % PGSIZE = 0 ∧ (a + BitVec.ofNat 64 k - b).toNat = (a - b).toNat + k := by
  have halt := a.isLt
  have hblt := b.isLt
  unfold PGSIZE at *
  simp only [BitVec.toNat_sub, BitVec.toNat_add, BitVec.toNat_ofNat]
  omega

theorem pageStart_frame (p k : Nat)
    : pageStart (P2V (frame p) + BitVec.ofNat 64 k) = P2V (frame (p + k / PGSIZE)) := by
  have hsplit : k / PGSIZE * PGSIZE + k % PGSIZE = k := Nat.div_add_mod' k PGSIZE
  conv => lhs; rw [← hsplit, P2V_frame_add]
  exact pageStart_add (P2V_frame_aligned _) (Nat.mod_lt _ (by unfold PGSIZE; omega))

theorem readByte_frame (h : mem' (P2V (frame (p + k / PGSIZE))) = mem (P2V (frame (p + k / PGSIZE))))
    : readByte mem' (P2V (frame p) + BitVec.ofNat 64 k) = readByte mem (P2V (frame p) + BitVec.ofNat 64 k) := by
  apply readByte_congr
  rw [pageStart_frame]
  exact h

theorem writeBytes_frame (hn : n ≤ m * PGSIZE) (ht : ∀ q, p ≤ q → q < p + m → t ≠ P2V (frame q))
    : writeBytes mem (P2V (frame p)) n f t = mem t := by
  have hbase := P2V_frame_aligned p
  by_cases halign : t.toNat % PGSIZE = 0
  . apply writeBytes_of_disjoint
    intro k hk hlt
    rcases sub_aligned halign hbase hk with ⟨hdiv, hoffset⟩
    rw [hoffset] at hlt
    have hmul : (t - P2V (frame p)).toNat / PGSIZE * PGSIZE = (t - P2V (frame p)).toNat := Nat.div_mul_cancel
      (Nat.dvd_of_mod_eq_zero hdiv)
    have hpage : (t - P2V (frame p)).toNat / PGSIZE < m := by
      apply Nat.div_lt_of_lt_mul
      rw [Nat.mul_comm]
      omega
    apply ht (p + (t - P2V (frame p)).toNat / PGSIZE) (Nat.le_add_right _ _) (Nat.add_lt_add_left hpage p)
    rw [frame_add, P2V_add, hmul, BitVec.ofNat_toNat, BitVec.setWidth_eq, BitVec.add_comm, BitVec.sub_add_cancel]
  . unfold writeBytes
    funext i
    rw [if_neg halign]

theorem readByte_written (p : Nat) (hk : k < 2 ^ 64)
    : readByte (writeBytes mem (P2V (frame p)) n f) (P2V (frame p) + BitVec.ofNat 64 k) =
        if k < n then f k else readByte mem (P2V (frame p) + BitVec.ofNat 64 k) := by
  have hoffset : (P2V (frame p) + BitVec.ofNat 64 k - P2V (frame p)).toNat = k := by
    rw [BitVec.add_comm, BitVec.add_sub_cancel, BitVec.toNat_ofNat]
    exact Nat.mod_eq_of_lt hk
  rw [readByte_writeBytes, hoffset]

theorem writeBytes_window (mem : Mem) (a : Addr) (n : Nat) : writeBytes mem a n (window mem a n).byte = mem := by
  funext t i
  unfold writeBytes
  split
  . next halign =>
    conv => rhs; rw [← Endian.word_byte (mem t i)]
    apply Endian.word_congr
    intro k hk
    have hi := i.isLt
    dsimp only
    split
    . unfold window
      dsimp only
      rw [BitVec.ofNat_toNat, BitVec.setWidth_eq, BitVec.add_comm, BitVec.sub_add_cancel]
      unfold readByte
      rw [pageStart_add halign (by unfold PGSIZE; omega)]
      have htlt := t.isLt
      congr 2
      . apply BitVec.eq_of_toNat_eq
        unfold PGSIZE at halign
        simp only [BitVec.toNat_add, BitVec.toNat_ofNat]
        omega
      . unfold PGSIZE at halign
        simp only [BitVec.toNat_add, BitVec.toNat_ofNat]
        omega
    . rfl
  . rfl

end Frame

section Read

variable {vn vn' : Fs.File} {buf buf' : Block} {offset count : BitVec 64} {r : Fs.Ret} {s s' : State}

def content (vn : Fs.File) (offset : BitVec 64) (k : Nat) : UInt8 :=
  vn.data.mem.byte (offset.toInt + k).toNat

theorem vfs_read_of_copies (h : Copies vn offset count)
    : Fs.vfs_read buf offset count vn =
        if buf.Inside 0 count.toNat ∧ vn.data.mem.Inside offset.toInt count.toNat then
          .ok (.ok (count.setWidth 32).toInt, buf.overlay 0 vn.data.mem offset.toInt count.toNat) vn
        else
          .error .fault { vn with lock := true, ramlock := true } := by
  rcases vn with ⟨type, lock, ramlock, data, size⟩
  rcases h with ⟨hlock, htype, hramlock, hsize, hdata⟩
  dsimp only at *
  rw [Fs.File.vfs_read_eq, hlock, hramlock]
  dsimp only
  rw [if_neg Bool.false_ne_true, if_neg htype, Fs.File.ramfs_read_eq rfl]
  dsimp only
  rw [if_neg hsize]
  by_cases hin : buf.Inside 0 count.toNat ∧ data.mem.Inside offset.toInt count.toNat
  . rw [if_pos hin, if_pos hin]
    cases data with
    | null => exact absurd rfl hdata
    | _ => rw [if_neg Bool.false_ne_true]
  . rw [if_neg hin, if_neg hin]
    cases data with
    | null => exact absurd rfl hdata
    | _ => rw [if_neg Bool.false_ne_true]

theorem vfs_read_of_not_copies (h : ¬ Copies vn offset count)
    : (∃ r, ∀ buf, Fs.vfs_read buf offset count vn = .ok (r, buf) vn)
        ∨ ∃ e vn', ∀ buf, Fs.vfs_read buf offset count vn = .error e vn' := by
  rcases vn with ⟨type, lock, ramlock, data, size⟩
  unfold Copies at h
  dsimp only at h
  cases lock with
  | true =>
    right
    refine ⟨.hang, ⟨type, true, ramlock, data, size⟩, fun buf => ?_⟩
    rw [Fs.File.vfs_read_eq]
    rfl
  | false =>
    by_cases htype : type = .VDIR
    . left
      refine ⟨.error .EISDIR, fun buf => ?_⟩
      rw [Fs.File.vfs_read_eq]
      dsimp only
      rw [if_neg Bool.false_ne_true, if_pos htype]
    . cases ramlock with
      | true =>
        right
        refine ⟨.hang, ⟨type, true, true, data, size⟩, fun buf => ?_⟩
        rw [Fs.File.vfs_read_eq]
        dsimp only
        rw [if_neg Bool.false_ne_true, if_neg htype, Fs.File.ramfs_read_hang rfl]
      | false =>
        left
        by_cases hsize : size < offset + count
        . refine ⟨.error .EINVAL, fun buf => ?_⟩
          rw [Fs.File.vfs_read_eq]
          dsimp only
          rw [if_neg Bool.false_ne_true, if_neg htype, Fs.File.ramfs_read_eq rfl]
          dsimp only
          rw [if_pos hsize]
        . cases data with
          | null =>
            refine ⟨.ok 0, fun buf => ?_⟩
            rw [Fs.File.vfs_read_eq]
            dsimp only
            rw [if_neg Bool.false_ne_true, if_neg htype, Fs.File.ramfs_read_eq rfl]
            dsimp only
            rw [if_neg hsize, if_pos rfl]
          | _ => exact absurd ⟨rfl, htype, rfl, hsize, Bool.false_ne_true⟩ h

theorem vfs_read_ok (h : Fs.vfs_read buf offset count vn = .ok (r, buf') vn')
    : (Copies vn offset count ∧ buf' = buf.overlay 0 vn.data.mem offset.toInt count.toNat)
        ∨ (¬ Copies vn offset count ∧ buf' = buf) := by
  by_cases hcopies : Copies vn offset count
  . rw [vfs_read_of_copies hcopies] at h
    split at h
    . cases h
      exact Or.inl ⟨hcopies, rfl⟩
    . cases h
  . rcases vfs_read_of_not_copies hcopies with ⟨r', hr⟩ | ⟨e, vn₁, he⟩
    . rw [hr] at h
      cases h
      exact Or.inr ⟨hcopies, rfl⟩
    . rw [he] at h
      cases h

theorem vfs_read_twin {buf₂ : Block} (h : Fs.vfs_read buf offset count vn = .ok (r, buf') vn')
    (hsize : buf₂.size = buf.size) : ∃ buf₂', Fs.vfs_read buf₂ offset count vn = .ok (r, buf₂') vn' := by
  by_cases hcopies : Copies vn offset count
  . have hinside : buf₂.Inside 0 count.toNat ↔ buf.Inside 0 count.toNat := by
      unfold Block.Inside
      rw [hsize]
    rw [vfs_read_of_copies hcopies] at h ⊢
    split at h
    . next hin =>
      cases h
      rw [if_pos ⟨hinside.mpr hin.1, hin.2⟩]
      exact ⟨_, rfl⟩
    . cases h
  . rcases vfs_read_of_not_copies hcopies with ⟨r', hr⟩ | ⟨e, vn₁, he⟩
    . rw [hr] at h ⊢
      cases h
      exact ⟨buf₂, rfl⟩
    . rw [he] at h
      cases h

theorem writeBytes_congr {mem : Mem} {a : Addr} {n : Nat} {f g : Nat → UInt8} (h : ∀ k, k < n → f k = g k)
    : writeBytes mem a n f = writeBytes mem a n g := by
  funext t i
  unfold writeBytes
  split
  . apply Endian.word_congr
    intro k _
    dsimp only
    split
    . next hlt => exact h _ hlt
    . rfl
  . rfl

def copyMem (vn : Fs.File) (mem : Mem) (paddr : Addr) (offset count : BitVec 64) : Mem :=
  if Copies vn offset count then writeBytes mem (P2V paddr) count.toNat (content vn offset) else mem

theorem readPages_wp {paddr : Addr} {pages : Nat}
    : wp (readPages vn paddr pages offset count)
        (fun _ s' => s' = { s with
          mem := copyMem vn s.mem paddr offset count
          copies := copied vn paddr pages offset count ++ s.copies })
        (fun _ s' => s' = { s with copies := copied vn paddr pages offset count ++ s.copies }) s := by
  unfold wp readPages copyMem
  dsimp only
  cases hread : Fs.vfs_read (window s.mem (P2V paddr) count.toNat) offset count vn with
  | error e vn' => rfl
  | ok res vn' =>
    rcases res with ⟨r, buf⟩
    dsimp only
    rcases vfs_read_ok hread with ⟨hcopies, rfl⟩ | ⟨hcopies, rfl⟩
    . rw [if_pos hcopies]
      congr 1
      apply writeBytes_congr
      intro k hk
      rw [Block.overlay_inside (by omega)]
      unfold content
      rw [Int.sub_zero]
    . rw [if_neg hcopies, writeBytes_window]

end Read

section Within

def New (s s' : State) (q : Nat) : Prop :=
  q < s.bm.pages ∧ bitmap_test s.bm q = false ∧ bitmap_test s'.bm q = true

structure Held (s s' : State) : Prop where
  pages : s'.bm.pages = s.bm.pages
  bits : ∀ q, q < s.bm.pages → bitmap_test s.bm q = true → bitmap_test s'.bm q = true

section Held

variable {s s' s'' : State} {p q n : Nat}

theorem Held.of_eq (h : s'.bm = s.bm) : Held s s' where
  pages := by rw [h]
  bits _ _ hset := by rw [h]; exact hset

theorem Held.refl (s : State) : Held s s :=
  Held.of_eq rfl

theorem Held.trans (h : Held s s') (h' : Held s' s'') : Held s s'' where
  pages := by rw [h'.pages, h.pages]
  bits p hp hset := h'.bits p (by rw [h.pages]; exact hp) (h.bits p hp hset)

theorem Held.freeRun (h : Held s s') (hrun : FreeRun s'.bm p n) : FreeRun s.bm p n := by
  have hle := hrun.1
  rw [h.pages] at hle
  refine ⟨hle, ?_⟩
  intro i hi hi'
  have hclear := hrun.2 i hi hi'
  rw [Bool.eq_false_iff] at *
  intro hset
  exact hclear (h.bits i (by omega) hset)

theorem Held.of_setRun (h : s'.bm = setRun s.bm p n) : Held s s' where
  pages := by rw [h, setRun_pages]
  bits q _ hset := by
    rw [h, setRun_test]
    exact Or.inl hset

theorem Held.withVm (s : State) (vm : Vm) : Held s (s.withVm vm) where
  pages := withVm_pages s vm
  bits _ hp hset := (taken_test hp).mpr (Or.inl hset)

theorem Held.new (h : Held s s') (hq : New s' s'' q) : New s s'' q := by
  have hlt := hq.1
  rw [h.pages] at hlt
  refine ⟨hlt, ?_, hq.2.2⟩
  rw [Bool.eq_false_iff]
  intro hset
  have hclear := hq.2.1
  rw [h.bits q hlt hset] at hclear
  cases hclear

end Held

structure Within (shape : Shape Addr (BitVec 9)) (s s' : State) : Prop where
  pages : s'.bm.pages = s.bm.pages
  bits : ∀ q, q < s.bm.pages → bitmap_test s.bm q = true → bitmap_test s'.bm q = true
  good : Good shape s'.vm
  grows : shape.Extends next s.mem s'.mem
  reaches : ∀ path t, shape.Reaches next s'.mem path t →
    shape.Reaches next s.mem path t ∨ ∃ q, New s s' q ∧ t = P2V (frame q)
  mem : ∀ t i, ¬ Word shape s.mem t i → (∀ q, New s s' q → t ≠ P2V (frame q)) → s'.mem t i = s.mem t i

variable {shape : Shape Addr (BitVec 9)} {s s' s'' : State} {q : Nat}

theorem Within.refl (h : Good shape s.vm) : Within shape s s where
  pages := rfl
  bits _ _ h := h
  good := h
  grows := Shape.Extends.refl s.mem
  reaches _ _ h := Or.inl h
  mem _ _ _ _ := rfl

theorem Within.new_left (h : Within shape s s') (h' : Within shape s' s'') (hq : New s s' q) : New s s'' q := by
  refine ⟨hq.1, hq.2.1, h'.bits q ?_ hq.2.2⟩
  rw [h.pages]
  exact hq.1

theorem Within.held (h : Within shape s s') : Held s s' where
  pages := h.pages
  bits := h.bits

theorem Within.new_right (h : Within shape s s') (hq : New s' s'' q) : New s s'' q :=
  h.held.new hq

theorem Within.trans (h : Within shape s s') (h' : Within shape s' s'') : Within shape s s'' where
  pages := by rw [h'.pages, h.pages]
  bits q hq hset := h'.bits q (by rw [h.pages]; exact hq) (h.bits q hq hset)
  good := h'.good
  grows := h.grows.trans h'.grows
  reaches path t hreaches := by
    rcases h'.reaches path t hreaches with hold | ⟨q, hq, ht⟩
    . rcases h.reaches path t hold with hold | ⟨q, hq, ht⟩
      . exact Or.inl hold
      . exact Or.inr ⟨q, h.new_left h' hq, ht⟩
    . exact Or.inr ⟨q, h.new_right hq, ht⟩
  mem t i hword hnew := by
    have hword' : ¬ Word shape s'.mem t i := by
      rintro ⟨path, hreaches, hvalid⟩
      rcases h.reaches path t hreaches with hold | ⟨q, hq, ht⟩
      . exact hword ⟨path, hold, hvalid⟩
      . exact hnew q (h.new_left h' hq) ht
    rw [h'.mem t i hword' (fun q hq => hnew q (h.new_right hq)),
      h.mem t i hword (fun q hq => hnew q (h.new_left h' hq))]

theorem Within.clear_eq (h : Within shape s s') (hgood : Good shape s.vm) (hq : q < s.bm.pages)
    (hclear : bitmap_test s'.bm q = false) : s'.mem (P2V (frame q)) = s.mem (P2V (frame q)) := by
  have hold : bitmap_test s.bm q = false := by
    rw [Bool.eq_false_iff] at *
    intro hset
    exact hclear (h.bits q hq hset)
  funext i
  apply h.mem
  . rintro ⟨path, hreaches, _⟩
    exact hgood.fresh (frame q) (vm_supply_iff.mpr ⟨q, hq, hold, rfl⟩) path hreaches
  . intro q' hq' heq
    have hlt := s.bm.pages_lt
    have hsame : q = q' := frame_inj (by omega) (by have := hq'.1; omega) (Vmm.P2V_inj heq)
    rw [← hsame] at hq'
    rw [hq'.2.2] at hclear
    cases hclear

theorem Within.set_eq (h : Within shape s s') (hq : q < s.bm.pages) (hset : bitmap_test s.bm q = true)
    (htable : ∀ path, ¬ shape.Reaches next s.mem path (P2V (frame q)))
    : s'.mem (P2V (frame q)) = s.mem (P2V (frame q)) ∧ ∀ path, ¬ shape.Reaches next s'.mem path (P2V (frame q)) := by
  have hnew : ∀ q', New s s' q' → P2V (frame q) ≠ P2V (frame q') := by
    intro q' hq' heq
    have hlt := s.bm.pages_lt
    have hsame : q = q' := frame_inj (by omega) (by have := hq'.1; omega) (Vmm.P2V_inj heq)
    rw [← hsame] at hq'
    have hclear := hq'.2.1
    rw [hset] at hclear
    cases hclear
  constructor
  . funext i
    apply h.mem _ _ _ hnew
    rintro ⟨path, hreaches, _⟩
    exact htable path hreaches
  . intro path hreaches
    rcases h.reaches path _ hreaches with hold | ⟨q', hq', heq⟩
    . exact htable path hold
    . exact hnew q' hq' heq

end Within

section Steps

variable {shape : Shape Addr (BitVec 9)} {s s' : State} {n p : Nat} {top_level : Addr}
variable {vaddr paddr size flags : BitVec 64}

theorem Within.setRun (h : Good shape s.vm) (p n : Nat) : Within shape s { s with bm := setRun s.bm p n } where
  pages := setRun_pages _ _ _
  bits q _ hset := (setRun_test _ _ _ _).mpr (Or.inl hset)
  good := by
    apply h.mono
    . rfl
    . exact supply_nodup _ _
    . intro page hpage
      rcases vm_supply_iff.mp hpage with ⟨q, hq, hclear, rfl⟩
      dsimp only at hq hclear
      rw [setRun_pages] at hq
      refine vm_supply_iff.mpr ⟨q, hq, ?_, rfl⟩
      rw [Bool.eq_false_iff] at *
      intro hset
      exact hclear ((setRun_test _ _ _ _).mpr (Or.inl hset))
  grows := Shape.Extends.refl s.mem
  reaches _ _ h := Or.inl h
  mem _ _ _ _ := rfl

theorem new_of_used {vm : Vm} (hsupply : ∃ used, s.vm.supply = used ++ vm.supply) {t : Addr}
    (h : Vmm.Used s.vm vm t) : ∃ q, New s (s.withVm vm) q ∧ t = P2V (frame q) := by
  rcases h with ⟨page, hmem, hnot, ht⟩
  rcases vm_supply_iff.mp hmem with ⟨q, hq, hclear, rfl⟩
  exact ⟨q, ⟨hq, hclear, (withVm_test hsupply hq).mpr (Or.inr ⟨frame q, hmem, hnot, rfl⟩)⟩, ht⟩

theorem used_of_new {vm : Vm} (hsupply : ∃ used, s.vm.supply = used ++ vm.supply) {q : Nat}
    (h : New s (s.withVm vm) q) : Vmm.Used s.vm vm (P2V (frame q)) := by
  rcases h with ⟨hq, hclear, hset⟩
  rcases (withVm_test hsupply hq).mp hset with hold | hused
  . rw [hold] at hclear
    cases hclear
  . exact hused

theorem Within.withVm {vm : Vm} (hgood : Good shape vm) (hconf : Confined shape s.vm vm)
    : Within shape s (s.withVm vm) where
  pages := withVm_pages _ _
  bits q hq hset := (withVm_test hconf.supply hq).mpr (Or.inl hset)
  good := withVm_good hconf.supply hgood
  grows := hconf.grows
  reaches path t hreaches := (hconf.reaches path t hreaches).imp_right (new_of_used hconf.supply)
  mem t i hword hnew := by
    apply hconf.mem t i hword
    intro hused
    rcases new_of_used hconf.supply hused with ⟨q, hq, ht⟩
    exact hnew q hq ht

theorem palloc_wp (s : State) (hn : n ≤ 2 ^ 52)
    : wp (palloc n)
        (fun paddr s' => ∃ p, paddr = frame p ∧ FreeRun s.bm p n ∧ s' = { s with bm := setRun s.bm p n }
          ∧ Pmm.palloc s.bm n = some (p * PGSIZE, setRun s.bm p n))
        (fun _ s' => s' = s) s := by
  unfold wp palloc
  cases hpalloc : Pmm.palloc s.bm n with
  | none => rfl
  | some res =>
    rcases res with ⟨addr, bm⟩
    rcases palloc_run hn hpalloc with ⟨p, rfl, rfl, hrun⟩
    exact ⟨p, rfl, hrun, rfl, rfl⟩

theorem palloc_eq {bm : Bitmap} (h : Pmm.palloc s.bm n = some (p * PGSIZE, bm))
    : palloc n s = .ok (frame p) { s with bm } := by
  unfold palloc
  rw [h]
  rfl

structure Maps (top_level : Addr) (vaddr paddr flags : BitVec 64) (n : Nat) (s s' : State) : Prop where
  within : Within (single top_level) s s'
  entries : entries s'.mem top_level = FirstWins.insertAll Free (entries s.mem top_level)
    ((List.range' 0 n).map (Vmm.mappages.mapping vaddr paddr flags))
  tables : ∀ q, New s s' q → ∃ path, (single top_level).Reaches next s'.mem path (P2V (frame q))
  same : ∃ vm, s' = s.withVm vm

theorem mappages_eq {vm : Vm}
    (h : Vmm.mappages.go s.vm top_level vaddr paddr flags 0#64 (size.toNat / PGSIZE) = some vm)
    : mappages top_level vaddr paddr size flags s = .ok () (s.withVm vm) := by
  unfold mappages Vmm.mappages
  dsimp only
  rw [h]

theorem mappages_wp (hgood : Good (single top_level) s.vm)
    : wp (mappages top_level vaddr paddr size flags)
        (fun _ s' => Maps top_level vaddr paddr flags (size.toNat / PGSIZE) s s') (fun _ s' => s' = s) s := by
  unfold wp mappages
  cases hmap : Vmm.mappages s.vm top_level vaddr paddr size flags with
  | none => rfl
  | some res =>
    rcases res with ⟨r, vm⟩
    unfold Vmm.mappages at hmap
    dsimp only at hmap
    split at hmap
    . cases hmap
    . next vm' hgo =>
      cases hmap
      rcases Vmm.mappages.go_confined hgood hgo with ⟨hgood', hconf⟩
      constructor
      case within => exact Within.withVm hgood' hconf
      case entries => exact @Vmm.mappages.go_entries s.vm vm top_level vaddr paddr flags 0 _ hgood hgo
      case tables =>
        intro q hq
        exact hconf.used _ (used_of_new hconf.supply hq)
      case same => exact ⟨vm, rfl⟩

end Steps

namespace Copy

def Inside (c : Copy) : Prop :=
  ∀ k, k < c.count → (c.dest + BitVec.ofNat 64 k - P2V c.page).toNat < c.pages * PGSIZE

def HasPage (c : Copy) (t : Addr) : Prop :=
  ∃ j, j < c.pages ∧ t = P2V (Vmm.page c.page j)

end Copy

/--
Nothing has been written but the pages that were allocated for the segments and the tables of the new map.
-/
def OnlyWrites (vmap : Addr) (s s' : State) : Prop :=
  ∃ new, s'.copies = new ++ s.copies
    ∧ (∀ c ∈ new, c.Inside)
    ∧ ∀ t i, s'.mem t i ≠ s.mem t i → Vmm.IsTable s'.mem vmap t ∨ ∃ c ∈ new, c.HasPage t

structure Loads (vmap : Addr) (vn : Fs.File) (phdr : Block) (s s' : State) (p : Nat) : Prop where
  palloc : Pmm.palloc s.bm (pagecount phdr).toNat = some (p * PGSIZE, setRun s.bm p (pagecount phdr).toNat)
  run : FreeRun s.bm p (pagecount phdr).toNat
  within : Within (single vmap) s s'
  entries : entries s'.mem vmap = FirstWins.insertAll Free (entries s.mem vmap)
    ((List.range' 0 (pagecount phdr).toNat).map (Vmm.mappages.mapping (p_vaddr phdr) (frame p) (flags phdr)))
  taken : ∀ q, p ≤ q → q < p + (pagecount phdr).toNat → bitmap_test s'.bm q = true
  apart : ∀ q, p ≤ q → q < p + (pagecount phdr).toNat →
    ∀ path, ¬ (single vmap).Reaches next s'.mem path (P2V (frame q))
  used : ∀ q, New s s' q →
    (p ≤ q ∧ q < p + (pagecount phdr).toNat) ∨ ∃ path, (single vmap).Reaches next s'.mem path (P2V (frame q))
  content : ∀ k, k < (pagecount phdr).toNat * PGSIZE →
    readByte s'.mem (P2V (frame p) + BitVec.ofNat 64 k) =
      if Copies vn (p_offset phdr) (p_filesz phdr) ∧ k < (p_filesz phdr).toNat then
        content vn (p_offset phdr) k
      else
        readByte s.mem (P2V (frame p) + BitVec.ofNat 64 k)
  only : OnlyWrites vmap s s'

section Segment

variable {vmap : Addr} {vn : Fs.File} {phdr : Block} {s s' s'' : State} {p n : Nat} {offset count : BitVec 64}
  {mem : Mem}

theorem OnlyWrites.refl (vmap : Addr) (s : State) : OnlyWrites vmap s s := by
  refine ⟨[], rfl, ?_, ?_⟩
  . intro c hc
    cases hc
  . intro t i hne
    exact absurd rfl hne

theorem OnlyWrites.trans (h : OnlyWrites vmap s s') (h' : OnlyWrites vmap s' s'')
    (hgrows : (single vmap).Extends next s'.mem s''.mem) : OnlyWrites vmap s s'' := by
  rcases h with ⟨new, hnew, hin, hmem⟩
  rcases h' with ⟨new', hnew', hin', hmem'⟩
  refine ⟨new' ++ new, ?_, ?_, ?_⟩
  . rw [hnew', hnew, List.append_assoc]
  . intro c hc
    rcases List.mem_append.mp hc with hc | hc
    . exact hin' c hc
    . exact hin c hc
  . intro t i hne
    by_cases hsame : s''.mem t i = s'.mem t i
    . rw [hsame] at hne
      rcases hmem t i hne with ⟨path, hpath⟩ | ⟨c, hc, hpage⟩
      . left
        have hreaches := hgrows.reaches (Vmm.single_reaches_iff.mpr hpath)
        exact ⟨path, Vmm.single_reaches_iff.mp hreaches⟩
      . exact Or.inr ⟨c, List.mem_append_right _ hc, hpage⟩
    . rcases hmem' t i hsame with htable | ⟨c, hc, hpage⟩
      . exact Or.inl htable
      . exact Or.inr ⟨c, List.mem_append_left _ hc, hpage⟩

theorem pgsize_toNat : pgsize.toNat = 4096 := by
  rfl

theorem pagecount_lt (phdr : Block) : (pagecount phdr).toNat < 2 ^ 52 := by
  unfold pagecount DIV_ROUNDUP
  have hlt := (p_memsz phdr + pgsize - 1).isLt
  rw [BitVec.toNat_udiv, pgsize_toNat]
  omega

theorem pagecount_size (phdr : Block) : (pagecount phdr * pgsize).toNat / PGSIZE = (pagecount phdr).toNat := by
  have hlt := pagecount_lt phdr
  rw [BitVec.toNat_mul, pgsize_toNat]
  unfold PGSIZE
  omega

theorem page_frame (p j : Nat) : page (frame p) j = frame (p + j) := by
  unfold Vmm.page
  rw [frame_add]

theorem copyMem_frame {t : Addr} (hfit : Copies vn offset count → count.toNat ≤ n * PGSIZE)
    (ht : ∀ q, p ≤ q → q < p + n → t ≠ P2V (frame q)) : copyMem vn mem (frame p) offset count t = mem t := by
  unfold copyMem
  split
  . next hcopies => exact writeBytes_frame (hfit hcopies) ht
  . rfl

theorem copied_inside (hfit : Copies vn offset count → count.toNat ≤ n * PGSIZE) {c : Copy}
    (hc : c ∈ copied vn (frame p) n offset count) : c.Inside := by
  unfold copied at hc
  split at hc
  . next hcopies =>
    rw [List.mem_singleton] at hc
    rw [hc]
    intro k hk
    dsimp only at *
    have hlt := count.isLt
    have hle := hfit hcopies
    rw [BitVec.add_comm, BitVec.add_sub_cancel, BitVec.toNat_ofNat, Nat.mod_eq_of_lt (by omega)]
    omega
  . cases hc

theorem run_kept {s₁ : State} (hgood : Good (single vmap) s.vm) (hrun : FreeRun s.bm p n)
    (hs₁ : s₁ = { s with bm := setRun s.bm p n }) (hwithin : Within (single vmap) s₁ s') {q : Nat} (hq : p ≤ q)
    (hq' : q < p + n)
    : New s s' q ∧ s'.mem (P2V (frame q)) = s.mem (P2V (frame q))
        ∧ ∀ path, ¬ (single vmap).Reaches next s'.mem path (P2V (frame q)) := by
  have hlt : q < s.bm.pages := by
    have hle := hrun.1
    omega
  have hclear := hrun.2 q hq hq'
  have htable := hgood.fresh (frame q) (vm_supply_iff.mpr ⟨q, hlt, hclear, rfl⟩)
  have hset : bitmap_test s₁.bm q = true := by
    rw [hs₁]
    exact (setRun_test _ _ _ _).mpr (Or.inr ⟨hq, hq'⟩)
  have hlt₁ : q < s₁.bm.pages := by
    rw [hs₁]
    dsimp only
    rw [setRun_pages]
    exact hlt
  have hmem : s₁.mem = s.mem := by
    rw [hs₁]
  have hkept := hwithin.set_eq hlt₁ hset (by rw [hmem]; exact htable)
  rw [hmem] at hkept
  exact ⟨⟨hlt, hclear, hwithin.bits q hlt₁ hset⟩, hkept⟩

theorem Within.copyMem {paddr : Addr} {copies : List Copy} (h : Within (single vmap) s s')
    (hfit : Copies vn offset count → count.toNat ≤ n * PGSIZE) (hpaddr : paddr = frame p)
    (hnew : ∀ q, p ≤ q → q < p + n → New s s' q)
    (htable : ∀ q, p ≤ q → q < p + n → ∀ path, ¬ (single vmap).Reaches next s'.mem path (P2V (frame q)))
    : Within (single vmap) s { s' with mem := copyMem vn s'.mem paddr offset count, copies }
        ∧ Vmm.Agree (single vmap) s'.mem (copyMem vn s'.mem paddr offset count) := by
  rw [hpaddr]
  have hagree : Vmm.Agree (single vmap) s'.mem (Exec.copyMem vn s'.mem (frame p) offset count) := by
    intro path t hreaches
    apply copyMem_frame hfit
    intro q hq hq' heq
    rw [heq] at hreaches
    exact htable q hq hq' path hreaches
  refine ⟨?_, hagree⟩
  constructor
  case pages => exact h.pages
  case bits => exact h.bits
  case good => exact hagree.good h.good
  case grows => exact h.grows.trans hagree.grows
  case reaches =>
    intro path t hreaches
    exact h.reaches path t (hagree.reaches_iff.mp hreaches)
  case mem =>
    intro t i hword hother
    dsimp only
    rw [copyMem_frame hfit]
    . exact h.mem t i hword hother
    . intro q hq hq'
      exact hother q (hnew q hq hq')

theorem only_of_maps {s₁ : State} {flags vaddr paddr : BitVec 64} (hmaps : Maps vmap vaddr paddr flags n s₁ s')
    (hmem : s₁.mem = s.mem) {t : Addr} {i : BitVec 9} (hne : s'.mem t i ≠ s.mem t i)
    : ∃ path, (single vmap).Reaches next s'.mem path t := by
  by_contra hnot
  apply hne
  rw [← hmem]
  apply hmaps.within.mem
  . rintro ⟨path, hreaches, _⟩
    exact hnot ⟨path, hmaps.within.grows.reaches hreaches⟩
  . rintro q hq rfl
    exact hnot (hmaps.tables q hq)

theorem hasPage_of_copyMem {t : Addr} (hfit : Copies vn offset count → count.toNat ≤ n * PGSIZE)
    (hne : copyMem vn mem (frame p) offset count t ≠ mem t)
    : ∃ c ∈ copied vn (frame p) n offset count, c.HasPage t := by
  have hcopies : Copies vn offset count := by
    by_contra hnot
    apply hne
    unfold copyMem
    rw [if_neg hnot]
  by_contra hnone
  apply hne
  apply copyMem_frame hfit
  rintro q hq hq' rfl
  apply hnone
  unfold copied
  rw [if_pos hcopies]
  refine ⟨_, List.mem_singleton_self _, q - p, ?_, ?_⟩
  . dsimp only
    omega
  . dsimp only
    rw [page_frame, Nat.add_sub_cancel' hq]

theorem segment_wp (hgood : Good (single vmap) s.vm)
    (hfit : Copies vn (p_offset phdr) (p_filesz phdr) →
      (p_filesz phdr).toNat ≤ (pagecount phdr).toNat * PGSIZE)
    : wp (loadelf.segment vmap vn phdr) (fun _ s' => ∃ p, Loads vmap vn phdr s s' p)
        (fun _ s' => OnlyWrites vmap s s' ∧ (single vmap).Extends next s.mem s'.mem) s := by
  have hpages := pagecount_lt phdr
  unfold loadelf.segment
  apply wp_bind_mono (palloc_wp s (by omega))
  . rintro e s' rfl
    exact ⟨OnlyWrites.refl vmap s', Shape.Extends.refl _⟩
  . rintro paddr s₁ ⟨p, rfl, hrun, hs₁, hpalloc⟩
    have hwithin₁ := Within.setRun hgood p (pagecount phdr).toNat
    rw [← hs₁] at hwithin₁
    have hmem₁ : s₁.mem = s.mem := by
      rw [hs₁]
    have hcopies₁ : s₁.copies = s.copies := by
      rw [hs₁]
    apply wp_bind_mono (mappages_wp hwithin₁.good)
    . rintro e s' rfl
      refine ⟨⟨[], hcopies₁, ?_, ?_⟩, ?_⟩
      . intro c hc
        cases hc
      . intro t i hne
        rw [hmem₁] at hne
        exact absurd rfl hne
      . rw [hmem₁]
        exact Shape.Extends.refl _
    . rintro u s₂ hmaps
      rw [pagecount_size] at hmaps
      have hkept := fun q hq hq' => @run_kept vmap s s₂ p _ s₁ hgood hrun hs₁ hmaps.within q hq hq'
      have hcopies₂ : s₂.copies = s.copies := by
        rcases hmaps.same with ⟨vm, hvm⟩
        rw [hvm, ← hcopies₁]
        rfl
      have honly := fun {t i} => @only_of_maps vmap s s₂ _ s₁ _ _ _ hmaps hmem₁ t i
      apply wp_mono readPages_wp
      . rintro u s₃ rfl
        rcases (hwithin₁.trans hmaps.within).copyMem hfit rfl (fun q hq hq' => (hkept q hq hq').1)
          (fun q hq hq' => (hkept q hq hq').2.2) with ⟨hwithin, hagree⟩
        refine ⟨p, ?_⟩
        constructor
        case palloc => exact hpalloc
        case run => exact hrun
        case within => exact hwithin
        case entries =>
          rw [← hmem₁, ← hmaps.entries]
          funext v
          exact hagree.walk_same _
        case taken => exact fun q hq hq' => (hkept q hq hq').1.2.2
        case apart =>
          intro q hq hq' path hreaches
          exact (hkept q hq hq').2.2 path (hagree.reaches_iff.mp hreaches)
        case used =>
          rintro q ⟨hlt, hclear, hset⟩
          by_cases hin : p ≤ q ∧ q < p + (pagecount phdr).toNat
          . exact Or.inl hin
          . right
            have hnew : New s₁ s₂ q := by
              refine ⟨?_, ?_, hset⟩
              . rw [hwithin₁.pages]
                exact hlt
              . rw [hs₁, Bool.eq_false_iff]
                intro hset₁
                rcases (setRun_test _ _ _ _).mp hset₁ with hold | hrange
                . rw [hold] at hclear
                  cases hclear
                . exact hin hrange
            rcases hmaps.tables q hnew with ⟨path, hreaches⟩
            exact ⟨path, hagree.reaches_iff.mpr hreaches⟩
        case content =>
          intro k hk
          have hpage : k / PGSIZE < (pagecount phdr).toNat := by
            rw [Nat.div_lt_iff_lt_mul (by decide)]
            exact hk
          have hbound : k < 2 ^ 64 := by
            unfold PGSIZE at hk
            omega
          rw [← readByte_frame (hkept (p + k / PGSIZE) (Nat.le_add_right _ _) (by omega)).2.1]
          dsimp only
          unfold copyMem
          by_cases hcopies : Copies vn (p_offset phdr) (p_filesz phdr)
          . rw [if_pos hcopies, readByte_written p hbound]
            simp only [hcopies, true_and]
          . rw [if_neg hcopies, if_neg (fun h => hcopies h.1)]
        case only =>
          refine ⟨copied vn (frame p) (pagecount phdr).toNat (p_offset phdr) (p_filesz phdr), ?_, ?_, ?_⟩
          . dsimp only
            rw [hcopies₂]
          . intro c hc
            exact copied_inside hfit hc
          . intro t i hne
            dsimp only at hne ⊢
            by_cases hsame : copyMem vn s₂.mem (frame p) (p_offset phdr) (p_filesz phdr) t = s₂.mem t
            . rw [hsame] at hne
              rcases honly hne with ⟨path, hreaches⟩
              left
              exact ⟨path, Vmm.single_reaches_iff.mp (hagree.reaches_iff.mpr hreaches)⟩
            . right
              exact hasPage_of_copyMem hfit hsame
      . rintro e s₃ rfl
        refine ⟨⟨copied vn (frame p) (pagecount phdr).toNat (p_offset phdr) (p_filesz phdr), ?_, ?_, ?_⟩, ?_⟩
        . dsimp only
          rw [hcopies₂]
        . intro c hc
          exact copied_inside hfit hc
        . intro t i hne
          rcases honly hne with ⟨path, hreaches⟩
          exact Or.inl ⟨path, Vmm.single_reaches_iff.mp hreaches⟩
        . rw [← hmem₁]
          exact hmaps.within.grows

end Segment

/-!
The bytes of pages that are no tables do not matter for what `loadelf` does.
-/

def Twins (vmap : Addr) (s t : State) : Prop :=
  t.bm = s.bm ∧ Vmm.Agree (single vmap) s.mem t.mem

section Twin

variable {vmap paddr : Addr} {vaddr size flags : BitVec 64} {vn : Fs.File} {phdr : Block} {s s' t : State} {p n : Nat}
variable {offset count : BitVec 64}

theorem Twins.good (h : Twins vmap s t) (hgood : Good (single vmap) s.vm) : Good (single vmap) t.vm := by
  have hgood' := h.2.good hgood
  rcases t with ⟨fs, file, mem, bm, heap, slabs, id, regs, map, rsp0, copies⟩
  rcases h with ⟨hbm, _⟩
  dsimp only at hbm
  rw [hbm]
  exact hgood'

theorem mappages_twin (hgood : Good (single vmap) s.vm) (htwin : Twins vmap s t)
    (h : mappages vmap vaddr paddr size flags s = .ok () s')
    : ∃ t', mappages vmap vaddr paddr size flags t = .ok () t' ∧ Twins vmap s' t' := by
  have hsupply : t.vm.supply = s.vm.supply := by
    unfold State.vm
    rw [htwin.1]
  unfold mappages Vmm.mappages at h
  dsimp only at h
  cases hgo : Vmm.mappages.go s.vm vmap vaddr paddr flags 0#64 (size.toNat / PGSIZE) with
  | none =>
    rw [hgo] at h
    cases h
  | some vm =>
    rw [hgo] at h
    cases h
    rcases Vmm.mappages.go_twin hgood ⟨hsupply, htwin.2⟩ hgo with ⟨vm', hgo', htwin'⟩
    refine ⟨t.withVm vm', mappages_eq hgo', ?_, htwin'.agree⟩
    unfold State.withVm
    dsimp only
    rw [hsupply, htwin'.supply, htwin.1]

theorem readPages_twin {pages : Nat} (h : readPages vn paddr pages offset count s = .ok () s') (t : State)
    : ∃ t', readPages vn paddr pages offset count t = .ok () t' := by
  unfold readPages at h ⊢
  dsimp only at h ⊢
  cases hread : Fs.vfs_read (window s.mem (P2V paddr) count.toNat) offset count vn with
  | error e vn' =>
    rw [hread] at h
    cases h
  | ok res vn' =>
    rcases res with ⟨r, buf⟩
    have hsize : (window t.mem (P2V paddr) count.toNat).size = (window s.mem (P2V paddr) count.toNat).size := rfl
    rcases vfs_read_twin hread hsize with ⟨buf', hread'⟩
    rw [hread']
    exact ⟨_, rfl⟩

theorem segment_ok (hgood : Good (single vmap) s.vm)
    (hfit : Copies vn (p_offset phdr) (p_filesz phdr) →
      (p_filesz phdr).toNat ≤ (pagecount phdr).toNat * PGSIZE)
    (h : loadelf.segment vmap vn phdr s = .ok () s')
    : ∃ p s₂, Pmm.palloc s.bm (pagecount phdr).toNat = some (p * PGSIZE, setRun s.bm p (pagecount phdr).toNat)
        ∧ mappages vmap (p_vaddr phdr) (frame p) (pagecount phdr * pgsize) (Exec.flags phdr)
            { s with bm := setRun s.bm p (pagecount phdr).toNat } = .ok () s₂
        ∧ readPages vn (frame p) (pagecount phdr).toNat (p_offset phdr) (p_filesz phdr) s₂ = .ok () s'
        ∧ s'.bm = s₂.bm ∧ Vmm.Agree (single vmap) s₂.mem s'.mem := by
  have hpages := pagecount_lt phdr
  unfold loadelf.segment at h
  cases hpalloc : palloc (pagecount phdr).toNat s with
  | error e s₁ =>
    rw [bind_of_error hpalloc] at h
    cases h
  | ok paddr s₁ =>
    rw [bind_of_ok hpalloc] at h
    rcases (wp_of_ok hpalloc).mp (palloc_wp s (by omega)) with ⟨p, rfl, hrun, hs₁, hbitmap⟩
    have hwithin₁ := Within.setRun hgood p (pagecount phdr).toNat
    rw [← hs₁] at hwithin₁
    cases hmap : mappages vmap (p_vaddr phdr) (frame p) (pagecount phdr * pgsize) (Exec.flags phdr) s₁ with
    | error e s₂ =>
      rw [bind_of_error hmap] at h
      cases h
    | ok u s₂ =>
      rw [bind_of_ok hmap] at h
      have hmaps := (wp_of_ok hmap).mp (mappages_wp hwithin₁.good)
      have hkept := fun q hq hq' => @run_kept vmap s s₂ p _ s₁ hgood hrun hs₁ hmaps.within q hq hq'
      have hs' := (wp_of_ok h).mp (readPages_wp)
      rcases @Within.copyMem vmap vn s s₂ p _ (p_offset phdr) (p_filesz phdr) (frame p) s₂.copies
        (hwithin₁.trans hmaps.within) hfit rfl (fun q hq hq' => (hkept q hq hq').1)
        (fun q hq hq' => (hkept q hq hq').2.2) with ⟨_, hagree⟩
      rw [hs₁] at hmap
      refine ⟨p, s₂, hbitmap, hmap, h, ?_, ?_⟩
      . rw [hs']
      . rw [hs']
        exact hagree

theorem segment_twin (hgood : Good (single vmap) s.vm)
    (hfit : Copies vn (p_offset phdr) (p_filesz phdr) →
      (p_filesz phdr).toNat ≤ (pagecount phdr).toNat * PGSIZE)
    (h : loadelf.segment vmap vn phdr s = .ok () s')
    : ∃ p, Loads vmap vn phdr s s' p ∧ ∀ t, Twins vmap s t →
        ∃ t', loadelf.segment vmap vn phdr t = .ok () t' ∧ Loads vmap vn phdr t t' p ∧ Twins vmap s' t' := by
  rcases (wp_of_ok h).mp (segment_wp hgood hfit) with ⟨q, hloads⟩
  refine ⟨q, hloads, ?_⟩
  intro t htwin
  have hgood' := htwin.good hgood
  rcases segment_ok hgood hfit h with ⟨p, s₂, hpalloc, hmap, hread, hbm, hagree⟩
  have hwithin₁ := Within.setRun hgood p (pagecount phdr).toNat
  have htwin₁ : Twins vmap { s with bm := setRun s.bm p (pagecount phdr).toNat }
      { t with bm := setRun s.bm p (pagecount phdr).toNat } := ⟨rfl, htwin.2⟩
  rcases mappages_twin hwithin₁.good htwin₁ hmap with ⟨t₂, hmap', htwin₂⟩
  rcases readPages_twin hread t₂ with ⟨t', hread'⟩
  have hpalloc' : Pmm.palloc t.bm (pagecount phdr).toNat =
      some (p * PGSIZE, setRun s.bm p (pagecount phdr).toNat) := by
    rw [htwin.1]
    exact hpalloc
  have h' : loadelf.segment vmap vn phdr t = .ok () t' := by
    unfold loadelf.segment
    rw [bind_of_ok (palloc_eq hpalloc'), bind_of_ok hmap', hread']
  rcases (wp_of_ok h').mp (segment_wp hgood' hfit) with ⟨q', hloads'⟩
  have hq : q' = q := by
    have heq := hloads'.palloc
    rw [htwin.1, hloads.palloc] at heq
    have hmul := (Prod.mk.inj (Option.some.inj heq)).1
    unfold PGSIZE at hmul
    omega
  rw [hq] at hloads'
  refine ⟨t', h', hloads', ?_⟩
  rcases segment_ok hgood' hfit h' with ⟨p', t₂', hpalloc'', hmap'', _, hbm', hagree'⟩
  have hp : p' = p := by
    rw [hpalloc'] at hpalloc''
    have hmul := (Prod.mk.inj (Option.some.inj hpalloc'')).1
    unfold PGSIZE at hmul
    omega
  rw [hp, htwin.1, hmap'] at hmap''
  rcases (EStateM.Result.ok.inj hmap'').2 with rfl
  constructor
  . rw [hbm, hbm', htwin₂.1]
  . intro path u hreaches
    have hold := hagree.reaches_iff.mp hreaches
    rw [hagree path u hold, hagree' path u (htwin₂.2.reaches_iff.mpr hold), htwin₂.2 path u hold]

end Twin

end Exec
end Franklin
