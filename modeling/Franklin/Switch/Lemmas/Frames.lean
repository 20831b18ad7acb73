import Franklin.Switch.Basic

/-!
This module contains the frames that the assembly code leaves on the stack of a thread, and that it takes
from there what it has put there.
-/

namespace Franklin
namespace Switch

open Words (push Lie)

def frame (vector : Word) (g : Regs) : List Word :=
  [g.r11, g.r10, g.r9, g.r8, g.rsi, g.rdi, g.rdx, g.rcx, g.rax, g.rbp, vector, g.rip, g.cs, g.rflags,
    g.rsp, g.ss]

def calleeFrame (g : Regs) (back : Word) : List Word :=
  [g.rbp, g.rbx, g.r12, g.r13, g.r14, g.r15, back]

variable {alu : Word → Word → Word} {L : Labels} {g : Regs} {m : Mem} {vector : Word}

theorem align_eq_shift (x : Word) : x &&& ~~~(0xF : Word) = (x >>> 4) <<< 4 := by
  apply BitVec.eq_of_getLsbD_eq
  intro i hi
  rw [BitVec.getLsbD_and, BitVec.getLsbD_shiftLeft, BitVec.getLsbD_ushiftRight, BitVec.getLsbD_not]
  by_cases h4 : i < 4
  . have hbit : ∀ j < 4, (0xF : Word).getLsbD j = true := by decide
    rw [hbit i h4]
    simp [h4]
  . have hbit : (0xF : Word).getLsbD i = false := by
      apply Nat.testBit_lt_two_pow
      calc
        (0xF : Word).toNat < 2 ^ 4 := by decide
        _ ≤ 2 ^ i := Nat.pow_le_pow_right (by decide) (by omega)
    have hsub : 4 + (i - 4) = i := by omega
    rw [hbit, hsub]
    simp [h4, hi]

theorem align_toNat (x : Word) : (x &&& ~~~(0xF : Word)).toNat = x.toNat / 16 * 16 := by
  rw [align_eq_shift, BitVec.toNat_shiftLeft, BitVec.toNat_ushiftRight, Nat.shiftLeft_eq,
    Nat.shiftRight_eq_div_pow, Nat.mod_eq_of_lt]
  omega

theorem run_trapped {r : Regs} (hframe : Lie 8 m g.rbp (frame vector r)) (hrbx : g.rbx = r.rbx)
    (hr12 : g.r12 = r.r12) (hr13 : g.r13 = r.r13) (hr14 : g.r14 = r.r14) (hr15 : g.r15 = r.r15)
    : (Instr.run alu trapped (g, m)).1 = r := by
  simp only [frame, Lie, and_true] at hframe
  rcases hframe with ⟨h11, h10, h9, h8, hsi, hdi, hdx, hcx, hax, hbp, _, hip, hcs, hfl, hsp, hss⟩
  simp only [Instr.run, trapped, ret, popregs, List.cons_append, List.nil_append, List.foldl_cons,
    List.foldl_nil, Instr.exec, Regs.get, Regs.set]
  rw [h11, h10, h9, h8, hsi, hdi, hdx, hcx, hax, hbp, hip, hcs, hfl, hsp, hss, hrbx, hr12, hr13, hr14, hr15]

variable (alu L m vector) in
theorem enter_grown (hroom : 160 ≤ g.rsp.toNat / 16 * 16)
    : ∃ m', Words.Grown 8 m (g.rsp &&& ~~~(0xF : Word)) m' (enter alu L vector (g, m)).1.rbp
        (frame vector g) ∧ (enter alu L vector (g, m)).2 =
          Function.update m' (enter alu L vector (g, m)).1.rsp.toNat L.trapped := by
  have hbase := align_toNat g.rsp
  have hk : 0 < (8 : Word).toNat := by decide
  have hfit : ∀ n ≤ 20, (8 : Word).toNat * n ≤ (g.rsp &&& ~~~(0xF : Word)).toNat := by
    intro n hn
    rw [hbase]
    show 8 * n ≤ _
    omega
  have h0 := Words.Grown.refl (k := (8 : Word)) m (g.rsp &&& ~~~(0xF : Word))
  have h1 := h0.push hk (hfit 1 (by decide)) g.ss
  have h2 := h1.push hk (hfit 2 (by decide)) g.rsp
  have h3 := h2.push hk (hfit 3 (by decide)) g.rflags
  have h4 := h3.push hk (hfit 4 (by decide)) g.cs
  have h5 := h4.push hk (hfit 5 (by decide)) g.rip
  have h6 := h5.push hk (hfit 6 (by decide)) vector
  have h7 := h6.push hk (hfit 7 (by decide)) g.rbp
  have h8 := h7.push hk (hfit 8 (by decide)) g.rax
  have h9 := h8.push hk (hfit 9 (by decide)) g.rcx
  have h10 := h9.push hk (hfit 10 (by decide)) g.rdx
  have h11 := h10.push hk (hfit 11 (by decide)) g.rdi
  have h12 := h11.push hk (hfit 12 (by decide)) g.rsi
  have h13 := h12.push hk (hfit 13 (by decide)) g.r8
  have h14 := h13.push hk (hfit 14 (by decide)) g.r9
  have h15 := h14.push hk (hfit 15 (by decide)) g.r10
  have h16 := h15.push hk (hfit 16 (by decide)) g.r11
  exact ⟨_, h16, rfl⟩

variable (alu L g m vector) in
theorem enter_rsp
    : (enter alu L vector (g, m)).1.rsp =
        ((enter alu L vector (g, m)).1.rbp &&& ~~~(0xF : Word)) - 8 := by
  rfl

variable (alu L g m vector) in
theorem enter_callee
    : (enter alu L vector (g, m)).1.rbx = g.rbx ∧ (enter alu L vector (g, m)).1.r12 = g.r12 ∧
        (enter alu L vector (g, m)).1.r13 = g.r13 ∧ (enter alu L vector (g, m)).1.r14 = g.r14 ∧
        (enter alu L vector (g, m)).1.r15 = g.r15 := by
  simp only [enter, interrupt, irq_stub, alltraps, pushregs, Instr.run, List.cons_append, List.nil_append,
    List.foldl_cons, List.foldl_nil, Instr.exec, Regs.get, Regs.set, and_self]

/--
What is on the stack of a thread while it is in `trap`: `g` are the registers at the entry of `trap`, and
`r` those of the thread at the interrupt.
-/
structure TrapFrame (L : Labels) (lo hi : Nat) (m : Mem) (g r : Regs) : Prop where
  lo : lo ≤ g.rsp.toNat
  rsp : g.rsp.toNat + 8 ≤ g.rbp.toNat
  hi : g.rbp.toNat + 128 ≤ hi
  back : m g.rsp.toNat = L.trapped
  frame : ∃ vector, Lie 8 m g.rbp (frame vector r)
  rbx : g.rbx = r.rbx
  r12 : g.r12 = r.r12
  r13 : g.r13 = r.r13
  r14 : g.r14 = r.r14
  r15 : g.r15 = r.r15

theorem TrapFrame.congr {lo hi : Nat} {m' : Mem} {r : Regs} (h : TrapFrame L lo hi m g r)
    (hhi : hi < 2 ^ 64) (hm : ∀ a, g.rsp.toNat ≤ a → a < hi → m' a = m a)
    : TrapFrame L lo hi m' g r := by
  have hrsp := h.rsp
  have hbound := h.hi
  rcases h.frame with ⟨vector, hframe⟩
  refine ⟨h.lo, h.rsp, h.hi, ?_, ⟨vector, ?_⟩, h.rbx, h.r12, h.r13, h.r14, h.r15⟩
  . rw [hm]
    . exact h.back
    . omega
    . omega
  . apply hframe.congr
    . show g.rbp.toNat + 8 * 16 < 2 ^ 64
      omega
    . decide
    . intro a ha ha'
      have ha'' : a < g.rbp.toNat + 8 * 16 := ha'
      apply hm
      . omega
      . omega

variable (alu L m vector) in
theorem enter_frame {lo hi : Nat} (hlo : lo + 168 ≤ g.rsp.toNat) (hhi : g.rsp.toNat ≤ hi)
    : TrapFrame L lo hi (enter alu L vector (g, m)).2 (enter alu L vector (g, m)).1 g ∧
        ∀ a, a < (enter alu L vector (g, m)).1.rsp.toNat ∨ g.rsp.toNat ≤ a →
          (enter alu L vector (g, m)).2 a = m a := by
  have hroom : 160 ≤ g.rsp.toNat / 16 * 16 := by omega
  rcases enter_grown alu L m vector hroom with ⟨m', hgrown, hmem⟩
  have hrsp := enter_rsp alu L g m vector
  have hcallee := enter_callee alu L g m vector
  generalize enter alu L vector (g, m) = e at *
  have hsize : e.1.rbp.toNat + 8 * 16 = (g.rsp &&& ~~~(0xF : Word)).toNat := hgrown.size
  rw [align_toNat] at hsize
  have halign := align_toNat e.1.rbp
  have hrsp' : e.1.rsp.toNat = e.1.rbp.toNat / 16 * 16 - 8 := by
    rw [hrsp, BitVec.toNat_sub_of_le, halign]
    . rfl
    . show 8 ≤ (e.1.rbp &&& ~~~(0xF : Word)).toNat
      omega
  refine ⟨?_, ?_⟩
  . refine ⟨?_, ?_, ?_, ?_, ⟨vector, ?_⟩, hcallee.1, hcallee.2.1, hcallee.2.2.1, hcallee.2.2.2.1,
      hcallee.2.2.2.2⟩
    . omega
    . omega
    . omega
    . rw [hmem, Function.update_self]
    . rw [hmem]
      apply hgrown.lie.congr
      . show e.1.rbp.toNat + 8 * 16 < 2 ^ 64
        omega
      . decide
      . intro a ha _
        rw [Function.update_of_ne]
        omega
  . intro a ha
    rw [hmem, Function.update_of_ne]
    . apply hgrown.frame
      rw [align_toNat]
      omega
    . omega

def loads (g : Regs) (m : Mem) : Regs :=
  { g with
    rbp := m g.rsi.toNat
    rbx := m (g.rsi + 8).toNat
    r12 := m (g.rsi + 8 + 8).toNat
    r13 := m (g.rsi + 8 + 8 + 8).toNat
    r14 := m (g.rsi + 8 + 8 + 8 + 8).toNat
    r15 := m (g.rsi + 8 + 8 + 8 + 8 + 8).toNat
    rip := m (g.rsi + 8 + 8 + 8 + 8 + 8 + 8).toNat
    rsp := g.rsi + 8 + 8 + 8 + 8 + 8 + 8 + 8 }

variable (alu) in
theorem run_switc {back : Word} (hroom : 48 ≤ g.rsp.toNat) (hfit : g.rsp.toNat + 8 < 2 ^ 64)
    (hback : m g.rsp.toNat = back)
    : ∃ m', Words.Grown 8 m (g.rsp + 8) m' (g.rsp - 8 - 8 - 8 - 8 - 8 - 8) (calleeFrame g back) ∧
        (Instr.run alu switc (g, m)) =
          (loads g (Function.update m' g.rdi.toNat (g.rsp - 8 - 8 - 8 - 8 - 8 - 8)),
            Function.update m' g.rdi.toNat (g.rsp - 8 - 8 - 8 - 8 - 8 - 8)) := by
  have hk : 0 < (8 : Word).toNat := by decide
  have hbase : (g.rsp + 8).toNat = g.rsp.toNat + 8 := by
    apply Words.toNat_add_of_le
    exact hfit
  have hpush : ∀ n ≤ 7, (8 : Word).toNat * n ≤ (g.rsp + 8).toNat := by
    intro n hn
    rw [hbase]
    show 8 * n ≤ _
    omega
  -- the return address is on the stack already
  have h0 : Words.Grown 8 m (g.rsp + 8) m g.rsp [back] := ⟨⟨hback, trivial⟩, hbase.symm, fun _ _ => rfl⟩
  have h1 := h0.push hk (hpush 2 (by decide)) g.r15
  have h2 := h1.push hk (hpush 3 (by decide)) g.r14
  have h3 := h2.push hk (hpush 4 (by decide)) g.r13
  have h4 := h3.push hk (hpush 5 (by decide)) g.r12
  have h5 := h4.push hk (hpush 6 (by decide)) g.rbx
  have h6 := h5.push hk (hpush 7 (by decide)) g.rbp
  refine ⟨_, h6, ?_⟩
  simp only [switc, push_callee_regs, pop_callee_regs, Instr.run, List.cons_append, List.nil_append,
    List.foldl_cons, List.foldl_nil, Instr.exec, Regs.get, Regs.set, loads]

theorem loads_callee {r : Regs} {back : Word} (hframe : Lie 8 m g.rsi (calleeFrame r back))
    : r.SameCallee (loads g m) ∧ (loads g m).rip = back := by
  simp only [calleeFrame, Lie, and_true] at hframe
  rcases hframe with ⟨hbp, hbx, h12, h13, h14, h15, hback⟩
  exact ⟨⟨hbx, hbp, h12, h13, h14, h15⟩, hback⟩

end Switch
end Franklin
