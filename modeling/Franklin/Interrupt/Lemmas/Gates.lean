import Franklin.Interrupt.Machine

/-!
This module contains where the interrupts lead to that `init_interrupt` has set up.
-/

namespace Franklin
namespace Interrupt

section Label

variable {L : Labels}

theorem Labels.stub_addr (L : Labels) (stub : Stub) : L.stub (L.addr stub) = some stub := by
  unfold Labels.stub
  cases hfind : Stub.all.find? fun stub' => L.addr stub' = L.addr stub with
  | none =>
    have hnot := List.find?_eq_none.mp hfind stub stub.mem_all
    exact absurd (decide_eq_true rfl) hnot
  | some stub' =>
    have haddr := List.find?_some hfind
    rw [decide_eq_true_eq] at haddr
    rw [L.injective haddr]

end Label

section Entry

variable {idt : Idt} {vector vector' flags : BitVec 8} {isr : Addr}

structure IdtEntry.Names (desc : IdtEntry) (isr : Addr) (flags : BitVec 8) : Prop where
  offset : desc.offset = isr
  attributes : desc.attributes = flags

theorem set_idt_entry_names : (set_idt_entry vector isr flags idt vector).Names isr flags := by
  unfold set_idt_entry
  rw [Function.update_self]
  constructor
  . apply BitVec.eq_of_getLsbD_eq
    intro i hi
    unfold IdtEntry.offset
    simp only [BitVec.getLsbD_append, BitVec.getLsbD_setWidth, BitVec.getLsbD_ushiftRight]
    grind
  . rfl

theorem set_idt_entry_of_ne (h : vector' ≠ vector) : set_idt_entry vector isr flags idt vector' = idt vector' := by
  unfold set_idt_entry
  rw [Function.update_of_ne h]

def init_idt.entry (isr_table : Fin 32 → Addr) (idt : Idt) (vector : Fin 32) : Idt :=
  set_idt_entry (BitVec.ofNat 8 vector) (isr_table vector) 0x8E idt

theorem init_idt_names (isr_table : Fin 32 → Addr) (idt : Idt) {i : Fin 32} {l : List (Fin 32)} (hi : i ∈ l)
    : (l.foldl (init_idt.entry isr_table) idt (BitVec.ofNat 8 i)).Names (isr_table i) 0x8E := by
  induction l using List.reverseRecOn with
  | nil => cases hi
  | append_singleton l j ih =>
    rw [List.foldl_append, List.foldl_cons, List.foldl_nil]
    unfold init_idt.entry
    by_cases hij : i = j
    . rw [hij]
      exact set_idt_entry_names
    . have hne : BitVec.ofNat 8 i ≠ BitVec.ofNat 8 j := by
        intro heq
        have hnat := congrArg BitVec.toNat heq
        simp only [BitVec.toNat_ofNat] at hnat
        exact hij (Fin.ext (by omega))
      rw [set_idt_entry_of_ne hne]
      exact ih ((List.mem_append.mp hi).resolve_right fun h => hij (List.mem_singleton.mp h))

theorem init_idt_other (isr_table : Fin 32 → Addr) (idt : Idt) (hvector : 32 ≤ vector.toNat) (l : List (Fin 32))
    : l.foldl (init_idt.entry isr_table) idt vector = idt vector := by
  induction l using List.reverseRecOn with
  | nil => rfl
  | append_singleton l j ih =>
    rw [List.foldl_append, List.foldl_cons, List.foldl_nil]
    unfold init_idt.entry
    rw [set_idt_entry_of_ne]
    . exact ih
    . intro heq
      have hnat := congrArg BitVec.toNat heq
      simp only [BitVec.toNat_ofNat] at hnat
      omega

end Entry

def Stub.ofVector (vector : BitVec 8) : Option Stub :=
  if h : vector.toNat < 32 then some (isr_handler ⟨vector.toNat, h⟩)
  else if vector = 32 then some isr_timer
  else if vector = 33 then some isr_kbd
  else if vector = 34 then some isr_apic_timer
  else if vector = 69 then some isr_syscall
  else if vector = 255 then some spurious
  else none

theorem Stub.ofVector_code {vector : BitVec 8} {stub : Stub} (h : ofVector vector = some stub)
    : stub.code = vector.setWidth 64 := by
  unfold ofVector at h
  repeat'
    split at h
    . next heq =>
      cases h
      first
        | exact BitVec.ofNat_toNat _ _
        | rw [heq]
          rfl
  cases h

theorem Stub.ofVector_eq_none_iff {vector : BitVec 8}
    : ofVector vector = none ↔ ¬ (vector.toNat ≤ 34 ∨ vector = 69 ∨ vector = 255) := by
  decide +revert

def gateFlags (vector : BitVec 8) : BitVec 8 :=
  if vector = 69 then 0xEE else 0x8E

namespace Machine

variable {L : Labels} {m : Machine} {vector : BitVec 8}

theorem init_interrupt_names {stub : Stub} (h : Stub.ofVector vector = some stub)
    : ((m.init_interrupt L).idt vector).Names (L.addr stub) (gateFlags vector) := by
  unfold Stub.ofVector at h
  unfold init_interrupt new_irq
  dsimp only
  split at h
  . next hlt =>
    cases h
    have hne : ∀ v : BitVec 8, 32 ≤ v.toNat → vector ≠ v := by
      rintro v hv rfl
      omega
    have hvector : vector = BitVec.ofNat 8 (⟨vector.toNat, hlt⟩ : Fin 32) := by
      rw [BitVec.ofNat_toNat, BitVec.setWidth_eq]
    have hflags : gateFlags vector = 0x8E := if_neg (hne _ (by decide))
    rw [set_idt_entry_of_ne (hne _ (by decide)), set_idt_entry_of_ne (hne _ (by decide)),
      set_idt_entry_of_ne (hne _ (by decide)), set_idt_entry_of_ne (hne _ (by decide)),
      set_idt_entry_of_ne (hne _ (by decide)), set_idt_entry_of_ne (hne _ (by decide)), hflags]
    generalize hi : (⟨vector.toNat, hlt⟩ : Fin 32) = i at hvector ⊢
    rw [hvector]
    exact init_idt_names _ _ (List.mem_finRange i)
  . split at h
    . next heq =>
      cases h
      rw [heq, set_idt_entry_of_ne (by decide), set_idt_entry_of_ne (by decide), set_idt_entry_of_ne (by decide)]
      exact set_idt_entry_names
    split at h
    . next heq =>
      cases h
      rw [heq, set_idt_entry_of_ne (by decide), set_idt_entry_of_ne (by decide), set_idt_entry_of_ne (by decide),
        set_idt_entry_of_ne (by decide), set_idt_entry_of_ne (by decide)]
      exact set_idt_entry_names
    split at h
    . next heq =>
      cases h
      rw [heq, set_idt_entry_of_ne (by decide), set_idt_entry_of_ne (by decide), set_idt_entry_of_ne (by decide),
        set_idt_entry_of_ne (by decide)]
      exact set_idt_entry_names
    split at h
    . next heq =>
      cases h
      rw [heq]
      exact set_idt_entry_names
    split at h
    . next heq =>
      cases h
      rw [heq, set_idt_entry_of_ne (by decide), set_idt_entry_of_ne (by decide)]
      exact set_idt_entry_names
    . cases h

theorem init_interrupt_unset (hidt : m.idt = fun _ => .unset) (h : Stub.ofVector vector = none)
    : (m.init_interrupt L).idt vector = .unset := by
  have hne : ∀ v, (Stub.ofVector v).isSome → vector ≠ v := by
    rintro v hv rfl
    rw [h] at hv
    cases hv
  have hge : 32 ≤ vector.toNat := by
    by_contra hlt
    unfold Stub.ofVector at h
    rw [dif_pos (by omega)] at h
    cases h
  have hinit := init_idt_other L.isr_table m.idt hge (List.finRange 32)
  unfold init_interrupt new_irq
  dsimp only
  rw [set_idt_entry_of_ne (hne _ (by decide)), set_idt_entry_of_ne (hne _ (by decide)),
    set_idt_entry_of_ne (hne _ (by decide)), set_idt_entry_of_ne (hne _ (by decide)),
    set_idt_entry_of_ne (hne _ (by decide)), set_idt_entry_of_ne (hne _ (by decide))]
  exact hinit.trans (congrFun hidt vector)

theorem init_interrupt_exception {stub : Stub} (h : Stub.ofVector vector = some stub)
    : exception L (m.init_interrupt L).idt vector = some stub := by
  have hnames := @init_interrupt_names L m vector stub h
  have hgate : ((m.init_interrupt L).idt vector).isGate ∧ ((m.init_interrupt L).idt vector).present := by
    unfold IdtEntry.isGate IdtEntry.present gateFlags at *
    rw [hnames.attributes]
    split <;> decide
  unfold exception
  rw [if_pos hgate, hnames.offset, L.stub_addr]

theorem init_interrupt_deliver (hidt : m.idt = fun _ => .unset) (user : Bool) (vector : BitVec 8)
    : deliver L (m.init_interrupt L).idt user vector =
        if user = true ∧ vector ≠ 69 then some (.isr_handler 13)
        else some ((Stub.ofVector vector).getD (.isr_handler 13)) := by
  have hgp : exception L (m.init_interrupt L).idt 13 = some (.isr_handler 13) := init_interrupt_exception (by decide)
  unfold deliver
  cases hstub : Stub.ofVector vector with
  | none =>
    rw [init_interrupt_unset hidt hstub, if_pos (by decide), hgp, Option.getD_none, ite_self]
  | some stub =>
    have hnames := @init_interrupt_names L m vector stub hstub
    have hgate : ((m.init_interrupt L).idt vector).isGate = true := by
      unfold IdtEntry.isGate
      rw [hnames.attributes]
      unfold gateFlags
      split <;> decide
    have hpresent : ((m.init_interrupt L).idt vector).present = true := by
      unfold IdtEntry.present
      rw [hnames.attributes]
      unfold gateFlags
      split <;> decide
    have hdpl : ((m.init_interrupt L).idt vector).dpl < 3 ↔ vector ≠ 69 := by
      unfold IdtEntry.dpl
      rw [hnames.attributes]
      unfold gateFlags
      split
      . next heq =>
        rw [heq]
        decide
      . next hne => exact iff_of_true (by decide) hne
    rw [Option.getD_some]
    simp only [hgate, hpresent, hdpl, not_true_eq_false, if_false]
    split
    . exact hgp
    . rw [hnames.offset, L.stub_addr]

/--
Every vector of the table gets to `trap` with its own number, whatever the addresses of the stubs are. The rest stops
the machine.
-/
theorem init_interrupt_codes (L : Labels) (hidt : m.idt = fun _ => .unset) (user : Bool) (vector : BitVec 8)
    : (deliver L (m.init_interrupt L).idt user vector).map Stub.code =
        if (vector.toNat ≤ 34 ∨ vector = 69 ∨ vector = 255) ∧ (user = true → vector = 69) then
          some (vector.setWidth 64)
        else
          some 13 := by
  rw [init_interrupt_deliver hidt]
  by_cases huser : user = true ∧ vector ≠ 69
  . rw [if_pos huser, if_neg fun h => huser.2 (h.2 huser.1)]
    rfl
  . rw [if_neg huser, Option.map_some]
    have hallowed : user = true → vector = 69 := by
      intro htrue
      by_contra hne
      exact huser ⟨htrue, hne⟩
    cases hstub : Stub.ofVector vector with
    | none =>
      rw [if_neg fun h => (Stub.ofVector_eq_none_iff.mp hstub) h.1]
      rfl
    | some stub =>
      have hlisted : vector.toNat ≤ 34 ∨ vector = 69 ∨ vector = 255 := by
        by_contra hnot
        rw [Stub.ofVector_eq_none_iff.mpr hnot] at hstub
        cases hstub
      rw [if_pos ⟨hlisted, hallowed⟩, Option.getD_some, Stub.ofVector_code hstub]

end Machine

section Sample

theorem Stub.code_injective : Function.Injective code := by
  have hall : ∀ stub ∈ all, ∀ stub' ∈ all, stub.code = stub'.code → stub = stub' := by
    decide +kernel
  intro stub stub' h
  exact hall stub stub.mem_all stub' stub'.mem_all h

def sampleLabels : Labels where
  addr := Stub.code
  injective := Stub.code_injective

def maskedPic : Pic where
  imr := 0xFF
  irr := 0
  isr := 0
  icw2 := 0
  icw3 := 0
  icw4 := 0
  expects := []

def maskedMachine : Machine where
  pics := { master := maskedPic, slave := maskedPic }
  idt := fun _ => .unset
  PIT_COUNTER := 0
  handling := none
  halted := false

theorem init_interrupt_codes_int
    : (deliver sampleLabels (maskedMachine.init_interrupt sampleLabels).idt true 33).map Stub.code = some 13 := by
  have hcodes := @Machine.init_interrupt_codes maskedMachine sampleLabels rfl true 33
  rw [hcodes]
  decide

end Sample

end Interrupt
end Franklin
