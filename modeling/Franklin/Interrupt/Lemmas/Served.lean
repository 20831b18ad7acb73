import Franklin.Interrupt.Lemmas.Gates

/-!
This module contains which interrupts arrive after `init_interrupt`, and whether they are ended.
-/

namespace Franklin
namespace Interrupt

namespace Pic

variable {pic : Pic} {i : Fin 8}

def asking (pic : Pic) : BitVec 8 :=
  pic.irr &&& ~~~pic.imr

theorem asking_of_int (h : pic.int = some i) : pic.asking.getLsbD i = true := by
  unfold int at h
  split at h
  . next k hfind =>
    have hk := List.find?_some hfind
    rw [Bool.or_eq_true] at hk
    split at h
    . cases h
    . next hisr =>
      rw [← Option.some.inj h]
      exact hk.resolve_left hisr
  . cases h

theorem int_of_asking (hisr : pic.isr = 0) (hasking : pic.asking = 1#8 <<< i.val) : pic.int = some i := by
  have hfind : ∀ i : Fin 8, ((List.finRange 8).find? fun k : Fin 8 =>
      (0 : BitVec 8).getLsbD k || (1#8 <<< i.val).getLsbD k) = some i := by
    decide
  have hbit : (0 : BitVec 8).getLsbD i = false := BitVec.getLsbD_zero
  unfold asking at hasking
  unfold int
  rw [hasking, hisr, hfind]
  dsimp only
  rw [hbit, if_neg Bool.false_ne_true]

theorem int_of_not_asking (hisr : pic.isr = 0) (hasking : pic.asking = 0) : pic.int = none := by
  unfold asking at hasking
  unfold int
  rw [hasking, hisr]
  rfl

theorem asking_of_irr (hirr : pic.irr = 1#8 <<< i.val) (himr : pic.imr.getLsbD i = false)
    : pic.asking = 1#8 <<< i.val := by
  unfold asking
  rw [hirr]
  apply BitVec.eq_of_getLsbD_eq
  intro j hj
  rw [BitVec.getLsbD_and, BitVec.getLsbD_not, BitVec.getLsbD_shiftLeft, BitVec.getLsbD_one]
  by_cases hij : j = i
  . rw [hij, himr]
    simp
  . have hzero : j < i ∨ j - i ≠ 0 := by
      omega
    rcases hzero with hlt | hne
    . simp [hlt]
    . simp [hne]

end Pic

namespace Machine

variable {L : Labels} {m s : Machine} {event : Event} {events : List Event}

theorem init_interrupt_pics
    : (m.init_interrupt L).pics =
        { master :=
            { m.pics.master with
              imr := m.pics.master.imr ^^^ 0b11, irr := 0, icw2 := 0x20, icw3 := 0b100, icw4 := 1, expects := [] }
          slave := { m.pics.slave with irr := 0, icw2 := 0x20, icw3 := 0b10, icw4 := 1, expects := [] } } := by
  have hmask : m.pics.master.imr ^^^ 0b10 ^^^ 0b1 = m.pics.master.imr ^^^ 0b11 := by
    rw [BitVec.xor_assoc]
    rfl
  rw [← hmask]
  rfl

/--
The boot loader has masked all lines from 3 on, and the slave as a whole or line 2 with it.
-/
structure Quiet (m : Machine) : Prop where
  master : ∀ i : Fin 8, 3 ≤ i → m.pics.master.imr.getLsbD i = true
  slave : m.pics.master.imr.getLsbD 2 = true ∨ m.pics.slave.imr = 0xFF

structure Kept (m : Machine) (pics : Pics) : Prop where
  imr : pics.master.imr = m.pics.master.imr ^^^ 0b11
  imr2 : pics.slave.imr = m.pics.slave.imr
  icw2 : pics.master.icw2 = 0x20
  icw3 : pics.master.icw3 = 0b100
  icw4 : pics.master.icw4 = 1
  line : pics.master.irr.getLsbD 2 = false
  slave : pics.slave.isr = 0

theorem Kept.imr_getLsbD {pics : Pics} (h : Kept m pics) {i : Fin 8} (hi : 2 ≤ i)
    : pics.master.imr.getLsbD i = m.pics.master.imr.getLsbD i := by
  have hzero : ∀ i : Fin 8, 2 ≤ i → (0b11 : BitVec 8).getLsbD i = false := by
    decide
  rw [h.imr, BitVec.getLsbD_xor, hzero i hi, Bool.xor_false]

theorem wired_of_int {pics : Pics} {i : Fin 8} (hint : pics.wired.int = some i)
    : pics.wired.irr.getLsbD i = true ∧ pics.master.imr.getLsbD i = false := by
  have himr : pics.wired.imr = pics.master.imr := by
    unfold Pics.wired
    split
    . rfl
    . rfl
  have hasking := Pic.asking_of_int hint
  unfold Pic.asking at hasking
  rw [BitVec.getLsbD_and, BitVec.getLsbD_not, himr, Bool.and_eq_true, Bool.and_eq_true, Bool.not_eq_true'] at hasking
  exact ⟨hasking.1, hasking.2.2⟩

theorem Quiet.int_lt {pics : Pics} {i : Fin 8} (hquiet : m.Quiet) (h : Kept m pics) (hint : pics.wired.int = some i)
    : i < 2 := by
  by_contra hge
  have hi : 2 ≤ i := Fin.not_lt.mp hge
  rcases wired_of_int hint with ⟨hirr, hmask⟩
  rw [h.imr_getLsbD hi] at hmask
  by_cases htwo : i = 2
  . -- line 2 is the slave, all of whose lines are masked
    subst htwo
    rcases hquiet.slave with hmasked | hslave
    . have hopen : m.pics.master.imr.getLsbD 2 = false := hmask
      rw [hopen] at hmasked
      cases hmasked
    . have hnone : pics.slave.int = none := by
        apply Pic.int_of_not_asking h.slave
        unfold Pic.asking
        rw [h.imr2, hslave]
        exact BitVec.and_zero
      unfold Pics.wired at hirr
      rw [hnone, Option.isSome_none, if_neg Bool.false_ne_true] at hirr
      have hline : pics.master.irr.getLsbD 2 = true := hirr
      rw [h.line] at hline
      cases hline
  . rw [hquiet.master i (by omega)] at hmask
    cases hmask

/--
All that can happen after `init_interrupt` on a machine whose other lines are masked.
-/
structure Safe (L : Labels) (m s : Machine) : Prop where
  pics : Kept m s.pics
  idt : s.idt = (m.init_interrupt L).idt
  halted : s.halted = false
  handling : s.handling = none ∧ s.pics.master.isr = 0 ∨
    s.handling = some .isr_timer ∧ s.pics.master.isr = 1 ∧ s.pics.master.imr.getLsbD 0 = false ∨
    s.handling = some .isr_kbd ∧ s.pics.master.isr = 2 ∧ s.pics.master.imr.getLsbD 1 = false

theorem Safe.init (h : m.Fresh) : Safe L m (m.init_interrupt L) := by
  constructor
  case pics =>
    rw [init_interrupt_pics]
    exact ⟨rfl, rfl, rfl, rfl, rfl, BitVec.getLsbD_zero, h.slave⟩
  case idt => rfl
  case halted => exact h.halted
  case handling =>
    left
    rw [init_interrupt_pics]
    exact ⟨h.handling, h.master⟩

theorem Kept.raise {pics : Pics} (h : Kept m pics) (line : Fin 16) : Kept m (pics.raise line) := by
  unfold Pics.raise
  split
  . exact h
  . next hne =>
    split
    . have hbit : ∀ line : Fin 16, line ≠ 2 → (1#8 <<< line.val).getLsbD 2 = false := by
        decide
      refine ⟨h.imr, h.imr2, h.icw2, h.icw3, h.icw4, ?_, h.slave⟩
      dsimp only
      rw [BitVec.getLsbD_or, h.line, hbit line hne, Bool.or_false]
    . exact ⟨h.imr, h.imr2, h.icw2, h.icw3, h.icw4, h.line, h.slave⟩

theorem raise_same (pics : Pics) (line : Fin 16)
    : (pics.raise line).master.isr = pics.master.isr ∧ (pics.raise line).master.imr = pics.master.imr := by
  unfold Pics.raise
  split
  . exact ⟨rfl, rfl⟩
  . split
    . exact ⟨rfl, rfl⟩
    . exact ⟨rfl, rfl⟩

theorem Safe.isr_of_none (h : Safe L m s) (hnone : s.handling = none) : s.pics.master.isr = 0 := by
  rcases h.handling with ⟨_, hisr⟩ | ⟨htimer, _⟩ | ⟨hkbd, _⟩
  . exact hisr
  . rw [hnone] at htimer
    cases htimer
  . rw [hnone] at hkbd
    cases hkbd

theorem Safe.raise (h : Safe L m s) (line : Fin 16) : Safe L m { s with pics := s.pics.raise line } := by
  refine ⟨h.pics.raise line, h.idt, h.halted, ?_⟩
  dsimp only
  rw [(raise_same _ _).1, (raise_same _ _).2]
  exact h.handling

theorem Safe.accept (hidt : m.idt = fun _ => .unset) (hquiet : m.Quiet) (h : Safe L m s) {vector : BitVec 8}
    {pics : Pics} (hnone : s.handling = none) (hack : s.pics.acknowledge = some (vector, pics))
    : ∃ stub, deliver L s.idt false vector = some stub ∧ Safe L m { s with pics, handling := some stub } := by
  have hisr := h.isr_of_none hnone
  unfold Pics.acknowledge at hack
  split at hack
  . cases hack
  . next i hint =>
    have hopen := (wired_of_int hint).2
    have hline : i = 0 ∨ i = 1 := by
      have hlt := hquiet.int_lt h.pics hint
      omega
    have hslave : ¬ (0b100 : BitVec 8).getLsbD i = true := by
      rcases hline with rfl | rfl
      . decide
      . decide
    dsimp only at hack
    rw [h.pics.icw3, if_pos hslave] at hack
    cases hack
    have hkept : Kept m { s.pics with master := s.pics.master.acknowledge i } := by
      refine ⟨h.pics.imr, h.pics.imr2, h.pics.icw2, h.pics.icw3, h.pics.icw4, ?_, h.pics.slave⟩
      unfold Pic.acknowledge
      dsimp only
      rw [BitVec.getLsbD_and, h.pics.line, Bool.false_and]
    have haeoi : ¬ (1 : BitVec 8).getLsbD 1 = true := by
      decide
    have hisr' : (s.pics.master.acknowledge i).isr = 1#8 <<< i.val := by
      unfold Pic.acknowledge
      dsimp only
      rw [h.pics.icw4, if_neg haeoi, hisr]
      exact BitVec.zero_or
    unfold Pic.vector
    rw [h.pics.icw2, h.idt, init_interrupt_deliver hidt]
    rcases hline with rfl | rfl
    . exact ⟨.isr_timer, rfl, hkept, rfl, h.halted, .inr (.inl ⟨rfl, hisr', hopen⟩)⟩
    . exact ⟨.isr_kbd, rfl, hkept, rfl, h.halted, .inr (.inr ⟨rfl, hisr', hopen⟩)⟩

theorem Kept.out_eoi {pics : Pics} (h : Kept m pics) : Kept m (out 0x20 0x20 pics) :=
  ⟨h.imr, h.imr2, h.icw2, h.icw3, h.icw4, h.line, h.slave⟩

theorem eoi_isr {pics : Pics} (h : pics.master.isr = 1 ∨ pics.master.isr = 2) : (out 0x20 0x20 pics).master.isr = 0 := by
  have hout : (out 0x20 0x20 pics).master.isr = pics.master.isr &&& (pics.master.isr - 1) := rfl
  rw [hout]
  rcases h with h | h
  . rw [h]
    rfl
  . rw [h]
    rfl

theorem Safe.finish (h : Safe L m s) {stub : Stub} (hstub : s.handling = some stub)
    : (s.trap stub.code).halted = false ∧ Safe L m { s.trap stub.code with handling := none } := by
  rcases h.handling with ⟨hnone, _⟩ | ⟨htimer, hisr, _⟩ | ⟨hkbd, hisr, _⟩
  . rw [hnone] at hstub
    cases hstub
  . rw [htimer] at hstub
    cases hstub
    refine ⟨h.halted, h.pics.out_eoi, h.idt, h.halted, .inl ⟨rfl, ?_⟩⟩
    exact eoi_isr (.inl hisr)
  . rw [hkbd] at hstub
    cases hstub
    refine ⟨h.halted, h.pics.out_eoi, h.idt, h.halted, .inl ⟨rfl, ?_⟩⟩
    exact eoi_isr (.inr hisr)

theorem Safe.next (hidt : m.idt = fun _ => .unset) (hquiet : m.Quiet) (h : Safe L m s) (event : Event)
    : Safe L m (s.next L event) := by
  cases event with
  | raise line => exact h.raise line
  | accept =>
    unfold Machine.next
    dsimp only
    split
    . exact h
    . next hidle =>
      have hnone : s.handling = none := by
        rw [not_or, Option.not_isSome_iff_eq_none] at hidle
        exact hidle.2
      split
      . exact h
      . next vector pics hack =>
        rcases h.accept hidt hquiet hnone hack with ⟨stub, hdeliver, hsafe⟩
        rw [hdeliver]
        exact hsafe
  | finish =>
    unfold Machine.next
    dsimp only
    split
    . exact h
    . next stub hstub =>
      rcases h.finish hstub with ⟨hhalted, hsafe⟩
      rw [if_neg (by rw [hhalted]; exact Bool.false_ne_true)]
      exact hsafe

theorem Safe.run (hidt : m.idt = fun _ => .unset) (hquiet : m.Quiet) (h : Safe L m s) (events : List Event)
    : Safe L m (s.run L events) := by
  unfold Machine.run
  induction events generalizing s with
  | nil => exact h
  | cons event events ih => exact ih (h.next hidt hquiet event)

theorem Fresh.safe_run (L : Labels) (h : m.Fresh) (hquiet : m.Quiet) (events : List Event)
    : Safe L m ((m.init_interrupt L).run L events) :=
  (Safe.init h).run h.idt hquiet events

theorem Safe.timer_open (h : Safe L m s) (hhandling : s.handling = some .isr_timer)
    : s.pics.master.imr.getLsbD 0 = false := by
  rcases h.handling with ⟨hnone, _⟩ | ⟨_, _, hopen⟩ | ⟨hkbd, _⟩
  . rw [hnone] at hhandling
    cases hhandling
  . exact hopen
  . rw [hkbd] at hhandling
    cases hhandling

theorem Safe.kbd_open (h : Safe L m s) (hhandling : s.handling = some .isr_kbd)
    : s.pics.master.imr.getLsbD 1 = false := by
  rcases h.handling with ⟨hnone, _⟩ | ⟨htimer, _⟩ | ⟨_, _, hopen⟩
  . rw [hnone] at hhandling
    cases hhandling
  . rw [htimer] at hhandling
    cases hhandling
  . exact hopen

theorem Safe.served (h : Safe L m s) : s.Served :=
  ⟨h.halted, h.isr_of_none, fun _ => h.pics.slave⟩

section Unserved

variable {pics pics' : Pics} {i j : Fin 8} {vector : BitVec 8} {stub : Stub}

theorem acknowledge_master (hslave : pics.slave.int = none) (hisr : pics.master.isr = 0)
    (hirr : pics.master.irr = 1#8 <<< i.val) (hopen : pics.master.imr.getLsbD i = false)
    (hicw3 : pics.master.icw3.getLsbD i = false)
    : pics.acknowledge = some (pics.master.vector i, { pics with master := pics.master.acknowledge i }) := by
  have hwired : pics.wired = pics.master := by
    unfold Pics.wired
    rw [hslave]
    rfl
  have hint : pics.wired.int = some i := by
    rw [hwired]
    exact Pic.int_of_asking hisr (Pic.asking_of_irr hirr hopen)
  unfold Pics.acknowledge
  rw [hint]
  dsimp only
  rw [hicw3, if_pos Bool.false_ne_true]

theorem acknowledge_slave (hslave : pics.slave.int = some j) (hisr : pics.master.isr = 0) (hirr : pics.master.irr = 0)
    (hopen : pics.master.imr.getLsbD 2 = false) (hicw3 : pics.master.icw3 = 0b100) (hid : pics.slave.icw3 = 0b10)
    : pics.acknowledge =
        some (pics.slave.vector j, { master := pics.master.acknowledge 2, slave := pics.slave.acknowledge j }) := by
  have hint : pics.wired.int = some 2 := by
    unfold Pics.wired
    rw [hslave, Option.isSome_some, if_pos rfl, hirr]
    have hisr' : ({ pics.master with irr := 0 ||| 0b100 } : Pic).isr = 0 := hisr
    exact Pic.int_of_asking hisr' (Pic.asking_of_irr rfl hopen)
  unfold Pics.acknowledge
  rw [hint]
  dsimp only
  rw [hicw3, hid, if_neg (by decide), if_neg (by decide), hslave]

theorem next_accept (hhalted : s.halted = false) (hnone : s.handling = none)
    (hack : s.pics.acknowledge = some (vector, pics')) (hdeliver : deliver L s.idt false vector = some stub)
    : s.next L .accept = { s with pics := pics', handling := some stub } := by
  unfold Machine.next
  dsimp only
  rw [hhalted, hnone, if_neg (by simp), hack]
  dsimp only
  rw [hdeliver]

theorem trap_slave (m : Machine) (code : BitVec 64) : (m.trap code).pics.slave = m.pics.slave := by
  unfold trap
  split
  . rfl
  split
  . rfl
  split
  . rfl
  split
  . rfl
  split
  . rfl
  . rfl

theorem next_finish_halted (h : m.handling = some (.isr_handler 13)) : (m.next L .finish).halted = true := by
  unfold Machine.next
  rw [h]
  rfl

theorem next_finish_slave (m : Machine) : (m.next L .finish).pics.slave = m.pics.slave := by
  unfold Machine.next
  dsimp only
  split
  . rfl
  . split
    . exact trap_slave _ _
    . exact trap_slave _ _

theorem next_finish_handling (m : Machine) : (m.next L .finish).halted = true ∨ (m.next L .finish).handling = none := by
  unfold Machine.next
  dsimp only
  split
  . next hnone => exact .inr hnone
  . split
    . next hhalted => exact .inl hhalted
    . exact .inr rfl

theorem raise_master (hi : i ≠ 2)
    : pics.raise (i.castLE (by decide)) =
        { pics with master := { pics.master with irr := pics.master.irr ||| 1#8 <<< i.val } } := by
  have hline : ∀ i : Fin 8, i ≠ 2 → (i.castLE (by decide) : Fin 16) ≠ 2 ∧ (i.castLE (by decide) : Fin 16) < 8 := by
    decide
  unfold Pics.raise
  rw [if_neg (hline i hi).1, if_pos (hline i hi).2]
  rfl

theorem raise_slave (j : Fin 8)
    : pics.raise (j.natAdd 8) = { pics with slave := { pics.slave with irr := pics.slave.irr ||| 1#8 <<< j.val } } := by
  have hline : ∀ j : Fin 8, (j.natAdd 8 : Fin 16) ≠ 2 ∧ ¬ (j.natAdd 8 : Fin 16) < 8 := by
    decide
  unfold Pics.raise
  rw [if_neg (hline j).1, if_neg (hline j).2, Fin.val_natAdd, Nat.add_sub_cancel_left]

theorem accepts (h : m.Fresh) (hi : i ≠ 2) (hopen : (m.pics.master.imr ^^^ 0b11).getLsbD i = false)
    : ((m.init_interrupt L).run L [.raise (i.castLE (by decide)), .accept]).handling =
        some ((Stub.ofVector (0x20 &&& 0xF8 ||| BitVec.ofNat 8 i)).getD (.isr_handler 13)) := by
  let line : Fin 16 := i.castLE (by decide)
  let s₂ := (m.init_interrupt L).next L (.raise line)
  have hsafe : Safe L m s₂ := (Safe.init h).raise line
  have hkept := hsafe.pics
  have hraised : s₂.pics = _ := raise_master hi
  rw [init_interrupt_pics] at hraised
  dsimp only at hraised
  have hslave : s₂.pics.slave.int = none := by
    apply Pic.int_of_not_asking hkept.slave
    rw [hraised]
    exact BitVec.zero_and
  have hirr : s₂.pics.master.irr = 1#8 <<< i.val := by
    rw [hraised]
    exact BitVec.zero_or
  have hicw3 : s₂.pics.master.icw3.getLsbD i = false := by
    have hbit : ∀ i : Fin 8, i ≠ 2 → (0b100 : BitVec 8).getLsbD i = false := by
      decide
    rw [hkept.icw3]
    exact hbit i hi
  have hack := acknowledge_master hslave (by rw [hraised]; exact h.master) hirr (by rw [hkept.imr]; exact hopen) hicw3
  have hvector : s₂.pics.master.vector i = 0x20 &&& 0xF8 ||| BitVec.ofNat 8 i := by
    unfold Pic.vector
    rw [hkept.icw2]
  rw [hvector] at hack
  have hdeliver : deliver L s₂.idt false (0x20 &&& 0xF8 ||| BitVec.ofNat 8 i) = some _ :=
    init_interrupt_deliver h.idt false _
  unfold run
  rw [List.foldl_cons, List.foldl_cons, List.foldl_nil, next_accept hsafe.halted h.handling hack hdeliver]

theorem not_served_of_master (h : m.Fresh) (hi : 3 ≤ i) (hopen : m.pics.master.imr.getLsbD i = false)
    : ∃ events, ¬ ((m.init_interrupt L).run L events).Served := by
  have hvector : ∀ i : Fin 8, 3 ≤ i →
      i ≠ 2 ∧ (0b11 : BitVec 8).getLsbD i = false ∧ Stub.ofVector (0x20 &&& 0xF8 ||| BitVec.ofNat 8 i) = none := by
    decide
  rcases hvector i hi with ⟨hne, hbit, hnone⟩
  have haccepts := @accepts L m i h hne (by rw [BitVec.getLsbD_xor, hopen, hbit, Bool.false_xor])
  rw [hnone] at haccepts
  refine ⟨[.raise (i.castLE (by decide)), .accept] ++ [.finish], ?_⟩
  intro hserved
  have hhalted := hserved.halted
  unfold run at hhalted haccepts
  rw [List.foldl_append, List.foldl_cons, List.foldl_nil, next_finish_halted haccepts] at hhalted
  cases hhalted

theorem not_served_of_slave (h : m.Fresh) (hopen : m.pics.master.imr.getLsbD 2 = false)
    (hslave : m.pics.slave.imr.getLsbD j = false)
    : ∃ events, ¬ ((m.init_interrupt L).run L events).Served := by
  let line : Fin 16 := j.natAdd 8
  let s₂ := (m.init_interrupt L).next L (.raise line)
  have hsafe : Safe L m s₂ := (Safe.init h).raise line
  have hkept := hsafe.pics
  have hraised : s₂.pics = _ := raise_slave j
  rw [init_interrupt_pics] at hraised
  dsimp only at hraised
  have hint : s₂.pics.slave.int = some j := by
    apply Pic.int_of_asking hkept.slave
    apply Pic.asking_of_irr
    . rw [hraised]
      exact BitVec.zero_or
    . rw [hkept.imr2]
      exact hslave
  have himr := @Kept.imr_getLsbD m s₂.pics hkept 2 (Nat.le_refl 2)
  have hack := @acknowledge_slave s₂.pics j hint (by rw [hraised]; exact h.master) (by rw [hraised])
    (himr.trans hopen) hkept.icw3 (by rw [hraised])
  have hdeliver := @init_interrupt_deliver L m h.idt false (s₂.pics.slave.vector j)
  rw [if_neg (by simp)] at hdeliver
  have hnext := next_accept hsafe.halted h.handling hack hdeliver
  refine ⟨[.raise line, .accept, .finish], ?_⟩
  intro hserved
  unfold run at hserved
  rw [List.foldl_cons, List.foldl_cons, hnext, List.foldl_cons, List.foldl_nil] at hserved
  rcases next_finish_handling _ with hhalted | hnone
  . rw [hserved.halted] at hhalted
    cases hhalted
  . have hisr := hserved.slave hnone
    rw [next_finish_slave] at hisr
    have haeoi : ¬ (1 : BitVec 8).getLsbD 1 = true := by
      decide
    have hbit : ∀ j : Fin 8, (0 : BitVec 8) ||| 1#8 <<< j.val ≠ 0 := by
      decide
    unfold Pic.acknowledge at hisr
    dsimp only at hisr
    rw [hkept.slave, hraised] at hisr
    dsimp only at hisr
    rw [if_neg haeoi] at hisr
    exact hbit j hisr

end Unserved

theorem maskedMachine_fresh : Fresh maskedMachine :=
  ⟨rfl, rfl, rfl, rfl, rfl⟩

theorem maskedMachine_quiet : Quiet maskedMachine := by
  constructor
  . decide
  . left
    decide

/--
After `init_interrupt` no device can stop the machine, and every interrupt is ended by its handler, exactly if the
boot loader has masked the lines that there is no handler for.
-/
theorem init_interrupt_served_iff (L : Labels) (h : m.Fresh)
    : (∀ events, ((m.init_interrupt L).run L events).Served) ↔ m.Quiet := by
  constructor
  . intro hserved
    constructor
    case master =>
      intro i hi
      by_contra hopen
      rw [Bool.not_eq_true] at hopen
      rcases @not_served_of_master L m i h hi hopen with ⟨events, hnot⟩
      exact hnot (hserved events)
    case slave =>
      by_contra hnot
      rw [not_or, Bool.not_eq_true] at hnot
      rcases hnot with ⟨hopen, hslave⟩
      have hbit : ∃ j : Fin 8, m.pics.slave.imr.getLsbD j = false := by
        by_contra hall
        apply hslave
        apply BitVec.eq_of_getLsbD_eq
        intro j hj
        have hone : ∀ j : Fin 8, (0xFF : BitVec 8).getLsbD j = true := by
          decide
        rw [hone ⟨j, hj⟩]
        by_contra hzero
        exact hall ⟨⟨j, hj⟩, Bool.not_eq_true _ ▸ hzero⟩
      rcases hbit with ⟨j, hj⟩
      rcases @not_served_of_slave L m j h hopen hj with ⟨events, hnot⟩
      exact hnot (hserved events)
  . intro hquiet events
    exact (h.safe_run L hquiet events).served

theorem init_interrupt_served_masked
    : ∃ m, m.Fresh ∧ ∀ events, ((init_interrupt sampleLabels m).run sampleLabels events).Served :=
  ⟨maskedMachine, maskedMachine_fresh,
    (init_interrupt_served_iff sampleLabels maskedMachine_fresh).mpr maskedMachine_quiet⟩

/--
The handlers of the timer and the keyboard run exactly if the boot loader has masked their lines: `unmask_irq` masks
a line that is not masked.
-/
theorem init_interrupt_answers_iff (L : Labels) (h : m.Fresh) (hquiet : m.Quiet)
    : ((∃ events, ((m.init_interrupt L).run L events).handling = some .isr_timer) ↔
          m.pics.master.imr.getLsbD 0 = true) ∧
        ((∃ events, ((m.init_interrupt L).run L events).handling = some .isr_kbd) ↔
          m.pics.master.imr.getLsbD 1 = true) ∧
        ∀ events, ((m.init_interrupt L).run L events).pics.master.imr = m.pics.master.imr ^^^ 0b11 := by
  have hbit : ∀ i : Fin 8, i < 2 → (0b11 : BitVec 8).getLsbD i = true := by
    decide
  have hmask : ∀ i : Fin 8, i < 2 →
      ((m.pics.master.imr ^^^ 0b11).getLsbD i = false ↔ m.pics.master.imr.getLsbD i = true) := by
    intro i hi
    rw [BitVec.getLsbD_xor, hbit i hi, Bool.xor_true, Bool.not_eq_false']
  refine ⟨?_, ?_, fun events => (h.safe_run L hquiet events).pics.imr⟩
  . constructor
    . rintro ⟨events, hhandling⟩
      have hsafe := h.safe_run L hquiet events
      apply (hmask 0 (by decide)).mp
      rw [← hsafe.pics.imr]
      exact hsafe.timer_open hhandling
    . intro hmasked
      exact ⟨_, @accepts L m 0 h (by decide) ((hmask 0 (by decide)).mpr hmasked)⟩
  . constructor
    . rintro ⟨events, hhandling⟩
      have hsafe := h.safe_run L hquiet events
      apply (hmask 1 (by decide)).mp
      rw [← hsafe.pics.imr]
      exact hsafe.kbd_open hhandling
    . intro hmasked
      exact ⟨_, @accepts L m 1 h (by decide) ((hmask 1 (by decide)).mpr hmasked)⟩

theorem init_interrupt_answers_masked
    : ∃ events, ((init_interrupt sampleLabels maskedMachine).run sampleLabels events).handling = some .isr_kbd :=
  (init_interrupt_answers_iff sampleLabels maskedMachine_fresh maskedMachine_quiet).2.1.mpr (by decide)

end Machine

end Interrupt
end Franklin
