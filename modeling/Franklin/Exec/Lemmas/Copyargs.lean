import Franklin.Exec.Copyargs

/-!
This module contains what `copyargs` leaves in the memory of the stack.
-/

namespace Franklin
namespace Exec

variable {base : BitVec 64} {b b' : Block} {sp i j k : Int} {arg : Arg} {argv : List Arg} {aux : Auxval} {n : Nat}
variable {v v' : BitVec 64}

namespace Arg

theorem length_pos (arg : Arg) : 1 ≤ arg.length :=
  (Nat.find_spec arg.ends).1

theorem byte_length (arg : Arg) : arg.byte arg.length = 0 :=
  (Nat.find_spec arg.ends).2

theorem strlen_eq (arg : Arg) : strlen arg.length arg.byte = some arg.length := by
  have hrounds : arg.length < 1 + arg.length := by omega
  rcases strlen.loop_of_zero arg.length_pos arg.byte_length hrounds with ⟨n, hn, hle⟩
  rcases strlen.loop_spec hn with ⟨hpos, hzero, _⟩
  have hge : arg.length ≤ n := Nat.find_min' arg.ends ⟨hpos, hzero⟩
  have heq : n = arg.length := by omega
  rw [heq] at hn
  exact hn

end Arg

def stringSize : List Arg → Nat
  | [] => 0
  | arg :: argv => arg.length + 1 + stringSize argv

def imageSize (argv : List Arg) : Nat :=
  stringSize argv + 8 * (argv.length + 12)

def place (sp : Int) (argv : List Arg) (n : Nat) : Int :=
  sp - stringSize (argv.take (n + 1))

structure Holds (b : Block) (i : Int) (arg : Arg) : Prop where
  nonneg : 0 ≤ i
  inside : i + arg.length < b.size
  byte : ∀ k, k < arg.length → b.byte (i + k).toNat = arg.byte k
  zero : b.byte (i + arg.length).toNat = 0

theorem Holds.kept (h : Holds b k arg) (hkept : b.Kept b' i j) (hj : k + arg.length < i ∨ j ≤ k)
    : Holds b' k arg where
  nonneg := h.nonneg
  inside := by
    rw [hkept.size]
    exact h.inside
  byte n hn := by
    have hk := h.nonneg
    rw [hkept.byte _ (by omega)]
    exact h.byte n hn
  zero := by
    have hk := h.nonneg
    rw [hkept.byte _ (by omega)]
    exact h.zero

section Strings

@[simp]
theorem stringSize_cons : stringSize (arg :: argv) = arg.length + 1 + stringSize argv := by
  rfl

@[simp]
theorem place_zero : place sp (arg :: argv) 0 = sp - arg.length - 1 := by
  unfold place
  rw [List.take_succ_cons, List.take_zero, stringSize_cons]
  unfold stringSize
  omega

@[simp]
theorem place_succ : place sp (arg :: argv) (n + 1) = place (sp - arg.length - 1) argv n := by
  unfold place
  rw [List.take_succ_cons, stringSize_cons]
  omega

theorem strcpy_arg (b : Block) (hi : 0 ≤ i) (hsize : i + arg.length < b.size)
    : ∃ b', strcpy arg.length b i arg.byte = some b' ∧ b.Kept b' i (i + arg.length + 1) ∧ Holds b' i arg := by
  unfold strcpy
  rw [arg.strlen_eq, Option.bind_eq_bind, Option.bind_some]
  rw [Block.copy_eq (by unfold Block.Inside; omega) (by unfold Block.Inside; dsimp only; omega),
    Option.bind_eq_bind, Option.bind_some]
  unfold Block.set
  rw [Block.overlay_size, if_pos (by omega)]
  refine ⟨_, rfl, ⟨rfl, ?_⟩, ⟨hi, hsize, ?_, ?_⟩⟩
  . intro k hk
    dsimp only
    rw [Function.update_of_ne (by omega), Block.overlay_outside (by omega)]
  . intro k hk
    dsimp only
    rw [Function.update_of_ne (by omega), Block.overlay_inside (by omega)]
    dsimp only
    congr 1
    omega
  . dsimp only
    rw [Function.update_self]

theorem copyargs.strings_eq (hsp : sp ≤ b.size) (hfit : stringSize argv ≤ sp)
    : ∃ b', strings b sp argv = some (b', sp - stringSize argv)
        ∧ b.Kept b' (sp - stringSize argv) sp
        ∧ ∀ n arg, argv[n]? = some arg → Holds b' (place sp argv n) arg := by
  induction argv generalizing b sp with
  | nil =>
    refine ⟨b, ?_, Block.Kept.refl _ _ _, ?_⟩
    . unfold strings stringSize
      rw [Int.natCast_zero, Int.sub_zero]
    . intro n arg harg
      cases harg
  | cons arg argv ih =>
    rw [stringSize_cons] at hfit
    have hlow : sp - arg.length - 1 + arg.length < b.size := by omega
    rcases strcpy_arg b (by omega) hlow with ⟨b₁, hb₁, hkept₁, hholds⟩
    have hsize := hkept₁.size
    rcases @ih b₁ (sp - arg.length - 1) (by omega) (by omega) with ⟨b₂, hb₂, hkept₂, hall⟩
    refine ⟨b₂, ?_, ?_, ?_⟩
    . unfold strings
      dsimp only
      rw [hb₁, Option.bind_eq_bind, Option.bind_some, hb₂, stringSize_cons]
      congr 2
      omega
    . rw [stringSize_cons]
      exact Block.Kept.trans (hkept₁.mono (by omega) (by omega)) (hkept₂.mono (by omega) (by omega))
    . intro n a ha
      cases n with
      | zero =>
        rw [List.getElem?_cons_zero] at ha
        rw [place_zero, ← Option.some.inj ha]
        -- The strings that follow are copied below this one.
        exact hholds.kept hkept₂ (Or.inr (by omega))
      | succ n =>
        rw [List.getElem?_cons_succ] at ha
        rw [place_succ]
        exact hall n a ha

theorem copyargs.strings_sp (h : strings b sp argv = some (b', i)) : i = sp - stringSize argv := by
  induction argv generalizing b sp with
  | nil =>
    unfold strings at h
    rw [← (Prod.mk.inj (Option.some.inj h)).2]
    unfold stringSize
    omega
  | cons arg argv ih =>
    unfold strings at h
    dsimp only at h
    rcases Option.bind_eq_some_iff.mp h with ⟨b₁, _, hrest⟩
    rw [ih hrest, stringSize_cons]
    omega

theorem place_lt (hn : argv[n]? = some arg) : place sp argv n + arg.length < sp := by
  induction argv generalizing sp n with
  | nil => cases hn
  | cons a argv ih =>
    cases n with
    | zero =>
      rw [List.getElem?_cons_zero] at hn
      rw [place_zero, Option.some.inj hn]
      omega
    | succ n =>
      rw [List.getElem?_cons_succ] at hn
      rw [place_succ]
      have hlt := @ih (sp - a.length - 1) n hn
      omega

theorem stringSize_le_place (hn : argv[n]? = some arg) : sp - stringSize argv ≤ place sp argv n := by
  induction argv generalizing sp n with
  | nil => cases hn
  | cons a argv ih =>
    rw [stringSize_cons]
    cases n with
    | zero =>
      rw [place_zero]
      omega
    | succ n =>
      rw [List.getElem?_cons_succ] at hn
      rw [place_succ]
      have hle := @ih (sp - a.length - 1) n hn
      omega

end Strings

theorem copyargs.push_sp (h : push b sp v = some (b', i)) : i = sp - 8 ∧ 0 ≤ i := by
  unfold push at h
  dsimp only at h
  rcases Option.bind_eq_some_iff.mp h with ⟨b₁, hb₁, hrest⟩
  have hin := Block.inside_of_store hb₁
  have heq := (Prod.mk.inj (Option.some.inj hrest)).2
  unfold Block.Inside at hin
  omega

theorem copyargs.pushPair_sp (h : pushPair b sp v v' = some (b', i)) : i = sp - 16 := by
  unfold pushPair at h
  dsimp only at h
  rcases Option.bind_eq_some_iff.mp h with ⟨b₁, _, hrest⟩
  rcases Option.bind_eq_some_iff.mp hrest with ⟨b₂, _, hrest⟩
  exact (Prod.mk.inj (Option.some.inj hrest)).2.symm

theorem copyargs.pairs_sp (h : pairs b sp aux = some (b', i)) : i = sp - 80 := by
  unfold pairs at h
  rcases Option.bind_eq_some_iff.mp h with ⟨⟨b₁, sp₁⟩, h₁, hrest⟩
  rcases Option.bind_eq_some_iff.mp hrest with ⟨⟨b₂, sp₂⟩, h₂, hrest⟩
  rcases Option.bind_eq_some_iff.mp hrest with ⟨⟨b₃, sp₃⟩, h₃, hrest⟩
  rcases Option.bind_eq_some_iff.mp hrest with ⟨⟨b₄, sp₄⟩, h₄, hrest⟩
  have hnull := (push_sp h₁).1
  have hentry := pushPair_sp h₂
  have hphdr := pushPair_sp h₃
  have hphent := pushPair_sp h₄
  have hphnum := pushPair_sp hrest
  rw [hphnum, hphent, hphdr, hentry, hnull]
  omega

/--
The words `vs` have been pushed on the stack that ended at the index `top` in the block `b`.
-/
structure Grown (b : Block) (top : Int) (b' : Block) (sp : Int) (vs : List (BitVec 64)) : Prop where
  kept : b.Kept b' sp top
  lie : b'.Lie sp vs
  size : sp + 8 * vs.length = top

section Pushes

variable {top sp' : Int} {vs : List (BitVec 64)}

theorem Grown.start (b : Block) (sp : Int) : Grown b sp b sp [] where
  kept := Block.Kept.refl _ _ _
  lie := trivial
  size := by
    rw [List.length_nil]
    omega

theorem Grown.push (h : Grown b top b' sp vs) (hsp : 8 ≤ sp) (htop : top ≤ b.size) (v : BitVec 64)
    : ∃ b'', copyargs.push b' sp v = some (b'', sp - 8) ∧ Grown b top b'' (sp - 8) (v :: vs) := by
  have hsize := h.kept.size
  have hle := h.size
  rcases b'.exists_store (show 0 ≤ sp - 8 by omega) (by omega) v with ⟨b'', hb'', hkept, hload⟩
  refine ⟨b'', ?_, ?_, ?_, ?_⟩
  . unfold copyargs.push
    dsimp only
    rw [hb'']
    rfl
  . exact Block.Kept.trans (h.kept.mono (by omega) (by omega)) (hkept.mono (by omega) (by omega))
  . refine ⟨hload, ?_⟩
    rw [Int.sub_add_cancel]
    exact hkept.lie (Or.inr (by omega)) h.lie
  . rw [List.length_cons]
    omega

theorem Grown.pushPair (h : Grown b top b' sp vs) (hsp : 16 ≤ sp) (htop : top ≤ b.size) (v v' : BitVec 64)
    : ∃ b'', copyargs.pushPair b' sp v v' = some (b'', sp - 16) ∧ Grown b top b'' (sp - 16) (v :: v' :: vs) := by
  have hsize := h.kept.size
  have hle := h.size
  rcases b'.exists_store (show 0 ≤ sp - 16 by omega) (by omega) v with ⟨b₁, hb₁, hkept₁, hload₁⟩
  have hsize₁ := hkept₁.size
  rcases b₁.exists_store (show 0 ≤ sp - 16 + 8 by omega) (by omega) v' with ⟨b₂, hb₂, hkept₂, hload₂⟩
  refine ⟨b₂, ?_, ?_, ?_, ?_⟩
  . unfold copyargs.pushPair
    dsimp only
    rw [hb₁, Option.bind_eq_bind, Option.bind_some, hb₂]
    rfl
  . apply Block.Kept.trans (h.kept.mono (by omega) (by omega))
    exact Block.Kept.trans (hkept₁.mono (by omega) (by omega)) (hkept₂.mono (by omega) (by omega))
  . refine ⟨?_, hload₂, ?_⟩
    . rw [hkept₂.load (Or.inl (by omega))]
      exact hload₁
    . rw [show sp - 16 + 8 + 8 = sp by omega]
      exact hkept₂.lie (Or.inr (by omega)) (hkept₁.lie (Or.inr (by omega)) h.lie)
  . rw [List.length_cons, List.length_cons]
    omega

theorem Grown.skip (h : Grown b top b' sp vs) (hsp : 8 ≤ sp) (htop : top ≤ b.size)
    : Grown b top b' (sp - 8) (b.word (sp - 8) :: vs) where
  kept := h.kept.mono (by omega) (by omega)
  lie := by
    have hsize := h.size
    refine ⟨?_, ?_⟩
    . rw [h.kept.load (Or.inl (by omega)), Block.load_eq (by unfold Block.Inside; omega)]
    . rw [Int.sub_add_cancel]
      exact h.lie
  size := by
    have hsize := h.size
    rw [List.length_cons]
    omega

theorem Grown.append {b'' : Block} {ws : List (BitVec 64)} (h : Grown b top b' sp vs)
    (hkept : b'.Kept b'' (sp - 8 * ws.length) sp) (hlie : b''.Lie (sp - 8 * ws.length) ws)
    : Grown b top b'' (sp - 8 * ws.length) (ws ++ vs) where
  kept := by
    have hsize := h.size
    exact Block.Kept.trans (h.kept.mono (by omega) (by omega)) (hkept.mono (by omega) (by omega))
  lie := by
    apply hlie.append
    rw [Int.sub_add_cancel]
    exact hkept.lie (Or.inr (by omega)) h.lie
  size := by
    have hsize := h.size
    rw [List.length_append]
    omega

def auxWords (aux : Auxval) (stale : BitVec 64) : List (BitVec 64) :=
  [AT_PHNUM, aux.at_phnum, AT_PHENT, aux.at_phent, AT_PHDR, aux.at_phdr, AT_ENTRY, aux.at_entry, stale, 0#64]

theorem Grown.pairs (b : Block) (hsp : 80 ≤ sp) (htop : sp ≤ b.size) (aux : Auxval)
    : ∃ b', copyargs.pairs b sp aux = some (b', sp - 80)
        ∧ Grown b sp b' (sp - 80) (auxWords aux (b.word (sp - 16))) := by
  rcases (Grown.start b sp).push (by omega) htop 0#64 with ⟨b₁, hb₁, h₁⟩
  have hskip := h₁.skip (by omega) htop
  rcases hskip.pushPair (by omega) htop AT_ENTRY aux.at_entry with ⟨b₂, hb₂, h₂⟩
  rcases h₂.pushPair (by omega) htop AT_PHDR aux.at_phdr with ⟨b₃, hb₃, h₃⟩
  rcases h₃.pushPair (by omega) htop AT_PHENT aux.at_phent with ⟨b₄, hb₄, h₄⟩
  rcases h₄.pushPair (by omega) htop AT_PHNUM aux.at_phnum with ⟨b₅, hb₅, h₅⟩
  rw [show sp - 8 - 8 - 16 - 16 - 16 - 16 = sp - 80 by omega] at hb₅ h₅
  rw [show sp - 8 - 8 = sp - 16 by omega] at h₅
  refine ⟨b₅, ?_, h₅⟩
  unfold copyargs.pairs
  rw [hb₁, Option.bind_eq_bind, Option.bind_some]
  dsimp only
  rw [hb₂, Option.bind_some]
  dsimp only
  rw [hb₃, Option.bind_some]
  dsimp only
  rw [hb₄, Option.bind_some]
  exact hb₅

def addresses (base : BitVec 64) (sp : Int) : List Arg → List (BitVec 64)
  | [] => []
  | arg :: argv => address base (sp - arg.length - 1) :: addresses base (sp - arg.length - 1) argv

@[simp]
theorem addresses_length : (addresses base sp argv).length = argv.length := by
  induction argv generalizing sp with
  | nil => rfl
  | cons arg argv ih =>
    unfold addresses
    rw [List.length_cons, List.length_cons, ih]

theorem addresses_place (hn : argv[n]? = some arg)
    : (addresses base sp argv)[n]? = some (address base (place sp argv n)) := by
  induction argv generalizing sp n with
  | nil => cases hn
  | cons a argv ih =>
    unfold addresses
    cases n with
    | zero => rw [List.getElem?_cons_zero, place_zero]
    | succ n =>
      rw [List.getElem?_cons_succ] at hn
      rw [List.getElem?_cons_succ, place_succ]
      exact ih hn

theorem copyargs.pointers_eq {oldrsp : Int} (hnonneg : 0 ≤ sp + 8 * i)
    (hsize : sp + 8 * (i + argv.length) ≤ b.size)
    : ∃ b', pointers base b sp oldrsp i argv = some b'
        ∧ b.Kept b' (sp + 8 * i) (sp + 8 * (i + argv.length))
        ∧ b'.Lie (sp + 8 * i) (addresses base oldrsp argv) := by
  induction argv generalizing b oldrsp i with
  | nil => exact ⟨b, rfl, Block.Kept.refl _ _ _, trivial⟩
  | cons arg argv ih =>
    rw [List.length_cons] at hsize
    rcases b.exists_store hnonneg (by omega) (address base (oldrsp - (arg.length + 1)))
      with ⟨b₁, hb₁, hkept₁, hload₁⟩
    have hsize₁ := hkept₁.size
    rcases @ih b₁ (i + 1) (oldrsp - (arg.length + 1)) (by omega) (by omega) with ⟨b₂, hb₂, hkept₂, hlie₂⟩
    refine ⟨b₂, ?_, ?_, ?_⟩
    . unfold pointers
      dsimp only
      rw [hb₁, Option.bind_eq_bind, Option.bind_some]
      exact hb₂
    . rw [List.length_cons]
      exact Block.Kept.trans (hkept₁.mono (by omega) (by omega)) (hkept₂.mono (by omega) (by omega))
    . unfold addresses
      rw [show oldrsp - arg.length - 1 = oldrsp - (arg.length + 1) by omega]
      refine ⟨?_, ?_⟩
      . rw [hkept₂.load (Or.inl (by omega))]
        exact hload₁
      . rw [show sp + 8 * i + 8 = sp + 8 * (i + 1) by omega]
        exact hlie₂

end Pushes

def stackWords (base : BitVec 64) (sp : Int) (argv : List Arg) (aux : Auxval) (stale : BitVec 64)
    : List (BitVec 64) :=
  BitVec.ofNat 64 argv.length :: (addresses base sp argv ++ 0#64 :: auxWords aux stale)

section Copyargs

variable {sp' : Int}

theorem copyargs_eq (hsp : sp ≤ b.size) (hfit : imageSize argv ≤ sp)
    : ∃ b', copyargs base b sp argv aux = some (b', sp - imageSize argv)
        ∧ b.Kept b' (sp - imageSize argv) sp
        ∧ b'.Lie (sp - imageSize argv)
            (stackWords base sp argv aux (b.word (sp - stringSize argv - 16)))
        ∧ ∀ n arg, argv[n]? = some arg → Holds b' (place sp argv n) arg := by
  unfold imageSize at *
  rcases copyargs.strings_eq hsp (show stringSize argv ≤ sp by omega) with ⟨b₁, hb₁, hkept₁, hholds⟩
  have hsize₁ := hkept₁.size
  rcases Grown.pairs b₁ (show 80 ≤ sp - stringSize argv by omega) (by omega) aux with ⟨b₂, hb₂, hpairs⟩
  rcases hpairs.push (by omega) (by omega) 0#64 with ⟨b₃, hb₃, hnull⟩
  have hsize₃ := hnull.kept.size
  have hspace : (addresses base sp argv).length = argv.length := addresses_length
  rcases @copyargs.pointers_eq base b₃ (sp - stringSize argv - 80 - 8 - 8 * argv.length) 0 argv sp (by omega)
    (by omega) with ⟨b₄, hb₄, hkept₄, hlie₄⟩
  rw [Int.mul_zero, Int.add_zero] at hkept₄ hlie₄
  rw [← hspace] at hkept₄ hlie₄
  have haddrs := hnull.append (hkept₄.mono (by omega) (by omega)) hlie₄
  rw [hspace] at haddrs
  rcases haddrs.push (by omega) (by omega) (BitVec.ofNat 64 argv.length) with ⟨b₅, hb₅, hgrown⟩
  have hsp' : sp - stringSize argv - 80 - 8 - 8 * (argv.length : Int) - 8
      = sp - (stringSize argv + 8 * (argv.length + 12) : Nat) := by omega
  rw [hsp'] at hb₅ hgrown
  refine ⟨b₅, ?_, ?_, ?_, ?_⟩
  . unfold copyargs
    dsimp only
    rw [hb₁, Option.bind_eq_bind, Option.bind_some]
    dsimp only
    rw [hb₂, Option.bind_some]
    dsimp only
    rw [hb₃, Option.bind_some]
    dsimp only
    rw [hb₄]
    exact hb₅
  . exact Block.Kept.trans (hkept₁.mono (by omega) (by omega)) (hgrown.kept.mono (by omega) (by omega))
  . have hstale : b₁.load (sp - stringSize argv - 16) = b.load (sp - stringSize argv - 16) :=
      hkept₁.load (Or.inl (by omega))
    rw [Block.load_eq (by unfold Block.Inside; omega), Block.load_eq (by unfold Block.Inside; omega)] at hstale
    rw [← Option.some.inj hstale]
    exact hgrown.lie
  . intro n arg harg
    apply (hholds n arg harg).kept hgrown.kept
    -- The words are pushed below the strings.
    right
    exact stringSize_le_place harg

theorem copyargs_sp (h : copyargs base b sp argv aux = some (b', sp')) : sp' = sp - imageSize argv ∧ 0 ≤ sp' := by
  unfold copyargs at h
  dsimp only at h
  rcases Option.bind_eq_some_iff.mp h with ⟨⟨b₁, sp₁⟩, h₁, hrest⟩
  rcases Option.bind_eq_some_iff.mp hrest with ⟨⟨b₂, sp₂⟩, h₂, hrest⟩
  rcases Option.bind_eq_some_iff.mp hrest with ⟨⟨b₃, sp₃⟩, h₃, hrest⟩
  rcases Option.bind_eq_some_iff.mp hrest with ⟨b₄, h₄, hrest⟩
  have hstrings := copyargs.strings_sp h₁
  have hpairs := copyargs.pairs_sp h₂
  have hnull := copyargs.push_sp h₃
  have hargc := copyargs.push_sp hrest
  dsimp only at hpairs hnull hargc
  unfold imageSize
  omega

theorem copyargs_isSome_iff (hsp : sp ≤ b.size) : (copyargs base b sp argv aux).isSome ↔ imageSize argv ≤ sp := by
  constructor
  . intro h
    rcases Option.isSome_iff_exists.mp h with ⟨⟨b', sp'⟩, heq⟩
    have hbound := copyargs_sp heq
    omega
  . intro hfit
    rcases @copyargs_eq base b sp argv aux hsp hfit with ⟨b', heq, _⟩
    rw [heq]
    rfl

theorem stackWords_pointer (hn : argv[n]? = some arg) (stale : BitVec 64)
    : (stackWords base sp argv aux stale)[n + 1]? = some (address base (place sp argv n)) := by
  have hlt := (List.getElem?_eq_some_iff.mp hn).1
  unfold stackWords
  rw [List.getElem?_cons_succ, List.getElem?_append_left (by rw [addresses_length]; exact hlt)]
  exact addresses_place hn

theorem stackWords_phnum (stale : BitVec 64)
    : (stackWords base sp argv aux stale)[argv.length + 2]? = some AT_PHNUM := by
  unfold stackWords
  rw [List.getElem?_cons_succ, List.getElem?_append_right (by rw [addresses_length]; omega), addresses_length,
    Nat.add_sub_cancel_left]
  rfl

end Copyargs

section Decode

variable {sp' : Int} {fuel : Nat} {image : Image}

/--
The stack shows the arguments, an empty environment and the four pairs to a program that reads it.
-/
def Decodes (base : BitVec 64) (b : Block) (argv : List Arg) (aux : Auxval) : Prop :=
  ∃ b' sp fuel image,
    copyargs base b b.size argv aux = some (b', sp)
      ∧ decode fuel base b' sp = some image
      ∧ image.argc = BitVec.ofNat 64 argv.length
      ∧ image.argv = argv.map Arg.text
      ∧ image.envp = []
      ∧ image.auxv.Perm
          [(AT_ENTRY, aux.at_entry), (AT_PHDR, aux.at_phdr), (AT_PHENT, aux.at_phent), (AT_PHNUM, aux.at_phnum)]

theorem decode.words_nil (h : words b fuel i = some ([], j)) : b.load i = some 0#64 := by
  cases fuel with
  | zero => cases h
  | succ fuel =>
    unfold words at h
    rcases Option.bind_eq_some_iff.mp h with ⟨v, hv, hrest⟩
    split at hrest
    . next hzero =>
      rw [hzero] at hv
      exact hv
    . rcases Option.bind_eq_some_iff.mp hrest with ⟨⟨vs, k⟩, _, hcons⟩
      cases (Prod.mk.inj (Option.some.inj hcons)).1

theorem decode_envp (h : decode fuel base b sp = some image) (henv : image.envp = [])
    : b.load sp = some image.argc ∧ b.load (sp + 8 + 8 * image.argc.toNat + 8) = some 0#64 := by
  unfold decode at h
  rcases Option.bind_eq_some_iff.mp h with ⟨argc, hargc, hrest⟩
  rcases Option.bind_eq_some_iff.mp hrest with ⟨ss, _, hrest⟩
  rcases Option.bind_eq_some_iff.mp hrest with ⟨null, _, hrest⟩
  split at hrest
  . cases hrest
  . rcases Option.bind_eq_some_iff.mp hrest with ⟨⟨envp, k⟩, hwords, hrest⟩
    rcases Option.bind_eq_some_iff.mp hrest with ⟨auxv, _, himage⟩
    rw [← Option.some.inj himage] at henv ⊢
    dsimp only at henv hwords ⊢
    rw [henv] at hwords
    exact ⟨hargc, decode.words_nil hwords⟩

theorem envp_ne_nil (hb : b.size < 2 ^ 64) (h : copyargs base b b.size argv aux = some (b', sp))
    (hdecode : decode fuel base b' sp = some image) : image.envp ≠ [] := by
  intro henv
  have hbound := copyargs_sp h
  unfold imageSize at hbound
  have hfit : (imageSize argv : Int) ≤ b.size := by
    unfold imageSize
    omega
  rcases @copyargs_eq base b b.size argv aux (Int.le_refl _) hfit with ⟨b₁, h₁, _, hlie, _⟩
  rw [h] at h₁
  rcases Prod.mk.inj (Option.some.inj h₁) with ⟨hb₁, hsp⟩
  rw [← hb₁, ← hsp] at hlie
  rcases decode_envp hdecode henv with ⟨hargc, hzero⟩
  have hlength := hlie.1
  rw [hargc] at hlength
  have hphnum := hlie.load (stackWords_phnum _)
  rw [Option.some.inj hlength, BitVec.toNat_ofNat, Nat.mod_eq_of_lt (by omega),
    show sp + 8 + 8 * (argv.length : Int) + 8 = sp + 8 * ((argv.length + 2 : Nat) : Int) by omega, hphnum] at hzero
  cases hzero

/--
A program never finds the environment empty that `copyargs` has not terminated, however large the stack is and
whatever it held before.
-/
theorem not_decodes (base size : BitVec 64) (stale : Nat → UInt8) (argv : List Arg) (aux : Auxval)
    : ¬ Decodes base { size := size.toNat, byte := stale } argv aux := by
  rintro ⟨b', sp, fuel, image, hcopy, hdecode, _, _, henv, _⟩
  exact envp_ne_nil size.isLt hcopy hdecode henv

theorem not_decodes_no_args
    : ¬ Decodes 0x1000#64 { size := STACKSIZE, byte := fun _ => 0 } []
        { at_entry := 0x401000#64, at_phdr := 0x400040#64, at_phent := 56#64, at_phnum := 1#64 } := by
  rintro ⟨b', sp, fuel, image, hcopy, hdecode, _, _, henv, _⟩
  have hsize : STACKSIZE < 2 ^ 64 := by decide
  exact envp_ne_nil hsize hcopy hdecode henv

end Decode

section Stored

theorem Arg.find_le (arg : Arg) : Nat.find arg.exists_zero ≤ arg.length :=
  Nat.find_min' arg.exists_zero arg.byte_length

theorem Holds.get {c : UInt8} (h : Holds b i arg) (hc : (arg.text ++ [0])[n]? = some c) : b.get (i + n) = some c := by
  have hi := h.nonneg
  have hin := h.inside
  have hfind := arg.find_le
  have hlength : arg.text.length = Nat.find arg.exists_zero := by
    unfold Arg.text
    rw [List.length_map, List.length_range]
  have hle : n ≤ Nat.find arg.exists_zero := by
    have hlt := (List.getElem?_eq_some_iff.mp hc).1
    rw [List.length_append, hlength, List.length_singleton] at hlt
    omega
  have hbyte : arg.byte n = c := by
    by_cases hn : n = Nat.find arg.exists_zero
    . rw [List.getElem?_append_right (by omega), hlength, hn, Nat.sub_self] at hc
      rw [hn, Nat.find_spec arg.exists_zero]
      exact Option.some.inj hc
    . rw [List.getElem?_append_left (by omega)] at hc
      unfold Arg.text at hc
      rw [List.getElem?_map, List.getElem?_range (by omega)] at hc
      exact Option.some.inj hc
  unfold Block.get
  rw [if_pos (by omega)]
  by_cases hn : n = arg.length
  . rw [hn, h.zero, ← hbyte, hn, arg.byte_length]
  . rw [h.byte n (by omega), hbyte]

theorem index_address (hi : 0 ≤ i) (hlt : i < 2 ^ 64) : decode.index base (address base i) = i := by
  unfold decode.index address
  rw [BitVec.add_comm, BitVec.add_sub_cancel, BitVec.toNat_ofInt]
  omega

theorem place_disjoint {m : Nat} {a : Arg} (hm : argv[m]? = some a) (hn : argv[n]? = some arg) (hlt : m < n)
    : place sp argv n + arg.length < place sp argv m := by
  induction argv generalizing sp m n with
  | nil => cases hn
  | cons b argv ih =>
    cases n with
    | zero => omega
    | succ n =>
      rw [List.getElem?_cons_succ] at hn
      rw [place_succ]
      cases m with
      | zero =>
        rw [place_zero]
        exact place_lt hn
      | succ m =>
        rw [List.getElem?_cons_succ] at hm
        rw [place_succ]
        exact ih hm hn (by omega)

/--
The arguments can be found from the index `sp` on, `start i` is where the string `i` has been copied to.
-/
structure Stored (base : BitVec 64) (b : Block) (sp : Int) (argv : List Arg) (start : Nat → Int) : Prop where
  argc : b.load sp = some (BitVec.ofNat 64 argv.length)
  pointer : ∀ (i : Nat) arg, argv[i]? = some arg → b.load (sp + 8 * (i + 1 : Nat)) = some (address base (start i))
  string : ∀ (i : Nat) arg, argv[i]? = some arg → ∀ (k : Nat) c, (arg.text ++ [0])[k]? = some c →
    b.get (decode.index base (address base (start i)) + k) = some c
  -- The words of the image end below all strings.
  words : ∀ (i : Nat) arg, argv[i]? = some arg → sp + 8 * (argv.length + 12) ≤ start i
  disjoint : ∀ (i j : Nat) arg a, argv[i]? = some arg → argv[j]? = some a → i ≠ j →
    start i + arg.length < start j ∨ start j + a.length < start i

theorem stored (hb : b.size < 2 ^ 64) (hsp : sp ≤ b.size) (hfit : imageSize argv ≤ sp)
    : ∃ b', copyargs base b sp argv aux = some (b', sp - imageSize argv)
        ∧ Stored base b' (sp - imageSize argv) argv (place sp argv) := by
  rcases @copyargs_eq base b sp argv aux hsp hfit with ⟨b', hb', hkept, hlie, hholds⟩
  refine ⟨b', hb', hlie.1, ?_, ?_, ?_, ?_⟩
  . intro i arg hi
    exact hlie.load (stackWords_pointer hi _)
  . intro i arg hi k c hc
    have hcopy := hholds i arg hi
    have hhigh := hcopy.inside
    rw [hkept.size] at hhigh
    rw [index_address hcopy.nonneg (by omega)]
    exact hcopy.get hc
  . intro i arg hi
    have hle := @stringSize_le_place sp arg argv i hi
    unfold imageSize
    omega
  . intro i j arg a hi hj hne
    rcases Nat.lt_or_gt_of_ne hne with hlt | hlt
    . exact Or.inr (place_disjoint hi hj hlt)
    . exact Or.inl (place_disjoint hj hi hlt)

/--
An image that fits the stack: the word at the top is `argc`, the words that follow are the addresses of copies of
the strings, and the copies lie apart from each other and above all words.
-/
theorem copyargs_stored (base : BitVec 64) (stale : Nat → UInt8) (argv : List Arg) (aux : Auxval)
    (hfit : imageSize argv ≤ STACKSIZE)
    : ∃ b sp start,
        copyargs base { size := STACKSIZE, byte := stale } STACKSIZE argv aux = some (b, sp)
          ∧ Stored base b sp argv start := by
  have hsize : STACKSIZE < 2 ^ 64 := by decide
  have hstack : (imageSize argv : Int) ≤ STACKSIZE := by omega
  rcases @stored base { size := STACKSIZE, byte := stale } STACKSIZE argv aux hsize (Int.le_refl _) hstack
    with ⟨b, hb, hstored⟩
  exact ⟨b, _, _, hb, hstored⟩

def oneArg : Arg where
  byte k := [104, 105].getD k 0
  ends := ⟨2, by decide, by rfl⟩

theorem oneArg_length : oneArg.length = 2 := by
  unfold Arg.length
  rw [Nat.find_eq_iff]
  decide

theorem imageSize_oneArg : imageSize [oneArg] = 107 := by
  unfold imageSize
  rw [stringSize_cons, oneArg_length]
  rfl

def flagArg : Arg where
  byte k := [45, 102].getD k 0
  ends := ⟨2, by decide, by rfl⟩

theorem flagArg_length : flagArg.length = 2 := by
  unfold Arg.length
  rw [Nat.find_eq_iff]
  decide

theorem imageSize_twoArgs : imageSize [oneArg, flagArg] = 118 := by
  unfold imageSize
  rw [stringSize_cons, stringSize_cons, oneArg_length, flagArg_length]
  rfl

theorem copyargs_stored_twoArgs
    : ∃ b sp start,
        copyargs 0x1000#64 { size := STACKSIZE, byte := fun _ => 0 } STACKSIZE [oneArg, flagArg]
            { at_entry := 0x401000#64, at_phdr := 0x400040#64, at_phent := 56#64, at_phnum := 1#64 }
          = some (b, sp)
          ∧ Stored 0x1000#64 b sp [oneArg, flagArg] start :=
  copyargs_stored 0x1000#64 (fun _ => 0) [oneArg, flagArg] _ (by rw [imageSize_twoArgs]; decide)

end Stored

end Exec
end Franklin
