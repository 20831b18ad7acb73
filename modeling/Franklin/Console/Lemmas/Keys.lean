import Franklin.Console.Lemmas.Waits

/-!
This module contains what the bytes of the keyboard stand for: presses and releases of keys, of which `kbd_press`
keeps the state of shift and caps lock.
-/

namespace Franklin
namespace Console

inductive Stroke where
  | press (key : Byte)
  | release (key : Byte)
  deriving DecidableEq, Repr

namespace Stroke

def key : Stroke → Byte
  | press key => key
  | release key => key

def bytes : Stroke → List Byte
  | press key => [key]
  | release key => [0xF0, key]

end Stroke

structure Board where
  shift : Bool
  caps : Bool
  deriving DecidableEq, Repr

namespace Board

def flags (b : Board) : Byte :=
  (if b.caps then 1 else 0) ||| (if b.shift then 2 else 0)

def stroke (b : Board) : Stroke → Board
  | .press key =>
    if key = 0x12 then { b with shift := true } else if key = 0x58 then { b with caps := !b.caps } else b
  | .release key => if key = 0x12 then { b with shift := false } else b

def legends : List (Byte × Char) := [
  (0x0D, '\t'), (0x15, 'q'), (0x16, '1'), (0x1A, 'z'), (0x1B, 's'), (0x1C, 'a'), (0x1D, 'w'), (0x1E, '2'),
  (0x21, 'c'), (0x22, 'x'), (0x23, 'd'), (0x24, 'e'), (0x25, '4'), (0x26, '3'), (0x29, ' '), (0x2A, 'v'),
  (0x2B, 'f'), (0x2C, 't'), (0x2D, 'r'), (0x2E, '5'), (0x31, 'n'), (0x32, 'b'), (0x33, 'h'), (0x34, 'g'),
  (0x35, 'y'), (0x36, '6'), (0x3A, 'm'), (0x3B, 'j'), (0x3C, 'u'), (0x3D, '7'), (0x3E, '8'), (0x41, ','),
  (0x42, 'k'), (0x43, 'i'), (0x44, 'o'), (0x45, '0'), (0x46, '9'), (0x49, '.'), (0x4A, '/'), (0x4B, 'l'),
  (0x4C, ';'), (0x4D, 'p'), (0x4E, '-'), (0x54, '['), (0x55, '='), (0x5A, '\n')]

/--
The byte of a key: a NUL where there is no character on it, and what is behind the table where there is no entry.
-/
def legend (beyond : Byte → Byte) (key : Byte) : Byte :=
  match legends.lookup key with
  | some c => BitVec.ofNat 8 c.toNat
  | none => if key.toNat < 127 then 0 else beyond key

def capital (c : Byte) : Byte :=
  if (Char.ofNat c.toNat).isLower then BitVec.ofNat 8 (Char.ofNat c.toNat).toUpper.toNat else c - 32

def shows (beyond : Byte → Byte) (b : Board) : Stroke → List Byte
  | .press key =>
    if key = 0x12 ∨ key = 0x58 then
      []
    else if b.shift ∨ b.caps then
      [capital (legend beyond key)]
    else
      [legend beyond key]
  | .release _ => []

def text (beyond : Byte → Byte) (b : Board) : List Stroke → List Byte
  | [] => []
  | k :: ks => b.shows beyond k ++ text beyond (b.stroke k) ks

def run (b : Board) (ks : List Stroke) : Board :=
  ks.foldl stroke b

/--
Shift is pressed when it is up and released when it is down.
-/
def Turns (b : Board) (k : Stroke) : Prop :=
  k.key = 0x12 → k = if b.shift then .release 0x12 else .press 0x12

instance (b : Board) (k : Stroke) : Decidable (b.Turns k) :=
  inferInstanceAs (Decidable (k.key = 0x12 → k = if b.shift then .release 0x12 else .press 0x12))

theorem legend_eq (beyond : Byte → Byte) (key : Byte) : legend beyond key = kbd_us beyond key := by
  have htable : ∀ n < 127, legend (fun _ => 0) (BitVec.ofNat 8 n) = kbd_us (fun _ => 0) (BitVec.ofNat 8 n) := by
    decide +kernel
  by_cases hkey : key.toNat < 127
  . have heq := htable key.toNat hkey
    rw [BitVec.ofNat_toNat, BitVec.setWidth_eq] at heq
    unfold legend kbd_us at heq ⊢
    simpa only [if_pos hkey] using heq
  . have hlookup : ∀ n < 256, ¬ n < 127 → legends.lookup (BitVec.ofNat 8 n) = none := by
      decide +kernel
    have hnone := hlookup key.toNat key.isLt hkey
    rw [BitVec.ofNat_toNat, BitVec.setWidth_eq] at hnone
    unfold legend kbd_us
    rw [hnone, if_neg hkey, if_neg hkey]

theorem capital_eq (c : Byte) : capital c = c - 32 := by
  have hbyte : ∀ n < 256, capital (BitVec.ofNat 8 n) = BitVec.ofNat 8 n - 32 := by
    decide +kernel
  have heq := hbyte c.toNat c.isLt
  rwa [BitVec.ofNat_toNat, BitVec.setWidth_eq] at heq

section Plain

variable {b : Board} {key : Byte} (h12 : key ≠ 0x12) (h58 : key ≠ 0x58)

include h12

theorem stroke_release : b.stroke (.release key) = b :=
  if_neg h12

theorem turns_of_ne {k : Stroke} (hkey : k.key = key) : b.Turns k :=
  fun heq => absurd (hkey.symm.trans heq) h12

include h58

theorem stroke_press : b.stroke (.press key) = b :=
  (if_neg h12).trans (if_neg h58)

theorem shows_press (beyond : Byte → Byte)
    : b.shows beyond (.press key) = (print_char (kbd_us beyond key) b.flags).bytes := by
  unfold shows print_char
  dsimp only
  rw [if_neg (not_or.mpr ⟨h12, h58⟩), capital_eq, legend_eq]
  rcases b with ⟨shift, caps⟩
  cases shift <;> cases caps <;> rfl

end Plain

/--
Each stroke of shift turns it over, and no key has the scan code `0xF0`.
-/
def Regular (b : Board) : List Stroke → Prop
  | [] => True
  | k :: ks => k.key ≠ 0xF0 ∧ b.Turns k ∧ Regular (b.stroke k) ks

end Board

namespace State

variable {T : Type} [DecidableEq T]

def drain : Nat → State T → State T
  | 0, s => s
  | fuel + 1, s => if s.handler = none then s else drain fuel s.step

def serve (beyond : Byte → Byte) (s : State T) (keycode : Byte) : State T :=
  drain 4 (s.next beyond (.kbd keycode))

structure Ready (s : State T) : Prop where
  spinlock : s.spinlock = false
  handler : s.handler = none

variable {beyond : Byte → Byte} {s : State T}

theorem drain_of_none (hhandler : s.handler = none) (fuel : Nat) : s.drain fuel = s := by
  cases fuel with
  | zero => rfl
  | succ fuel => exact if_pos hhandler

omit [DecidableEq T] in
theorem eoi_eq {keycode : Byte} (hf0 : keycode ≠ 0xF0) (s : State T)
    : s.eoi keycode = { s with key_release := 0, handler := none } := by
  unfold eoi
  by_cases hrelease : s.key_release = 0
  . rw [if_neg (fun h => h.2 hrelease), hrelease]
  . rw [if_pos ⟨hf0, hrelease⟩]

theorem drain_print (hlock : s.spinlock = false) (keycode c : Byte)
    : drain 4 { s with handler := some ⟨keycode, .acquire (.print (.char c))⟩ } =
        { s with screen := s.screen ++ [c] }.eoi keycode := by
  simp [drain, step, exec, Call.body, Text.char, Text.bytes, hlock, eoi]

theorem serve_eq (h : Ready s) (keycode : Byte)
    : s.serve beyond keycode =
        if keycode = 0xF0 then
          { s with key_release := 1 }
        else if keycode = 0x12 then
          { s with key_release := 0, flags := s.flags ^^^ 2 }
        else if s.key_release ≠ 0 then
          { s with key_release := 0 }
        else if keycode = 0x58 then
          { s with key_release := 0, flags := s.flags ^^^ 1 }
        else
          { s with key_release := 0, screen := s.screen ++ (print_char (kbd_us beyond keycode) s.flags).bytes } := by
  unfold serve next
  dsimp only
  rw [if_pos h.handler]
  unfold kbd_press
  dsimp only
  by_cases hf0 : keycode = 0xF0
  . have h12 : keycode ≠ 0x12 := by simp [hf0]
    rw [if_pos hf0, if_pos hf0, if_neg h12, if_neg (by simp), drain_of_none rfl]
    simp [eoi, hf0, h.handler]
  rw [if_neg hf0, if_neg hf0]
  by_cases h12 : keycode = 0x12
  . have h58 : keycode ≠ 0x58 := by simp [h12]
    rw [if_pos h12, if_pos h12, if_neg h58, if_neg (not_not.mpr h12), ite_self, drain_of_none rfl, eoi_eq hf0,
      h.handler]
  rw [if_neg h12, if_neg h12]
  by_cases hrelease : s.key_release = 0
  . rw [if_pos hrelease, if_neg (not_not.mpr hrelease)]
    by_cases h58 : keycode = 0x58
    . rw [if_pos h58, if_pos h58, drain_of_none rfl, eoi_eq hf0, h.handler]
    . rw [if_neg h58, if_neg h58, if_pos h12, print_char, drain_print h.spinlock keycode, eoi_eq hf0, h.handler]
      rfl
  . rw [if_neg hrelease, if_pos hrelease, drain_of_none rfl, eoi_eq hf0, h.handler]

def serveAll (beyond : Byte → Byte) (s : State T) (bytes : List Byte) : State T :=
  bytes.foldl (serve beyond) s

theorem serveAll_append (s : State T) (l l' : List Byte)
    : s.serveAll beyond (l ++ l') = (s.serveAll beyond l).serveAll beyond l' :=
  List.foldl_append

structure Tracks (s : State T) (b : Board) : Prop where
  ready : Ready s
  key_release : s.key_release = 0
  flags : s.flags = b.flags

def typed (beyond : Byte → Byte) (s : State T) (b : Board) (ks : List Stroke) : State T :=
  { s with flags := (b.run ks).flags, screen := s.screen ++ b.text beyond ks }

omit [DecidableEq T] in
theorem Tracks.typed {b : Board} (h : Tracks s b) (ks : List Stroke) : Tracks (s.typed beyond b ks) (b.run ks) :=
  ⟨⟨h.ready.spinlock, h.ready.handler⟩, h.key_release, rfl⟩

theorem serveAll_press {b : Board} {key : Byte} (h : Tracks s b) (hf0 : key ≠ 0xF0) (hturns : b.Turns (.press key))
    : s.serveAll beyond [key] = s.typed beyond b [.press key] := by
  show s.serve beyond key = _
  rw [serve_eq h.ready, if_neg hf0]
  unfold typed Board.text Board.run
  simp only [List.foldl_cons, List.foldl_nil, Board.text, List.append_nil, Board.stroke]
  by_cases h12 : key = 0x12
  . have hup : b.shift = false := by
      have hk := hturns h12
      by_contra hshift
      rw [Bool.not_eq_false] at hshift
      rw [hshift] at hk
      cases hk
    have hshows : b.shows beyond (.press key) = [] := if_pos (Or.inl h12)
    rw [if_pos h12, if_pos h12, hshows, List.append_nil, h.flags, h.key_release]
    congr 1
    rcases b with ⟨shift, caps⟩
    cases hup
    cases caps <;> rfl
  rw [if_neg h12, if_neg h12, if_neg (not_not.mpr h.key_release), h.key_release]
  by_cases h58 : key = 0x58
  . have hshows : b.shows beyond (.press key) = [] := if_pos (Or.inr h58)
    rw [if_pos h58, if_pos h58, hshows, List.append_nil, h.flags]
    congr 1
    rcases b with ⟨shift, caps⟩
    cases shift <;> cases caps <;> rfl
  . rw [if_neg h58, if_neg h58, Board.shows_press h12 h58, h.flags]

theorem serveAll_release {b : Board} {key : Byte} (h : Tracks s b) (hf0 : key ≠ 0xF0) (hturns : b.Turns (.release key))
    : s.serveAll beyond [0xF0, key] = s.typed beyond b [.release key] := by
  have hready : Ready { s with key_release := 1 } := ⟨h.ready.spinlock, h.ready.handler⟩
  show (s.serve beyond 0xF0).serve beyond key = _
  rw [serve_eq h.ready, if_pos rfl, serve_eq hready, if_neg hf0]
  unfold typed Board.text Board.run
  simp only [List.foldl_cons, List.foldl_nil, Board.text, List.append_nil, Board.stroke, Board.shows]
  by_cases h12 : key = 0x12
  . have hdown : b.shift = true := by
      have hk := hturns h12
      by_contra hshift
      rw [Bool.not_eq_true] at hshift
      rw [hshift] at hk
      cases hk
    rw [if_pos h12, if_pos h12, h.flags, h.key_release]
    congr 1
    rcases b with ⟨shift, caps⟩
    cases hdown
    cases caps <;> rfl
  rw [if_neg h12, if_neg h12, if_pos (by simp), h.flags, h.key_release]

theorem serveAll_stroke {b : Board} {k : Stroke} (h : Tracks s b) (hf0 : k.key ≠ 0xF0) (hturns : b.Turns k)
    : s.serveAll beyond k.bytes = s.typed beyond b [k] := by
  cases k with
  | press key => exact serveAll_press h hf0 hturns
  | release key => exact serveAll_release h hf0 hturns

theorem serveAll_regular {b : Board} {ks : List Stroke} (h : Tracks s b) (hks : b.Regular ks)
    : s.serveAll beyond (ks.flatMap Stroke.bytes) = s.typed beyond b ks := by
  induction ks generalizing s b with
  | nil =>
    unfold typed Board.run
    simp only [List.foldl_nil, Board.text, List.append_nil, ← h.flags]
    rfl
  | cons k ks ih =>
    rcases hks with ⟨hf0, hturns, hks⟩
    have hstroke := @serveAll_stroke T _ beyond s b k h hf0 hturns
    have htracks : Tracks (s.typed beyond b [k]) (b.stroke k) := h.typed [k]
    rw [List.flatMap_cons, serveAll_append, hstroke, ih htracks hks]
    simp [typed, Board.run, Board.text]

theorem flags_of_not_turns {b : Board} {k : Stroke} (h : Tracks s b) (hturns : ¬ b.Turns k)
    : (s.serveAll beyond k.bytes).flags ≠ (b.stroke k).flags := by
  have hkey : k.key = 0x12 := by
    by_contra hne
    exact hturns (fun heq => absurd heq hne)
  have hk : k ≠ if b.shift then .release 0x12 else .press 0x12 := fun heq => hturns (fun _ => heq)
  have hready : Ready { s with key_release := 1 } := ⟨h.ready.spinlock, h.ready.handler⟩
  rcases b with ⟨shift, caps⟩
  cases k with
  | press key =>
    cases hkey
    show (s.serve beyond 0x12).flags ≠ _
    rw [serve_eq h.ready, if_neg (by decide), if_pos rfl]
    dsimp only
    rw [h.flags]
    cases shift with
    | false => exact absurd rfl hk
    | true => cases caps <;> decide
  | release key =>
    cases hkey
    show ((s.serve beyond 0xF0).serve beyond 0x12).flags ≠ _
    rw [serve_eq h.ready, if_pos rfl, serve_eq hready, if_neg (by decide), if_pos rfl]
    dsimp only
    rw [h.flags]
    cases shift with
    | false => cases caps <;> decide
    | true => exact absurd rfl hk

/--
As long as each stroke of shift turns it over, `kbd_press` shows what is typed and knows the state of the keyboard,
and the first time that one does not, as when a key is held and the keyboard repeats it, the state is wrong.
-/
theorem kbd_press_decodes {b : Board} {ks : List Stroke} (h : Tracks s b) (hks : b.Regular ks)
    : s.serveAll beyond (ks.flatMap Stroke.bytes) = s.typed beyond b ks ∧
        ∀ k : Stroke, ¬ (b.run ks).Turns k →
          (s.serveAll beyond ((ks ++ [k]).flatMap Stroke.bytes)).flags ≠ (b.run (ks ++ [k])).flags := by
  have heq := @serveAll_regular T _ beyond s b ks h hks
  refine ⟨heq, ?_⟩
  intro k hturns
  rw [List.flatMap_append, serveAll_append, heq, List.flatMap_singleton]
  have hrun : b.run (ks ++ [k]) = (b.run ks).stroke k := by simp [Board.run]
  rw [hrun]
  exact flags_of_not_turns (h.typed ks) hturns

theorem tracks_booted : Tracks booted ⟨false, false⟩ :=
  ⟨⟨rfl, rfl⟩, rfl, rfl⟩

theorem kbd_press_decodes_booted
    : (booted.serveAll (fun _ => 0) [0x12, 0x1C, 0xF0, 0x1C, 0x01]).screen = [0x41, 0xE0] ∧
        (booted.serveAll (fun _ => 0) [0x12, 0x1C, 0xF0, 0x1C, 0x01, 0x12]).flags ≠ Board.flags ⟨true, false⟩ := by
  have hks : Board.Regular ⟨false, false⟩ [.press 0x12, .press 0x1C, .release 0x1C, .press 0x01] :=
    ⟨by decide, by decide, by decide, by decide, by decide, by decide, by decide, by decide, trivial⟩
  rcases @kbd_press_decodes _ _ (fun _ => 0) booted _ _ tracks_booted hks with ⟨htyped, hturns⟩
  constructor
  . exact (congrArg State.screen htyped).trans (by decide)
  . exact hturns (.press 0x12) (by decide)

end State

def keyOf (c : Byte) : Option Byte :=
  if c = 0 then none else ((List.range 127).map (BitVec.ofNat 8)).find? fun key => kbd_us (fun _ => 0) key = c

/--
How a character is typed: with its own key, or with shift and the key of the character 32 places behind it.
-/
def strokes (c : Byte) : List Stroke :=
  match keyOf c with
  | some key => [.press key, .release key]
  | none =>
    match keyOf (c + 32) with
    | some key => [.press 0x12, .press key, .release key, .release 0x12]
    | none => []

def Typeable (c : Byte) : Prop :=
  c ≠ 0 ∧ (keyOf c ≠ none ∨ keyOf (c + 32) ≠ none)

instance : DecidablePred Typeable := fun c =>
  inferInstanceAs (Decidable (c ≠ 0 ∧ (keyOf c ≠ none ∨ keyOf (c + 32) ≠ none)))

theorem keyOf_eq_some {c key : Byte} (h : keyOf c = some key) (beyond : Byte → Byte)
    : kbd_us beyond key = c ∧ key ≠ 0xF0 ∧ key ≠ 0x12 ∧ key ≠ 0x58 := by
  unfold keyOf at h
  split at h
  . cases h
  . next hc =>
    have hmem := List.mem_of_find?_eq_some h
    have hkey : kbd_us (fun _ => 0) key = c := by
      have := List.find?_some h
      exact of_decide_eq_true this
    rcases List.mem_map.mp hmem with ⟨n, hn, rfl⟩
    rw [List.mem_range] at hn
    have hlt : (BitVec.ofNat 8 n).toNat < 127 := by
      rw [BitVec.toNat_ofNat]
      omega
    refine ⟨?_, ?_, ?_, ?_⟩
    . rw [← hkey]
      unfold kbd_us
      rw [if_pos hlt, if_pos hlt]
    . intro heq
      rw [heq] at hlt
      exact absurd hlt (by decide)
    . intro heq
      rw [heq] at hkey
      exact hc hkey.symm
    . intro heq
      rw [heq] at hkey
      exact hc hkey.symm

theorem print_char_plain (c : Byte) : print_char c 0 = .char c := by
  unfold print_char
  rw [if_neg (show ¬ ((0 : Byte) &&& 1 ≠ 0 ∨ (0 : Byte) &&& 2 ≠ 0) by decide)]

theorem print_char_shift (c : Byte) : print_char (c + 32) 2 = .char c := by
  unfold print_char
  rw [if_pos (show (2 : Byte) &&& 1 ≠ 0 ∨ (2 : Byte) &&& 2 ≠ 0 by decide), BitVec.add_sub_cancel]

theorem typeable_of_letter (c : Byte) (hc : (Char.ofNat c.toNat).isAlpha) : Typeable c := by
  have hbyte : ∀ n < 256, (Char.ofNat n).isAlpha → Typeable (BitVec.ofNat 8 n) := by
    decide +kernel
  have htypeable := hbyte c.toNat c.isLt hc
  rwa [BitVec.ofNat_toNat, BitVec.setWidth_eq] at htypeable

theorem strokes_typed {c : Byte} (hc : Typeable c) (beyond : Byte → Byte)
    : Board.Regular ⟨false, false⟩ (strokes c) ∧ Board.run ⟨false, false⟩ (strokes c) = ⟨false, false⟩ ∧
        Board.text beyond ⟨false, false⟩ (strokes c) = [c] := by
  unfold strokes
  cases hkey : keyOf c with
  | some key =>
    rcases keyOf_eq_some hkey beyond with ⟨hus, hf0, h12, h58⟩
    refine ⟨⟨hf0, Board.turns_of_ne h12 rfl, hf0, Board.turns_of_ne h12 rfl, trivial⟩, ?_, ?_⟩
    . simp only [Board.run, List.foldl_cons, List.foldl_nil, Board.stroke_press h12 h58, Board.stroke_release h12]
    . have hflags : Board.flags ⟨false, false⟩ = 0 := rfl
      simp only [Board.text, Board.shows_press h12 h58, hus, hflags, print_char_plain]
      rfl
  | none =>
    cases hshift : keyOf (c + 32) with
    | some key =>
      rcases keyOf_eq_some hshift beyond with ⟨hus, hf0, h12, h58⟩
      have hdown : Board.stroke ⟨false, false⟩ (.press 0x12) = ⟨true, false⟩ := rfl
      refine ⟨⟨by decide, fun _ => rfl, hf0, Board.turns_of_ne h12 rfl, hf0, Board.turns_of_ne h12 rfl, by decide, ?_,
        trivial⟩, ?_, ?_⟩
      . intro _
        rw [hdown, Board.stroke_press h12 h58, Board.stroke_release h12]
        rfl
      . simp only [Board.run, List.foldl_cons, List.foldl_nil, hdown, Board.stroke_press h12 h58,
          Board.stroke_release h12]
        rfl
      . have hflags : Board.flags ⟨true, false⟩ = 2 := rfl
        simp only [Board.text, hdown, Board.shows_press h12 h58, hus, hflags, print_char_shift]
        rfl
    | none =>
      rcases hc.2 with hc | hc
      . exact absurd hkey hc
      . exact absurd hshift hc

namespace State

variable {T : Type} [DecidableEq T] {beyond : Byte → Byte} {s : State T}

/--
Whatever is typed character by character with shift up and caps lock off is shown as it is.
-/
theorem serveAll_text (h : Tracks s ⟨false, false⟩) (text : List Byte) (htext : ∀ c ∈ text, Typeable c)
    : s.serveAll beyond ((text.flatMap strokes).flatMap Stroke.bytes) = { s with screen := s.screen ++ text } := by
  induction text generalizing s with
  | nil =>
    rw [List.append_nil]
    rfl
  | cons c text ih =>
    rcases strokes_typed (htext c (List.mem_cons_self ..)) beyond with ⟨hregular, hrun, hshows⟩
    have htyped := @serveAll_regular T _ beyond s _ _ h hregular
    have htracks := @Tracks.typed T beyond s _ h (strokes c)
    rw [hrun] at htracks
    rw [List.flatMap_cons, List.flatMap_append, serveAll_append, htyped,
      ih htracks (fun c' hc' => htext c' (List.mem_cons_of_mem _ hc'))]
    unfold typed
    rw [hrun, hshows, h.flags, List.append_assoc]
    rfl

theorem serveAll_text_booted
    : (booted.serveAll (fun _ => 0) (([0x46, 0x6F, 0x6F, 0x20, 0x31] : List Byte).flatMap strokes |>.flatMap
        Stroke.bytes)).screen = [0x46, 0x6F, 0x6F, 0x20, 0x31] := by
  rw [serveAll_text tracks_booted _ (by decide)]
  rfl

end State

end Console
end Franklin
