import Mathlib.Data.List.GetD
import Mathlib.Tactic.Common

/-!
# `scancode.c`: from scancodes to keycodes

A keyboard sends one, two or three bytes when a key goes down and again when it
goes up; the high bit of the last byte tells which.  `do_scancode` drops the
bytes 0 and 255 wherever they stand, and the driver ignores the shifts that a
keyboard adds to extended keys.
-/

namespace Nebulea

/-- `SC_LIM`. -/
def scLim : Nat := 89

/-- `E1_PAUSE`. -/
def e1Pause : Nat := 119

/-- `high_keys`. -/
def highKeys : List Nat :=
  [124, 125, 126, 127, 0, 0, 0,
    0, 0, 0, 0, 0, 0, 0, 0,
    0, 0, 0, 0, 0, 122, 0, 123,
    0, 0, 0, 89, 120, 0, 0, 90,
    91, 92, 93, 94,
    95, 124, 121, 0]

/-- `e0_keys`. -/
def e0Keys : List Nat :=
  [0, 0, 0, 0, 0, 0, 0, 0,
    0, 0, 0, 0, 0, 0, 0, 0,
    0, 0, 0, 0, 0, 0, 0, 0,
    0, 0, 0, 0, 96, 97, 0, 0,
    0, 0, 0, 0, 0, 0, 0, 0,
    0, 0, 0, 0, 0, 0, 0, 0,
    0, 0, 0, 0, 0, 98, 0, 99,
    100, 0, 0, 0, 0, 113, 114, 115,
    116, 117, 0, 0, 0, 0, 101, 102,
    103, 104, 0, 105, 124, 106, 118, 107,
    108, 109, 110, 111, 0, 0, 0, 0,
    0, 0, 0, 125, 126, 127, 0, 0,
    0, 0, 0, 0, 0, 0, 0, 0,
    0, 0, 0, 0, 0, 0, 0, 112,
    0, 0, 0, 0, 0, 0, 0, 0,
    0, 0, 0, 0, 0, 0, 0, 0]

/-- `kbd_translate`: the new `prev_scancode`, and the keycode if there is
one. -/
def kbdTranslate (prev scancode : Nat) : Nat × Option Nat :=
  if scancode = 0xe0 ∨ scancode = 0xe1 then (scancode, none)
  else if scancode = 0 ∨ scancode = 0xff then (0, none)
  else
    let scancode := scancode % 0x80
    if prev ≠ 0 then
      if prev ≠ 0xe0 then
        if prev = 0xe1 ∧ scancode = 0x1d then (0x100, none)
        else if prev = 0x100 ∧ scancode = 0x45 then (0, some e1Pause)
        else (0, none)
      else if scancode = 0x2a ∨ scancode = 0x36 then (0, none)
      else
        let keycode := e0Keys.getD scancode 0
        if keycode ≠ 0 then (0, some keycode) else (0, none)
    else if scancode ≥ scLim then
      let keycode := highKeys.getD (scancode - scLim) 0
      if keycode = 0 then (prev, none) else (prev, some keycode)
    else (prev, some scancode)

/-- `kbd_unexpected_up`, not being zero. -/
def kbdUnexpectedUp (keycode : Nat) : Bool :=
  ¬ (keycode ≥ scLim ∨ keycode = 85)

/-- `down` of `handle_scancode`, negated. -/
def isUp (scancode : Nat) : Bool :=
  0x80 ≤ scancode

/-- A key goes down or up. -/
structure KeyEvent where
  keycode : Nat
  up : Bool
  deriving DecidableEq, Repr

/-- `do_scancode`, up to the keycode. -/
def decodeScancode (prev scancode : Nat) : Nat × Option KeyEvent :=
  if scancode = 0 ∨ scancode = 0xff then (prev, none)
  else
    let (prev, keycode) := kbdTranslate prev scancode
    (prev, keycode.map fun keycode => ⟨keycode, isUp scancode⟩)

/-- The events of some scancodes, and `prev_scancode` after them. -/
def decodeScancodes : Nat → List Nat → List KeyEvent × Nat
  | prev, [] => ([], prev)
  | prev, scancode :: rest =>
      let (prev, event) := decodeScancode prev scancode
      let (events, prev) := decodeScancodes prev rest
      (event.toList ++ events, prev)

/-! ## What a keyboard sends -/

/-- The keys of a keyboard, by what they send. -/
inductive Key where
  /-- One byte. -/
  | plain (scancode : Nat)
  /-- A byte behind 0xe0. -/
  | extended (scancode : Nat)
  | pause
  deriving DecidableEq, Repr

/-- What a keyboard sends without being interrupted. -/
inductive Signal where
  | stroke (key : Key) (up : Bool)
  /-- A shift that goes with an extended key; it is the left or the right
  one. -/
  | fakeShift (left up : Bool)
  deriving DecidableEq, Repr

/-- The keycode of a key, 0 if there is no such key. -/
def Key.keycode : Key → Nat
  | .plain scancode =>
      if scancode < scLim then scancode
      else highKeys.getD (scancode - scLim) 0
  | .extended scancode =>
      if scancode = 0x2a ∨ scancode = 0x36 then 0 else e0Keys.getD scancode 0
  | .pause => e1Pause

/-- The last byte. -/
def released (scancode : Nat) (up : Bool) : Nat :=
  if up then scancode + 0x80 else scancode

/-- The bytes of a signal. -/
def Signal.encode : Signal → List Nat
  | .stroke (.plain scancode) up => [released scancode up]
  | .stroke (.extended scancode) up => [0xe0, released scancode up]
  | .stroke .pause up => [0xe1, released 0x1d up, released 0x45 up]
  | .fakeShift left up => [0xe0, released (if left then 0x2a else 0x36) up]

/-- The event that a signal stands for. -/
def Signal.event : Signal → Option KeyEvent
  | .stroke key up => some ⟨key.keycode, up⟩
  | .fakeShift _ _ => none

/-- Only keys that exist are used. -/
def Signal.Valid : Signal → Prop
  | .stroke key _ => key.keycode ≠ 0
  | .fakeShift _ _ => True

instance : DecidablePred Signal.Valid
  | .stroke key _ => inferInstanceAs (Decidable (key.keycode ≠ 0))
  | .fakeShift _ _ => .isTrue trivial

/-! ## Decoding -/

/-- A byte that is neither 0 nor 255. -/
def isSent (scancode : Nat) : Bool :=
  scancode ≠ 0 ∧ scancode ≠ 0xff

theorem decodeScancodes_append (prev : Nat) (front back : List Nat) :
    decodeScancodes prev (front ++ back) =
      ((decodeScancodes prev front).1 ++
          (decodeScancodes (decodeScancodes prev front).2 back).1,
        (decodeScancodes (decodeScancodes prev front).2 back).2) := by
  induction front generalizing prev with
  | nil => rfl
  | cons scancode front ih =>
      simp only [List.cons_append, decodeScancodes, ih, List.append_assoc]

/-- The bytes that are dropped might as well not be there. -/
theorem decodeScancodes_filter (prev : Nat) (scancodes : List Nat) :
    decodeScancodes prev (scancodes.filter isSent) =
      decodeScancodes prev scancodes := by
  induction scancodes generalizing prev with
  | nil => rfl
  | cons scancode rest ih =>
      by_cases sent : isSent scancode = true
      · simp only [List.filter_cons_of_pos sent, decodeScancodes, ih]
      · have dropped : scancode = 0 ∨ scancode = 0xff := by
          simpa [isSent, or_iff_not_imp_left] using sent
        rw [List.filter_cons_of_neg sent, ih, decodeScancodes, decodeScancode,
          if_pos dropped]
        rfl

theorem keycode_lt_of_plain {scancode : Nat}
    (isKey : (Key.plain scancode).keycode ≠ 0) : scancode < 0x7f := by
  by_contra high
  have above : ¬ scancode < scLim := by unfold scLim; omega
  have outside : highKeys.getD (scancode - scLim) 0 = 0 := by
    by_cases last : scancode = 0x7f
    · subst last
      decide
    · refine List.getD_eq_default _ _ ?_
      have size : highKeys.length = 39 := by decide
      unfold scLim
      omega
  exact isKey (by rw [Key.keycode, if_neg above, outside])

set_option maxRecDepth 2000 in
theorem keycode_lt_of_extended {scancode : Nat}
    (isKey : (Key.extended scancode).keycode ≠ 0) : scancode < 0x60 ∨
      scancode = 0x6f := by
  by_contra high
  rw [not_or] at high
  have all : ∀ code < 0x80, 0x60 ≤ code → code ≠ 0x6f →
      e0Keys.getD code 0 = 0 := by decide
  have outside : e0Keys.getD scancode 0 = 0 := by
    by_cases inside : scancode < 0x80
    · exact all scancode inside (by omega) high.2
    · refine List.getD_eq_default _ _ ?_
      have size : e0Keys.length = 128 := by decide
      omega
  refine isKey ?_
  rw [Key.keycode, outside, ite_self]

/-- Every signal is decoded, from the initial state to the initial state. -/
theorem decodeScancodes_encode {signal : Signal} (valid : signal.Valid) :
    decodeScancodes 0 signal.encode = (signal.event.toList, 0) := by
  have plain : ∀ scancode < 0x7f, ∀ up,
      (Key.plain scancode).keycode ≠ 0 →
        decodeScancodes 0 [released scancode up] =
          ([⟨(Key.plain scancode).keycode, up⟩], 0) := by decide
  have extended : ∀ scancode < 0x70, ∀ up,
      (Key.extended scancode).keycode ≠ 0 →
        decodeScancodes 0 [0xe0, released scancode up] =
          ([⟨(Key.extended scancode).keycode, up⟩], 0) := by decide
  cases signal with
  | stroke key up =>
      have isKey : key.keycode ≠ 0 := valid
      cases key with
      | plain scancode =>
          exact plain scancode (keycode_lt_of_plain isKey) up isKey
      | extended scancode =>
          have small := keycode_lt_of_extended isKey
          exact extended scancode (by omega) up isKey
      | pause => cases up <;> decide
  | fakeShift left up => cases left <;> cases up <;> decide

/-- Two bytes that are no prefixes bring the decoder back to its initial state,
wherever it was. -/
theorem decodeScancodes_resync (prev : Nat) {first second : Nat}
    (sent : isSent first ∧ isSent second)
    (plain : first ≠ 0xe0 ∧ first ≠ 0xe1 ∧ second ≠ 0xe0 ∧ second ≠ 0xe1) :
    (decodeScancodes prev [first, second]).2 = 0 := by
  simp only [isSent, decide_eq_true_eq] at sent
  have once (prev scancode : Nat) (sent : ¬ (scancode = 0 ∨ scancode = 0xff))
      (plain : ¬ (scancode = 0xe0 ∨ scancode = 0xe1)) :
      (decodeScancode prev scancode).1 = 0 ∨
        prev = 0xe1 ∧ (decodeScancode prev scancode).1 = 0x100 := by
    simp only [decodeScancode, if_neg sent, kbdTranslate, if_neg plain]
    split_ifs with set other pause <;> simp_all
  have twice : ∀ prev scancode,
      ¬ (scancode = 0 ∨ scancode = 0xff) →
      ¬ (scancode = 0xe0 ∨ scancode = 0xe1) → prev ≠ 0xe1 →
        (decodeScancode prev scancode).1 = 0 := by
    intro prev scancode sent plain other
    exact (once prev scancode sent plain).resolve_right fun both =>
      other both.1
  have firstStep := once prev first (by omega) (by omega)
  simp only [decodeScancodes]
  refine twice _ second (by omega) (by omega) ?_
  rcases firstStep with zero | ⟨-, middle⟩ <;> omega

/-- Whatever keys go down and up, with or without the shifts that go with
extended keys, and with the bytes 0 and 255 anywhere in between, the driver
gets each key once for each time it goes down or up, in the order in which that
happens.  Should it start within a sequence, two bytes that are no prefixes
bring it back in step. -/
theorem scancodes_decode {signals : List Signal}
    (valid : ∀ signal ∈ signals, signal.Valid) {scancodes : List Nat}
    (sent : scancodes.filter isSent = signals.flatMap Signal.encode) :
    decodeScancodes 0 scancodes = (signals.filterMap Signal.event, 0) ∧
      ∀ prev first second, isSent first ∧ isSent second →
        first ≠ 0xe0 ∧ first ≠ 0xe1 ∧ second ≠ 0xe0 ∧ second ≠ 0xe1 →
          decodeScancodes prev ([first, second] ++ scancodes) =
            ((decodeScancodes prev [first, second]).1 ++
              signals.filterMap Signal.event, 0) := by
  have whole : decodeScancodes 0 scancodes =
      (signals.filterMap Signal.event, 0) := by
    rw [← decodeScancodes_filter, sent]
    clear sent
    induction signals with
    | nil => rfl
    | cons signal signals ih =>
        rw [List.flatMap_cons, decodeScancodes_append,
          decodeScancodes_encode (valid signal (by simp)),
          ih fun other member => valid other (by simp [member])]
        cases isEvent : signal.event with
        | none => simp [isEvent]
        | some event => simp [isEvent]
  refine ⟨whole, fun prev first second bytes plain => ?_⟩
  rw [decodeScancodes_append, decodeScancodes_resync prev bytes plain, whole]

/-- Right control and C are pressed with an error byte in between, and released
with a fake shift. -/
theorem scancodes_decode_control_c :
    decodeScancodes 0 [0xe0, 0xff, 0x1d, 0x2e, 0xae, 0xe0, 0xb6, 0xe0, 0x9d] =
      ([⟨97, false⟩, ⟨46, false⟩, ⟨46, true⟩, ⟨97, true⟩], 0) :=
  (scancodes_decode (show ∀ signal ∈ [Signal.stroke (.extended 0x1d) false,
      .stroke (.plain 0x2e) false, .stroke (.plain 0x2e) true,
      .fakeShift false true, .stroke (.extended 0x1d) true], signal.Valid
    by decide) (by decide)).1

end Nebulea
