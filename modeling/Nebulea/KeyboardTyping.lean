import Mathlib.Data.List.Count
import Nebulea.KeyboardDriver

/-!
# Typing

The driver against a typewriter that has no counters and no modes: what a key
does depends on the keys that are held down, on the two locks and on the number
that is being typed with Alt.
-/

namespace Nebulea

/-! ## The typewriter -/

/-- The keys of a modifier. -/
def modifierKeys : Nat → List Nat
  | 0 => [42, 54]
  | 1 => [100]
  | 2 => [29, 97]
  | 3 => [56]
  | _ => []

/-- The number of keys held down that have a modifier. -/
def pressed (held : Nat → Bool) (modifier : Nat) : Nat :=
  (modifierKeys modifier).countP held

/-- The index in `key_maps` for some modifiers. -/
def layerOf (shift altgr ctrl alt : Bool) : Nat :=
  shift.toNat + 2 * altgr.toNat + 4 * ctrl.toNat + 8 * alt.toNat

/-- The index in `key_maps` for the keys held down. -/
def layer (held : Nat → Bool) : Nat :=
  layerOf (pressed held 0 ≠ 0) (pressed held 1 ≠ 0) (pressed held 2 ≠ 0)
    (pressed held 3 ≠ 0)

/-- A character other than zero. -/
def charText (c : BitVec 8) : Chars :=
  if c = 0 then [] else [c]

/-- What a key does. -/
inductive Stroke where
  | text (text : Chars)
  | capsLock
  | numLock
  | hold
  | digit (base value : Nat)

/-- The cursor keys. -/
def cursorText (value : Nat) : Chars :=
  27 :: ascii '[' :: [(cString "BDCA").getD value 0]

/-- The strings of `func_table`. -/
def functionText (value : Nat) : Chars :=
  (funcTable value).getD []

/-- The keys of the number pad without the lock. -/
def padText : Nat → Chars
  | 0 => functionText 21
  | 1 => functionText 23
  | 2 => cursorText 0
  | 3 => functionText 25
  | 4 => cursorText 1
  | 5 => 27 :: ascii '[' :: [ascii 'G']
  | 6 => cursorText 2
  | 7 => functionText 20
  | 8 => cursorText 3
  | 9 => functionText 24
  | 15 => functionText 22
  | 16 => functionText 22
  | value => charText (Keyboard.padChars.getD value 0)

/-- What a key with a symbol does. -/
def strokeOf (num : Bool) (keysym : Nat) : Stroke :=
  let value := (kval keysym).toNat
  match ktyp keysym with
  | 0xf0 => .text (charText (kval keysym))
  | 0xfb => .text (charText (kval keysym))
  | 0xf1 => .text (functionText value)
  | 0xf2 =>
      if value = 1 then .text [13]
      else if value = 7 then .capsLock
      else if value = 8 then .numLock
      else if value = 9 then .hold
      else .text []
  | 0xf3 =>
      .text (if num then charText (Keyboard.padChars.getD value 0) else padText value)
  | 0xf6 => .text (cursorText value)
  | 0xf8 => .text (27 :: charText (kval keysym))
  | 0xf9 => if value < 10 then .digit 10 value else .digit 16 (value - 10)
  | _ => .text []

/-- The typewriter, with what the decoder remembers of a sequence. -/
structure Typewriter where
  prev : Nat
  held : Nat → Bool
  caps : Bool
  num : Bool
  stopped : Bool
  /-- The number typed with Alt, if there is one. -/
  pad : Option Nat
  typed : Chars

/-- No key is down. -/
def Typewriter.start : Typewriter where
  prev := 0
  held := fun _ => false
  caps := false
  num := false
  stopped := false
  pad := none
  typed := []

/-- The symbol of a key; caps lock exchanges Shift for a letter. -/
def Typewriter.symbol (t : Typewriter) (keyMap : List Nat) (keycode : Nat) :
    Nat :=
  let keysym := symbolOf keyMap keycode
  if ktyp keysym = 0xfb ∧ t.caps then
    symbolOf ((keyMaps (layer t.held ^^^ 1)).getD keyMap) keycode
  else keysym

/-- A key does its work. -/
def Typewriter.strike (t : Typewriter) (repeated : Bool) :
    Stroke → Typewriter
  | .text text => { t with typed := t.typed ++ text }
  | .capsLock => if repeated then t else { t with caps := !t.caps }
  | .numLock => if repeated then t else { t with num := !t.num }
  | .hold => if repeated then t else { t with stopped := !t.stopped }
  | .digit base value =>
      { t with
        pad := some (match t.pad with
          | none => value
          | some number => number * base + value) }

/-- The number typed with Alt becomes a character. -/
def Typewriter.sendPad (t : Typewriter) : Typewriter :=
  match t.pad with
  | none => t
  | some number =>
      { t with
        pad := none
        typed := t.typed ++ charText (BitVec.ofNat 8 number) }

/-- A key goes down or up.  Some keyboards have keys that only ever go up. -/
def Typewriter.step (t : Typewriter) (event : KeyEvent) : Typewriter :=
  let key := event.keycode
  let next := { t with held := Function.update t.held key (!event.up) }
  match keyMaps (layer t.held) with
  | none => next
  | some keyMap =>
      if event.up ∧ (t.held key ∨ kbdUnexpectedUp key) then
        if layer next.held ≠ layer t.held then next.sendPad else next
      else
        next.strike (!event.up && t.held key)
          (strokeOf t.num (t.symbol keyMap key))

/-- A modifier goes up only when it is down, and the number typed with Alt
stays in the range of an `int`. -/
def Typewriter.Ordinary (t : Typewriter) (event : KeyEvent) : Prop :=
  (event.up → event.keycode ∈ [29, 42, 54, 56, 97, 100] →
    t.held event.keycode) ∧
  ∀ number ∈ (t.step event).pad, number < 2 ^ 31

instance (t : Typewriter) (event : KeyEvent) : Decidable (t.Ordinary event) :=
  inferInstanceAs (Decidable (_ ∧ _))

/-- A byte from the keyboard. -/
def Typewriter.byte (t : Typewriter) (scancode : Nat) : Typewriter :=
  let (prev, event) := decodeScancode t.prev scancode
  event.elim { t with prev := prev } { t with prev := prev }.step

/-- The byte ends an ordinary stroke, or none. -/
def Typewriter.OrdinaryByte (t : Typewriter) (scancode : Nat) : Prop :=
  ∀ event ∈ (decodeScancode t.prev scancode).2,
    { t with prev := (decodeScancode t.prev scancode).1 }.Ordinary event

instance (t : Typewriter) (scancode : Nat) :
    Decidable (t.OrdinaryByte scancode) :=
  inferInstanceAs (Decidable (∀ event ∈ _, _))

end Nebulea
