import Mathlib.Logic.Function.Basic
import Nebulea.Keymaps
import Nebulea.Scancodes

/-!
# `kbd-linux/keyboard.c`: the keyboard driver

The driver keeps count of the modifier keys that are down, and gives the rest
of a key's work to the handler of its symbol's type.  Consoles, signals and the
like end in empty functions of the kernel, and its terminal always lets keys
repeat.
-/

namespace Nebulea

/-- `kbd->kbdmode`. -/
inductive KbdMode where
  | xlate
  | mediumraw
  | raw
  | unicode
  deriving DecidableEq, Repr

/-- The variables of the driver, with `kbd_table[0]` and `console_tty`.  What
`keyboard_data` is given is written down in `sent`, string by string. -/
structure Keyboard where
  prevScancode : Nat
  keyDown : Nat → Bool
  kDown : Nat → BitVec 8
  deadKeyNext : Bool
  shiftState : BitVec 32
  npadch : BitVec 32
  diacr : BitVec 8
  rep : Bool
  lockstate : BitVec 8
  slockstate : BitVec 8
  ledflagstate : BitVec 3
  kbdmode : KbdMode
  modeflags : BitVec 5
  stopped : Bool
  sent : List Chars

/-- After `kbd_init`. -/
def Keyboard.start : Keyboard where
  prevScancode := 0
  keyDown := fun _ => false
  kDown := fun _ => 0
  deadKeyNext := false
  shiftState := 0
  npadch := -1
  diacr := 0
  rep := false
  lockstate := 0
  slockstate := 0
  ledflagstate := 0
  kbdmode := .xlate
  modeflags := 0b10100
  stopped := false
  sent := []

/-- `VC_NUMLOCK`. -/
def vcNumlock : Nat := 1

/-- `VC_CAPSLOCK`. -/
def vcCapslock : Nat := 2

/-- `VC_APPLIC`. -/
def vcApplic : Nat := 0

/-- `VC_CKMODE`. -/
def vcCkmode : Nat := 1

/-- `VC_REPEAT`. -/
def vcRepeat : Nat := 2

/-- `VC_CRLF`. -/
def vcCrlf : Nat := 3

/-- `VC_META`. -/
def vcMeta : Nat := 4

/-- `KT_LATIN`. -/
def ktLatin : Nat := 0

/-- `KT_SPEC`. -/
def ktSpec : Nat := 2

/-- `KT_SHIFT`. -/
def ktShift : Nat := 7

/-- `KT_LETTER`. -/
def ktLetter : Nat := 11

/-- `KT_SLOCK`. -/
def ktSlock : Nat := 12

/-- `KG_SHIFT`. -/
def kgShift : Nat := 0

/-- `KG_CAPSSHIFT`. -/
def kgCapsshift : Nat := 8

namespace Keyboard

/-- `vc_kbd_mode`. -/
def vcKbdMode (kbd : Keyboard) (flag : Nat) : Bool :=
  kbd.modeflags.getLsbD flag

/-- `vc_kbd_led`. -/
def vcKbdLed (kbd : Keyboard) (flag : Nat) : Bool :=
  kbd.ledflagstate.getLsbD flag

/-- `chg_vc_kbd_led`. -/
def chgVcKbdLed (kbd : Keyboard) (flag : Nat) : Keyboard :=
  { kbd with ledflagstate := kbd.ledflagstate ^^^ 1#3 <<< flag }

/-- `puts_queue`. -/
def putsQueue (kbd : Keyboard) (cp : Chars) : Keyboard :=
  { kbd with sent := kbd.sent ++ [cp] }

/-- `put_queue`: a string of one character, or an empty one. -/
def putQueue (kbd : Keyboard) (ch : BitVec 8) : Keyboard :=
  kbd.putsQueue (if ch = 0 then [] else [ch])

/-- `to_utf8`. -/
def toUtf8 (kbd : Keyboard) (c : BitVec 16) : Keyboard :=
  if c.toNat < 0x80 then kbd.putQueue (c.setWidth 8)
  else if c.toNat < 0x800 then
    (kbd.putQueue ((0xc0#16 ||| c >>> 6).setWidth 8)).putQueue
      ((0x80#16 ||| (c &&& 0x3f)).setWidth 8)
  else
    ((kbd.putQueue ((0xe0#16 ||| c >>> 12).setWidth 8)).putQueue
      ((0x80#16 ||| (c >>> 6 &&& 0x3f)).setWidth 8)).putQueue
        ((0x80#16 ||| (c &&& 0x3f)).setWidth 8)

/-- `applkey`. -/
def applkey (kbd : Keyboard) (key : BitVec 8) (mode : Bool) : Keyboard :=
  kbd.putsQueue [27, ascii (if mode then 'O' else '['), key]

/-- One turn of the loop of `compute_shiftstate`. -/
def countKey (kbd : Keyboard) (k : Nat) : Keyboard :=
  if kbd.keyDown k then
    let sym := symbolOf plainMap k ^^^ 0xf000
    if ktyp sym = ktShift ∨ ktyp sym = ktSlock then
      let val := if (kval sym).toNat = kgCapsshift then kgShift
        else (kval sym).toNat
      { kbd with
        kDown := Function.update kbd.kDown val (kbd.kDown val + 1)
        shiftState := kbd.shiftState ||| 1#32 <<< val }
    else kbd
  else kbd

/-- `compute_shiftstate`. -/
def computeShiftstate (kbd : Keyboard) : Keyboard :=
  (List.range 256).foldl countKey
    { kbd with shiftState := 0, kDown := fun _ => 0 }

/-- `handle_diacr`; there are no accents in `accent_table`. -/
def handleDiacr (kbd : Keyboard) (ch : BitVec 8) : BitVec 8 × Keyboard :=
  let d := kbd.diacr
  let kbd := { kbd with diacr := 0 }
  if ch = ascii ' ' ∨ ch = d then (d, kbd) else (ch, kbd.putQueue d)

/-- `do_self`. -/
def doSelf (kbd : Keyboard) (value : BitVec 8) (up : Bool) : Keyboard :=
  if up then kbd
  else
    let (value, kbd) :=
      if kbd.diacr ≠ 0 then kbd.handleDiacr value else (value, kbd)
    if kbd.deadKeyNext then { kbd with deadKeyNext := false, diacr := value }
    else kbd.putQueue value

/-- `do_dead2`. -/
def doDead2 (kbd : Keyboard) (value : BitVec 8) (up : Bool) : Keyboard :=
  if up then kbd
  else if kbd.diacr ≠ 0 then
    let (value, kbd) := kbd.handleDiacr value
    { kbd with diacr := value }
  else { kbd with diacr := value }

/-- `ret_diacr`. -/
def retDiacr : Chars :=
  cString "`'^~\","

/-- `do_dead`. -/
def doDead (kbd : Keyboard) (value : BitVec 8) (up : Bool) : Keyboard :=
  kbd.doDead2 (retDiacr.getD value.toNat 0) up

/-- `do_fn`. -/
def doFn (kbd : Keyboard) (value : BitVec 8) (up : Bool) : Keyboard :=
  if up then kbd
  else
    match funcTable value.toNat with
    | some text => kbd.putsQueue text
    | none => kbd

/-- `enter`. -/
def enter (kbd : Keyboard) : Keyboard :=
  let kbd :=
    if kbd.diacr ≠ 0 then { kbd.putQueue kbd.diacr with diacr := 0 } else kbd
  let kbd := kbd.putQueue 13
  if kbd.vcKbdMode vcCrlf then kbd.putQueue 10 else kbd

/-- `caps_toggle`. -/
def capsToggle (kbd : Keyboard) : Keyboard :=
  if kbd.rep then kbd else kbd.chgVcKbdLed vcCapslock

/-- `caps_on`. -/
def capsOn (kbd : Keyboard) : Keyboard :=
  if kbd.rep then kbd
  else { kbd with ledflagstate := kbd.ledflagstate ||| 1#3 <<< vcCapslock }

/-- `hold`. -/
def hold (kbd : Keyboard) : Keyboard :=
  if kbd.rep then kbd else { kbd with stopped := !kbd.stopped }

/-- `bare_num`. -/
def bareNum (kbd : Keyboard) : Keyboard :=
  if kbd.rep then kbd else kbd.chgVcKbdLed vcNumlock

/-- `num`. -/
def num (kbd : Keyboard) : Keyboard :=
  if kbd.vcKbdMode vcApplic then kbd.applkey (ascii 'P') true
  else kbd.bareNum

/-- `spec_fn_table`; the functions that are not listed change nothing. -/
def specFn (kbd : Keyboard) : Nat → Keyboard
  | 0 => kbd.computeShiftstate
  | 1 => kbd.enter
  | 7 => kbd.capsToggle
  | 8 => kbd.num
  | 9 => kbd.hold
  | 13 => kbd.capsOn
  | 14 => { kbd with deadKeyNext := true }
  | 19 => kbd.bareNum
  | _ => kbd

/-- `do_spec`. -/
def doSpec (kbd : Keyboard) (value : BitVec 8) (up : Bool) : Keyboard :=
  if up then kbd
  else if (kbd.kbdmode = .raw ∨ kbd.kbdmode = .mediumraw) ∧ value ≠ 15 then
    kbd
  else kbd.specFn value.toNat

/-- `do_cur`. -/
def doCur (kbd : Keyboard) (value : BitVec 8) (up : Bool) : Keyboard :=
  if up then kbd
  else
    kbd.applkey ((cString "BDCA").getD value.toNat 0) (kbd.vcKbdMode vcCkmode)

/-- `pad_chars`. -/
def padChars : Chars :=
  cString "0123456789+-*/\r,.?()"

/-- `app_map`. -/
def appMap : Chars :=
  cString "pqrstuvwxylSRQMnnmPQ"

/-- The `switch` of `do_pad`; without a case the character is sent. -/
def padKey (kbd : Keyboard) : Nat → Option Keyboard
  | 15 => some (kbd.doFn 22 false)
  | 16 => some (kbd.doFn 22 false)
  | 0 => some (kbd.doFn 21 false)
  | 1 => some (kbd.doFn 23 false)
  | 2 => some (kbd.doCur 0 false)
  | 3 => some (kbd.doFn 25 false)
  | 4 => some (kbd.doCur 1 false)
  | 6 => some (kbd.doCur 2 false)
  | 7 => some (kbd.doFn 20 false)
  | 8 => some (kbd.doCur 3 false)
  | 9 => some (kbd.doFn 24 false)
  | 5 => some (kbd.applkey (ascii 'G') (kbd.vcKbdMode vcApplic))
  | _ => none

/-- The end of `do_pad`. -/
def padChar (kbd : Keyboard) (value : Nat) : Keyboard :=
  let kbd := kbd.putQueue (padChars.getD value 0)
  if value = 14 ∧ kbd.vcKbdMode vcCrlf then kbd.putQueue 10 else kbd

/-- `do_pad`. -/
def doPad (kbd : Keyboard) (value : BitVec 8) (up : Bool) : Keyboard :=
  if up then kbd
  else if kbd.vcKbdMode vcApplic ∧ kbd.kDown kgShift = 0 then
    kbd.applkey (appMap.getD value.toNat 0) true
  else if ¬ kbd.vcKbdLed vcNumlock then
    (kbd.padKey value.toNat).getD (kbd.padChar value.toNat)
  else kbd.padChar value.toNat

/-- The number assembled on the pad is sent. -/
def sendPad (kbd : Keyboard) : Keyboard :=
  let kbd :=
    if kbd.kbdmode = .unicode then kbd.toUtf8 (kbd.npadch.setWidth 16)
    else kbd.putQueue (kbd.npadch.setWidth 8)
  { kbd with npadch := -1 }

/-- `do_shift`. -/
def doShift (kbd : Keyboard) (value : BitVec 8) (up : Bool) : Keyboard :=
  let oldState := kbd.shiftState
  if kbd.rep then kbd
  else
    let caps := value.toNat = kgCapsshift
    let value := if caps then kgShift else value.toNat
    let kbd :=
      if caps ∧ ¬ up then
        { kbd with ledflagstate :=
            kbd.ledflagstate &&& ~~~(1#3 <<< vcCapslock) }
      else kbd
    let count :=
      if up then
        if kbd.kDown value ≠ 0 then kbd.kDown value - 1 else kbd.kDown value
      else kbd.kDown value + 1
    let kbd := { kbd with
      kDown := Function.update kbd.kDown value count
      shiftState :=
        if count ≠ 0 then kbd.shiftState ||| 1#32 <<< value
        else kbd.shiftState &&& ~~~(1#32 <<< value) }
    if up ∧ kbd.shiftState ≠ oldState ∧ kbd.npadch ≠ -1 then kbd.sendPad
    else kbd

/-- `do_meta`. -/
def doMeta (kbd : Keyboard) (value : BitVec 8) (up : Bool) : Keyboard :=
  if up then kbd
  else if kbd.vcKbdMode vcMeta then (kbd.putQueue 27).putQueue value
  else kbd.putQueue (value ||| 0x80)

/-- `do_ascii`. -/
def doAscii (kbd : Keyboard) (value : BitVec 8) (up : Bool) : Keyboard :=
  if up then kbd
  else
    let base := if value.toNat < 10 then 10#32 else 16#32
    let value := if value.toNat < 10 then value else value - 10
    let digit := value.setWidth 32
    { kbd with
      npadch :=
        if kbd.npadch = -1 then digit else kbd.npadch * base + digit }

/-- `do_lock`. -/
def doLock (kbd : Keyboard) (value : BitVec 8) (up : Bool) : Keyboard :=
  if up ∨ kbd.rep then kbd
  else { kbd with lockstate := kbd.lockstate ^^^ 1#8 <<< value.toNat }

/-- `do_slock`. -/
def doSlock (kbd : Keyboard) (value : BitVec 8) (up : Bool) : Keyboard :=
  let kbd := kbd.doShift value up
  if up ∨ kbd.rep then kbd
  else
    let slockstate := kbd.slockstate ^^^ 1#8 <<< value.toNat
    let known := keyMaps (kbd.lockstate ^^^ slockstate).toNat
    { kbd with
      slockstate :=
        if known = none then 0 ^^^ 1#8 <<< value.toNat else slockstate }

/-- `key_handler`; `do_cons` calls an empty function. -/
def keyHandler (kbd : Keyboard) (type : Nat) (value : BitVec 8) (up : Bool) :
    Keyboard :=
  match type with
  | 0 => kbd.doSelf value up
  | 1 => kbd.doFn value up
  | 2 => kbd.doSpec value up
  | 3 => kbd.doPad value up
  | 4 => kbd.doDead value up
  | 6 => kbd.doCur value up
  | 7 => kbd.doShift value up
  | 8 => kbd.doMeta value up
  | 9 => kbd.doAscii value up
  | 10 => kbd.doLock value up
  | 12 => kbd.doSlock value up
  | 13 => kbd.doDead2 value up
  | _ => kbd

/-- The type and the symbol of a key after a look at the caps lock. -/
def letter (kbd : Keyboard) (shiftFinal keycode keysym : Nat) : Nat × Nat :=
  let type := ktyp keysym - 0xf0
  if type = ktLetter then
    if kbd.vcKbdLed vcCapslock then
      match keyMaps (shiftFinal ^^^ 1) with
      | some keyMap => (ktLatin, symbolOf keyMap keycode)
      | none => (ktLatin, keysym)
    else (ktLatin, keysym)
  else (type, keysym)

/-- `handle_scancode` from the look into `key_maps` on. -/
def useKeymap (kbd : Keyboard) (rawMode : Bool) (keycode : Nat) (up : Bool) :
    Keyboard :=
  let shiftFinal := ((kbd.shiftState ||| kbd.slockstate.setWidth 32) ^^^
    kbd.lockstate.setWidth 32).toNat
  match keyMaps shiftFinal with
  | none => { kbd.computeShiftstate with slockstate := 0 }
  | some keyMap =>
      let keysym := symbolOf keyMap keycode
      if ktyp keysym ≥ 0xf0 then
        let type := ktyp keysym - 0xf0
        if rawMode ∧ ¬ (type = ktSpec ∨ type = ktShift) then kbd
        else
          let (type, keysym) := kbd.letter shiftFinal keycode keysym
          let kbd := kbd.keyHandler type (kval keysym) up
          if type ≠ ktSlock then { kbd with slockstate := 0 } else kbd
      else if ¬ up ∧ ¬ rawMode then kbd.toUtf8 (BitVec.ofNat 16 keysym)
      else kbd

/-- `handle_scancode` from the keycode on. -/
def handleKeycode (kbd : Keyboard) (rawMode : Bool) (keycode : Nat)
    (up : Bool) : Keyboard :=
  let known := kbd.keyDown keycode
  let mediumraw : Bool := kbd.kbdmode = .mediumraw
  let kbd := { kbd with
    keyDown := Function.update kbd.keyDown keycode (!up)
    rep := !up && known }
  -- a release of a key that is not down may count as a press
  let up := up && (known || kbdUnexpectedUp keycode)
  let kbd :=
    if mediumraw then
      kbd.putQueue (BitVec.ofNat 8 (if up then keycode + 0x80 else keycode))
    else kbd
  if kbd.rep ∧ ¬ kbd.vcKbdMode vcRepeat then kbd
  else kbd.useKeymap (rawMode || mediumraw) keycode up

/-- `handle_scancode`. -/
def handleScancode (kbd : Keyboard) (scancode : Nat) (up : Bool) : Keyboard :=
  let rawMode : Bool := kbd.kbdmode = .raw
  let kbd :=
    if rawMode then
      kbd.putQueue (BitVec.ofNat 8 scancode ||| if up then 0x80 else 0)
    else kbd
  let (prevScancode, keycode) := kbdTranslate kbd.prevScancode scancode
  let kbd := { kbd with prevScancode := prevScancode }
  match keycode with
  | none => kbd
  | some keycode => kbd.handleKeycode rawMode keycode up

/-- `do_scancode`. -/
def doScancode (kbd : Keyboard) (scancode : Nat) : Keyboard :=
  if scancode ≠ 0 ∧ scancode ≠ 0xff then
    kbd.handleScancode scancode (isUp scancode)
  else kbd

end Keyboard

end Nebulea
