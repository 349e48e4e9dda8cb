import Nebulea.FormatSinks
import Nebulea.KeyboardLaws

/-!
# `keyboard.c`: keys on the screen

The keyboard interrupt gives the strings of the driver to `printf`, while the
console echoes.
-/

namespace Nebulea

/-- The keyboard and the console; `echo` is `CONSOLE_ECHO`. -/
structure KeyboardConsole where
  keyboard : Keyboard
  echo : BitVec 8
  screen : Screen

/-- What happens to the console, with what the stack holds at each string that
is printed. -/
inductive ConsoleAct where
  | keyboardInterrupt (scancode : Nat) (stack : Nat → Nat → BitVec 8)
  | consoleEcho (on : BitVec 32)
  | consolePutbytes (s : Nat → BitVec 8) (len : Int)

namespace KeyboardConsole

/-- After the boot. -/
def start (screen : Screen) : KeyboardConsole where
  keyboard := .start
  echo := 1
  screen := screen

/-- `keyboard_data`; the string is at an address other than zero. -/
def keyboardData (console : KeyboardConsole) (stack : Nat → BitVec 8)
    (str : Chars) : KeyboardConsole :=
  if console.echo ≠ 0 then
    { console with
      screen := (vprintf console.screen stack (cString "%s")
        ⟨fun _ => 1, fun _ => str⟩).1 }
  else console

/-- `keyboard_interrupt`, without its acknowledgement: the calls of
`keyboard_data` that the driver makes are made in their order. -/
def keyboardInterrupt (console : KeyboardConsole) (scancode : Nat)
    (stack : Nat → Nat → BitVec 8) : KeyboardConsole :=
  let keyboard := { console.keyboard with sent := [] }.doScancode scancode
  keyboard.sent.zipIdx.foldl
    (fun console call => console.keyboardData (stack call.2) call.1)
    { console with keyboard := keyboard }

/-- An act on the console. -/
def act (console : KeyboardConsole) : ConsoleAct → KeyboardConsole
  | .keyboardInterrupt scancode stack =>
      console.keyboardInterrupt scancode stack
  | .consoleEcho on => { console with echo := on.setWidth 8 }
  | .consolePutbytes s len =>
      { console with screen := console.screen.consolePutbytes s len }

end KeyboardConsole

/-- A desk with a typewriter on it: `shown` is what has been written. -/
structure Desk where
  typewriter : Typewriter
  echo : Bool
  shown : Chars

/-- After the boot. -/
def Desk.start : Desk where
  typewriter := .start
  echo := true
  shown := []

/-- An act on the desk. -/
def Desk.act (desk : Desk) : ConsoleAct → Desk
  | .keyboardInterrupt scancode _ =>
      let typewriter := { desk.typewriter with typed := [] }.byte scancode
      { desk with
        typewriter := typewriter
        shown := desk.shown ++ if desk.echo then typewriter.typed else [] }
  | .consoleEcho on => { desk with echo := on.setWidth 8 ≠ 0#8 }
  | .consolePutbytes s len =>
      { desk with shown := desk.shown ++ (List.range len.toNat).map s }

/-- The keys are used in an ordinary way. -/
def Desk.Ordinary : Desk → List ConsoleAct → Prop
  | _, [] => True
  | desk, .keyboardInterrupt scancode stack :: acts =>
      { desk.typewriter with typed := [] }.OrdinaryByte scancode ∧
        (desk.act (.keyboardInterrupt scancode stack)).Ordinary acts
  | desk, act :: acts => (desk.act act).Ordinary acts

/-! ## Printing the strings -/

theorem printString_start {str : Chars} (short : str.length ≤ 0x7fffffff) :
    printString .start str = str := by
  simp [printString, Directive.start, List.take_of_length_le short]

/-- The format `%s` prints a string as it is. -/
theorem doprnt_string (args : Arguments) (radix : Nat)
    (present : args.word 0 ≠ 0)
    (short : (args.string (args.word 0)).length ≤ 0x7fffffff) :
    doprnt (cString "%s") args radix =
      ⟨args.string (args.word 0), none⟩ := by
  have isRead : readDirective args [ascii 's'] 0 =
      (.start, [ascii 's'], 0) := rfl
  have converted : convert args radix .start (ascii 's') 0 =
      (⟨args.string (args.word 0), none⟩, 1) := by
    simp only [convert, if_neg present, printString_start short]
    rfl
  refine (doprntRest_directive isRead).trans ?_
  rw [converted, doprntRest_nil]
  simp [Printed.after]

/-- What `printf` prints without a fault is on the screen. -/
theorem vprintf_screen {screen : Screen} {stack : Nat → BitVec 8}
    {fmt text : Chars} {args : Arguments}
    (printed : doprnt fmt args 0 = ⟨text, none⟩) :
    (vprintf screen stack fmt args).1 =
      text.foldl Screen.handleCar screen := by
  have holds := (Holds.start screen stack).text text
  rw [List.nil_append] at holds
  simp only [vprintf, printed]
  generalize text.foldl printfChar (screen, ⟨stack, 0⟩) = out at holds
  obtain ⟨now, state⟩ := out
  split
  · exact holds.flush
  · rename_i empty
    have nothing : state.index = 0 := by
      by_contra some
      exact empty ⟨trivial, some⟩
    obtain ⟨shown, whole, isShown⟩ := holds.shown
    rw [PrintfState.held, nothing] at whole
    rw [whole, isShown]
    simp

namespace KeyboardConsole

variable {console : KeyboardConsole}

/-- The characters of a string come to the screen one by one. -/
theorem keyboardData_eq (stack : Nat → BitVec 8) {str : Chars}
    (short : str.length ≤ 5) :
    console.keyboardData stack str =
      { console with
        screen := (if console.echo ≠ 0 then str else []).foldl
          Screen.handleCar console.screen } := by
  unfold keyboardData
  split
  · rw [vprintf_screen (doprnt_string _ 0
      (show (1 : BitVec 32) ≠ 0 by decide) (short.trans (by decide)))]
  · rfl

theorem keyboardData_all (stack : Nat → Nat → BitVec 8) {sent : List Chars}
    (short : ∀ str ∈ sent, str.length ≤ 5) (first : Nat) :
    (sent.zipIdx first).foldl
        (fun console call => console.keyboardData (stack call.2) call.1)
        console =
      { console with
        screen := (if console.echo ≠ 0 then sent.flatten else []).foldl
          Screen.handleCar console.screen } := by
  induction sent generalizing console first with
  | nil => simp
  | cons str sent ih =>
      rw [List.zipIdx_cons, List.foldl_cons,
        keyboardData_eq _ (short str (by simp)),
        ih fun other member => short other (by simp [member])]
      split <;> simp

end KeyboardConsole

/-- The console and the desk agree; `first` is the screen at the start. -/
structure SameDesk (first : Screen) (console : KeyboardConsole) (desk : Desk) :
    Prop where
  keyboard : Agrees { console.keyboard with sent := [] }
    { desk.typewriter with typed := [] }
  echo : console.echo ≠ 0 ↔ desk.echo = true
  screen : console.screen = desk.shown.foldl Screen.handleCar first

theorem SameDesk.start (first : Screen) :
    SameDesk first (.start first) .start where
  keyboard := Agrees.start
  echo := by simp [KeyboardConsole.start, Desk.start]
  screen := rfl

theorem Agrees.clear {kbd : Keyboard} {t : Typewriter}
    (agrees : Agrees kbd t) :
    Agrees { kbd with sent := [] } { t with typed := [] } := by
  obtain ⟨keyDown, ⟨kDown, shiftState⟩, writes⟩ := agrees
  obtain ⟨quiet, npadch, pad, leds, stopped, -, -, prev⟩ := writes
  exact ⟨keyDown, ⟨kDown, shiftState⟩, ⟨⟨quiet.diacr, quiet.deadKeyNext,
    quiet.lockstate, quiet.slockstate, quiet.kbdmode, quiet.modeflags⟩,
    npadch, pad, leds, stopped, rfl, by simp, prev⟩⟩

theorem SameDesk.act {first : Screen} {console : KeyboardConsole}
    {desk : Desk} (same : SameDesk first console desk) {act : ConsoleAct}
    {acts : List ConsoleAct} (ordinary : desk.Ordinary (act :: acts)) :
    SameDesk first (console.act act) (desk.act act) ∧
      (desk.act act).Ordinary acts := by
  cases act with
  | keyboardInterrupt scancode stack =>
      refine ⟨?_, ordinary.2⟩
      have agrees := same.keyboard.doScancode ordinary.1
      simp only [KeyboardConsole.act, KeyboardConsole.keyboardInterrupt,
        Desk.act, KeyboardConsole.keyboardData_all stack agrees.writes.short]
      refine ⟨agrees.clear, same.echo, ?_⟩
      simp only [same.echo, agrees.writes.sent, List.foldl_append, same.screen]
  | consoleEcho on =>
      exact ⟨⟨same.keyboard, by simp [KeyboardConsole.act, Desk.act],
        same.screen⟩, ordinary⟩
  | consolePutbytes s len =>
      refine ⟨⟨same.keyboard, same.echo, ?_⟩, ordinary⟩
      simp only [KeyboardConsole.act, Desk.act, List.foldl_append,
        same.screen, Screen.consolePutbytes, List.foldl_map]

theorem SameDesk.run {first : Screen} {console : KeyboardConsole}
    {desk : Desk} (same : SameDesk first console desk)
    {acts : List ConsoleAct} (ordinary : desk.Ordinary acts) :
    SameDesk first (acts.foldl KeyboardConsole.act console)
      (acts.foldl Desk.act desk) := by
  induction acts generalizing console desk with
  | nil => exact same
  | cons act acts ih =>
      obtain ⟨next, rest⟩ := same.act ordinary
      exact ih next rest

/-- However keys are struck, the console echoes or does not, and programs
print: the screen shows what a typewriter with these keys would have typed,
mixed with what the programs print.  The driver knows at any time which
modifiers are held down; none is stuck when no key is. -/
theorem keyboard_types (screen : Screen) {acts : List ConsoleAct}
    (ordinary : Desk.start.Ordinary acts) :
    let console := acts.foldl KeyboardConsole.act (.start screen)
    let desk := acts.foldl Desk.act .start
    console.screen = desk.shown.foldl Screen.handleCar screen ∧
      console.keyboard.keyDown = desk.typewriter.held ∧
      console.keyboard.shiftState.toNat = layer desk.typewriter.held ∧
      (∀ modifier, (console.keyboard.kDown modifier).toNat =
        pressed desk.typewriter.held modifier) ∧
      ((∀ key ∈ [29, 42, 54, 56, 97, 100],
          desk.typewriter.held key = false) →
        console.keyboard.shiftState = 0) := by
  intro console desk
  obtain ⟨agrees, -, isScreen⟩ := (SameDesk.start screen).run ordinary
  have held : console.keyboard.keyDown = desk.typewriter.held :=
    agrees.keyDown
  have state : console.keyboard.shiftState =
      BitVec.ofNat 32 (layer desk.typewriter.held) := agrees.counted.shiftState
  have counts : ∀ modifier, console.keyboard.kDown modifier =
      BitVec.ofNat 8 (pressed desk.typewriter.held modifier) :=
    agrees.counted.kDown
  have small := layer_lt desk.typewriter.held
  refine ⟨isScreen, held, ?_, fun modifier => ?_, fun free => ?_⟩
  · rw [state, BitVec.toNat_ofNat, Nat.mod_eq_of_lt (by omega)]
  · have few := pressed_le desk.typewriter.held modifier
    rw [counts, BitVec.toNat_ofNat, Nat.mod_eq_of_lt (by omega)]
  · simp only [List.mem_cons, List.not_mem_nil, or_false, forall_eq_or_imp,
      forall_eq] at free
    obtain ⟨ctrl, left, right, alt, ctrlR, altgr⟩ := free
    rw [state, layer_eq, ctrl, left, right, alt, ctrlR, altgr]
    rfl

/-- Shift and a letter; then the letter alone, without the echo. -/
def capitalActs : List ConsoleAct :=
  [.keyboardInterrupt 0x2a fun _ _ => 0, .keyboardInterrupt 0x10 fun _ _ => 0,
    .keyboardInterrupt 0xaa fun _ _ => 0, .consoleEcho 0,
    .keyboardInterrupt 0x90 fun _ _ => 0, .keyboardInterrupt 0x10 fun _ _ => 0]

theorem keyboard_types_capital :
    (capitalActs.foldl KeyboardConsole.act
        (.start ⟨fun _ => 0, 0, 0, 0, 0, []⟩)).screen =
      Screen.handleCar ⟨fun _ => 0, 0, 0, 0, 0, []⟩ (ascii 'A') :=
  (keyboard_types _ (show Desk.start.Ordinary capitalActs from
    ⟨by decide, by decide, by decide, by decide, by decide, trivial⟩)).1

end Nebulea
