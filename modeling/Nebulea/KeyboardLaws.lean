import Mathlib.Tactic.IntervalCases
import Nebulea.KeyboardTyping

/-!
# The driver types what a typewriter would

The driver's counters are the numbers of keys held down, its modes keep their
initial values, and each handler does what the key does on the typewriter.
-/

namespace Nebulea

/-! ## The keymaps -/

/-- What the keymaps contain: no dead keys, no locks, and the modifiers on the
same keys everywhere. -/
def KnownSymbol (keycode keysym : Nat) : Prop :=
  ktyp keysym ∈ [0xf0, 0xf1, 0xf2, 0xf3, 0xf5, 0xf6, 0xf7, 0xf8, 0xf9, 0xfb] ∧
  (ktyp keysym = 0xf2 → (kval keysym).toNat ∉ [13, 14, 19]) ∧
  (ktyp keysym = 0xf7 → keycode ∈ modifierKeys (kval keysym).toNat) ∧
  (keycode ∈ [29, 42, 54, 56, 97, 100] → ktyp keysym = 0xf7)

instance (keycode keysym : Nat) : Decidable (KnownSymbol keycode keysym) :=
  inferInstanceAs (Decidable (_ ∧ _))

theorem knownSymbol_hole {keycode : Nat} (large : 128 ≤ keycode) :
    KnownSymbol keycode 0xf200 := by
  have kind : ktyp 0xf200 = 0xf2 := rfl
  refine ⟨by decide, by decide, fun shift => ?_, fun member => ?_⟩
  · rw [kind] at shift
    omega
  · simp only [List.mem_cons, List.not_mem_nil, or_false] at member
    omega

/-- The keymaps of the kernel. -/
def allKeyMaps : List (List Nat) :=
  [plainMap, shiftMap, altgrMap, ctrlMap, altgrCtrlMap, altMap, ctrlAltMap]

theorem keyMaps_mem {index : Nat} {keyMap : List Nat}
    (used : keyMaps index = some keyMap) : keyMap ∈ allKeyMaps := by
  unfold keyMaps at used
  split at used <;> cases used <;> simp [allKeyMaps]

set_option maxRecDepth 1000 in
theorem allKeyMaps_length : ∀ keyMap ∈ allKeyMaps, keyMap.length = 128 := by
  decide

/-- The entries of all keymaps, one after the other. -/
theorem allKeyMaps_entries :
    (allKeyMaps.all fun keyMap => keyMap.zipIdx.all fun entry =>
      KnownSymbol entry.2 entry.1) = true := by
  decide

theorem symbolOf_eq_getElem {keyMap : List Nat} {keycode : Nat}
    (small : keycode < keyMap.length) :
    symbolOf keyMap keycode = keyMap[keycode] :=
  List.getD_eq_getElem _ _ small

theorem allKeyMaps_known {keyMap : List Nat} (member : keyMap ∈ allKeyMaps)
    {keycode : Nat} (small : keycode < 128) :
    KnownSymbol keycode (symbolOf keyMap keycode) := by
  have inside : keycode < keyMap.length := by
    rwa [allKeyMaps_length keyMap member]
  have known := List.all_eq_true.mp
    (List.all_eq_true.mp allKeyMaps_entries keyMap member)
    (keyMap[keycode], keycode)
    (List.mk_mem_zipIdx_iff_getElem?.mpr (List.getElem?_eq_getElem inside))
  rw [symbolOf_eq_getElem inside]
  exact of_decide_eq_true known

theorem symbolOf_known {index : Nat} {keyMap : List Nat}
    (used : keyMaps index = some keyMap) (keycode : Nat) :
    KnownSymbol keycode (symbolOf keyMap keycode) := by
  have member := keyMaps_mem used
  by_cases small : keycode < 128
  · exact allKeyMaps_known member small
  · have size := allKeyMaps_length keyMap member
    rw [symbolOf, List.getD_eq_default _ _ (by omega)]
    exact knownSymbol_hole (by omega)

/-! ## Keys held down -/

theorem pressed_le (held : Nat → Bool) (modifier : Nat) :
    pressed held modifier ≤ 2 := by
  refine (List.countP_le_length).trans ?_
  unfold modifierKeys
  split <;> simp

theorem pressed_eq_zero (held : Nat → Bool) {modifier : Nat}
    (large : 4 ≤ modifier) : pressed held modifier = 0 := by
  obtain ⟨more, rfl⟩ := Nat.exists_eq_add_of_le large
  rw [Nat.add_comm]
  rfl

theorem pressed_eq (held : Nat → Bool) :
    pressed held 0 = (held 42).toNat + (held 54).toNat ∧
      pressed held 1 = (held 100).toNat ∧
      pressed held 2 = (held 29).toNat + (held 97).toNat ∧
      pressed held 3 = (held 56).toNat := by
  have count (key : Nat) : [key].countP held = (held key).toNat := by
    cases down : held key <;> simp [down]
  have counts (first second : Nat) : [first, second].countP held =
      (held first).toNat + (held second).toNat := by
    cases down : held first <;> cases also : held second <;> simp [down, also]
  exact ⟨counts 42 54, count 100, counts 29 97, count 56⟩

theorem layer_eq (held : Nat → Bool) :
    layer held = layerOf (held 42 || held 54) (held 100)
      (held 29 || held 97) (held 56) := by
  obtain ⟨shift, altgr, ctrl, alt⟩ := pressed_eq held
  have one : ∀ a : Bool, (decide (a.toNat ≠ 0)) = a := by decide
  have two : ∀ a b : Bool, (decide (a.toNat + b.toNat ≠ 0)) = (a || b) := by
    decide
  rw [layer, shift, altgr, ctrl, alt, two, one, two, one]

theorem modifierKeys_cases {key modifier : Nat}
    (member : key ∈ modifierKeys modifier) :
    (modifier = 0 ∧ (key = 42 ∨ key = 54)) ∨ (modifier = 1 ∧ key = 100) ∨
      (modifier = 2 ∧ (key = 29 ∨ key = 97)) ∨ (modifier = 3 ∧ key = 56) := by
  unfold modifierKeys at member
  split at member <;> simp_all

theorem not_mem_modifierKeys {key modifier other : Nat}
    (member : key ∈ modifierKeys modifier) (ne : other ≠ modifier) :
    key ∉ modifierKeys other := by
  intro also
  rcases modifierKeys_cases member with h | h | h | h <;>
  rcases modifierKeys_cases also with h' | h' | h' | h' <;>
  omega

theorem pressed_update_of_not_mem (held : Nat → Bool) {key modifier : Nat}
    (other : key ∉ modifierKeys modifier) (down : Bool) :
    pressed (Function.update held key down) modifier =
      pressed held modifier := by
  refine List.countP_congr fun k member => ?_
  have ne : k ≠ key := fun same => other (same ▸ member)
  rw [Function.update_of_ne ne]

theorem pressed_update_of_mem (held : Nat → Bool) {key modifier : Nat}
    (member : key ∈ modifierKeys modifier) (down : Bool) :
    pressed (Function.update held key down) modifier + (held key).toNat =
      pressed held modifier + down.toNat := by
  rcases modifierKeys_cases member with
    ⟨rfl, rfl | rfl⟩ | ⟨rfl, rfl⟩ | ⟨rfl, rfl | rfl⟩ | ⟨rfl, rfl⟩ <;>
  simp only [pressed, modifierKeys, List.countP_cons, List.countP_nil,
    Function.update_apply] <;>
  cases down <;>
  grind

theorem layerOf_lt (shift altgr ctrl alt : Bool) :
    layerOf shift altgr ctrl alt < 16 := by
  have first := Bool.toNat_le shift
  have second := Bool.toNat_le altgr
  have third := Bool.toNat_le ctrl
  have fourth := Bool.toNat_le alt
  unfold layerOf
  omega

theorem layer_lt (held : Nat → Bool) : layer held < 16 :=
  layerOf_lt _ _ _ _

/-- The bit of a modifier in `shift_state` is set or cleared. -/
theorem layerOf_update : ∀ modifier < 4, ∀ shift altgr ctrl alt down : Bool,
    (if down then
      BitVec.ofNat 32 (layerOf shift altgr ctrl alt) ||| 1#32 <<< modifier
    else
      BitVec.ofNat 32 (layerOf shift altgr ctrl alt) &&&
        ~~~(1#32 <<< modifier)) =
      BitVec.ofNat 32 (layerOf (if modifier = 0 then down else shift)
        (if modifier = 1 then down else altgr)
        (if modifier = 2 then down else ctrl)
        (if modifier = 3 then down else alt)) := by
  decide

theorem layer_update (held : Nat → Bool) {key modifier : Nat}
    (member : key ∈ modifierKeys modifier) (down : Bool) :
    (if pressed (Function.update held key down) modifier ≠ 0 then
      BitVec.ofNat 32 (layer held) ||| 1#32 <<< modifier
    else
      BitVec.ofNat 32 (layer held) &&& ~~~(1#32 <<< modifier)) =
      BitVec.ofNat 32 (layer (Function.update held key down)) := by
  have small : modifier < 4 := by
    rcases modifierKeys_cases member with h | h | h | h <;> omega
  have others (other : Nat) : (decide
      (pressed (Function.update held key down) other ≠ 0)) =
        if modifier = other then
          decide (pressed (Function.update held key down) modifier ≠ 0)
        else decide (pressed held other ≠ 0) := by
    by_cases same : modifier = other
    · rw [if_pos same, same]
    · rw [if_neg same, pressed_update_of_not_mem _
        (not_mem_modifierKeys member (Ne.symm same))]
  have step := layerOf_update modifier small (pressed held 0 ≠ 0)
    (pressed held 1 ≠ 0) (pressed held 2 ≠ 0) (pressed held 3 ≠ 0)
    (pressed (Function.update held key down) modifier ≠ 0)
  rw [layer, layer, others 0, others 1, others 2, others 3, ← step]
  simp only [decide_eq_true_eq]

/-! ## Agreement -/

/-- The driver is in the modes in which it starts. -/
structure Quiet (kbd : Keyboard) : Prop where
  diacr : kbd.diacr = 0
  deadKeyNext : kbd.deadKeyNext = false
  lockstate : kbd.lockstate = 0
  slockstate : kbd.slockstate = 0
  kbdmode : kbd.kbdmode = .xlate
  modeflags : kbd.modeflags = 0b10100

/-- The driver counts the keys that the typewriter has down. -/
structure Counted (kbd : Keyboard) (held : Nat → Bool) : Prop where
  kDown : ∀ modifier,
    kbd.kDown modifier = BitVec.ofNat 8 (pressed held modifier)
  shiftState : kbd.shiftState = BitVec.ofNat 32 (layer held)

/-- The driver agrees with the typewriter in everything but the keys held
down. -/
structure Writes (kbd : Keyboard) (t : Typewriter) : Prop where
  quiet : Quiet kbd
  npadch : kbd.npadch = t.pad.elim (-1) (BitVec.ofNat 32)
  pad : ∀ number, t.pad = some number → number < 2 ^ 31
  leds : kbd.ledflagstate =
    BitVec.ofNat 3 (2 * t.num.toNat + 4 * t.caps.toNat)
  stopped : kbd.stopped = t.stopped
  sent : kbd.sent.flatten = t.typed
  short : ∀ text ∈ kbd.sent, text.length ≤ 5
  prev : kbd.prevScancode = t.prev

/-- The driver agrees with the typewriter. -/
structure Agrees (kbd : Keyboard) (t : Typewriter) : Prop where
  keyDown : kbd.keyDown = t.held
  counted : Counted kbd t.held
  writes : Writes kbd t

theorem Quiet.modes {kbd : Keyboard} (quiet : Quiet kbd) :
    kbd.vcKbdMode vcApplic = false ∧ kbd.vcKbdMode vcCkmode = false ∧
      kbd.vcKbdMode vcRepeat = true ∧ kbd.vcKbdMode vcCrlf = false ∧
      kbd.vcKbdMode vcMeta = true := by
  simp only [Keyboard.vcKbdMode, quiet.modeflags]
  decide

theorem Writes.locks {kbd : Keyboard} {t : Typewriter}
    (writes : Writes kbd t) :
    kbd.vcKbdLed vcNumlock = t.num ∧ kbd.vcKbdLed vcCapslock = t.caps := by
  simp only [Keyboard.vcKbdLed, writes.leds]
  cases t.num <;> cases t.caps <;> decide

theorem Agrees.start : Agrees .start .start where
  keyDown := rfl
  counted := {
    kDown := fun modifier => by
      have none : pressed (fun _ => false) modifier = 0 := by simp [pressed]
      rw [Typewriter.start, none]
      rfl
    shiftState := rfl }
  writes := {
    quiet := ⟨rfl, rfl, rfl, rfl, rfl, rfl⟩
    npadch := rfl
    pad := fun _ none => nomatch none
    leds := rfl
    stopped := rfl
    sent := rfl
    short := by simp [Keyboard.start]
    prev := rfl }

/-! ## `compute_shiftstate` -/

/-- The keys of all modifiers. -/
def allModifierKeys : List Nat :=
  [29, 42, 54, 56, 97, 100]

theorem modifierKeys_all {key modifier : Nat}
    (member : key ∈ modifierKeys modifier) : key ∈ allModifierKeys := by
  rcases modifierKeys_cases member with
    ⟨rfl, rfl | rfl⟩ | ⟨rfl, rfl⟩ | ⟨rfl, rfl | rfl⟩ | ⟨rfl, rfl⟩ <;> decide

/-- The loop of `compute_shiftstate` counts a modifier key that is down. -/
theorem countKey_modifier {key modifier : Nat}
    (member : key ∈ modifierKeys modifier) (kbd : Keyboard) :
    kbd.countKey key =
      { kbd with
        kDown := Function.update kbd.kDown modifier
          (kbd.kDown modifier + if kbd.keyDown key then 1 else 0)
        shiftState :=
          kbd.shiftState ||| if kbd.keyDown key then 1#32 <<< modifier else 0 } := by
  have symbol : ktyp (symbolOf plainMap key ^^^ 0xf000) = ktShift ∧
      (kval (symbolOf plainMap key ^^^ 0xf000)).toNat = modifier ∧
      modifier ≠ kgCapsshift := by
    rcases modifierKeys_cases member with
      ⟨rfl, rfl | rfl⟩ | ⟨rfl, rfl⟩ | ⟨rfl, rfl | rfl⟩ | ⟨rfl, rfl⟩ <;> decide
  obtain ⟨type, value, plain⟩ := symbol
  cases down : kbd.keyDown key with
  | false => simp [Keyboard.countKey, down]
  | true => simp [Keyboard.countKey, down, type, value, plain]

theorem ktyp_xor (keysym : Nat) :
    ktyp (keysym ^^^ 0xf000) = ktyp keysym ^^^ 0xf0 := by
  simp only [ktyp, ← Nat.shiftRight_eq_div_pow _ 8, Nat.shiftRight_xor_distrib]
  rfl

theorem countKey_other {key : Nat} (other : key ∉ allModifierKeys)
    (kbd : Keyboard) : kbd.countKey key = kbd := by
  have types : ∀ kind ∈ [0xf0, 0xf1, 0xf2, 0xf3, 0xf5, 0xf6, 0xf7, 0xf8, 0xf9,
      0xfb], kind ≠ 0xf7 →
        ¬ (kind ^^^ 0xf0 = ktShift ∨ kind ^^^ 0xf0 = ktSlock) := by
    decide
  obtain ⟨type, -, shift, -⟩ := symbolOf_known (show keyMaps 0 = _ from rfl) key
  have plain := types _ type fun isShift =>
    other (modifierKeys_all (shift isShift))
  simp only [Keyboard.countKey, ktyp_xor, if_neg plain, ite_self]

theorem foldl_countKey (kbd : Keyboard) :
    (List.range 256).foldl Keyboard.countKey kbd =
      allModifierKeys.foldl Keyboard.countKey kbd := by
  have keys : allModifierKeys =
      (List.range 256).filter (fun key => key ∈ allModifierKeys) := by
    decide
  rw [keys, List.foldl_filter]
  refine List.foldl_ext _ _ _ fun kbd key _ => ?_
  by_cases modifier : key ∈ allModifierKeys
  · simp [modifier]
  · simp only [modifier, decide_false, Bool.false_eq_true, if_false]
    exact countKey_other modifier kbd

/-- `compute_shiftstate` counts the modifier keys that are down. -/
theorem computeShiftstate_eq (kbd : Keyboard) :
    kbd.computeShiftstate =
      { kbd with
        kDown := fun modifier =>
          BitVec.ofNat 8 (pressed kbd.keyDown modifier)
        shiftState := BitVec.ofNat 32 (layer kbd.keyDown) } := by
  have bits : ∀ ctrl left right alt ctrlR altgr : Bool,
      0#32 ||| (if ctrl then 1#32 <<< 2 else 0) |||
        (if left then 1#32 <<< 0 else 0) |||
        (if right then 1#32 <<< 0 else 0) |||
        (if alt then 1#32 <<< 3 else 0) |||
        (if ctrlR then 1#32 <<< 2 else 0) |||
        (if altgr then 1#32 <<< 1 else 0) =
      BitVec.ofNat 32 (layerOf (left || right) altgr (ctrl || ctrlR) alt) := by
    decide
  have counts : ∀ a b : Bool,
      0#8 + (if a then 1#8 else 0) + (if b then 1#8 else 0) =
        BitVec.ofNat 8 (a.toNat + b.toNat) := by decide
  have one : ∀ a : Bool, 0#8 + (if a then 1#8 else 0) =
      BitVec.ofNat 8 a.toNat := by decide
  rw [Keyboard.computeShiftstate, foldl_countKey]
  simp only [allModifierKeys, List.foldl_cons, List.foldl_nil,
    countKey_modifier (show 29 ∈ modifierKeys 2 by decide),
    countKey_modifier (show 42 ∈ modifierKeys 0 by decide),
    countKey_modifier (show 54 ∈ modifierKeys 0 by decide),
    countKey_modifier (show 56 ∈ modifierKeys 3 by decide),
    countKey_modifier (show 97 ∈ modifierKeys 2 by decide),
    countKey_modifier (show 100 ∈ modifierKeys 1 by decide)]
  congr 1
  · funext modifier
    obtain ⟨shift, altgr, ctrl, alt⟩ := pressed_eq kbd.keyDown
    rcases Nat.lt_or_ge modifier 4 with small | large
    · interval_cases modifier
      · rw [shift, ← counts]
        rfl
      · rw [altgr, ← one]
        rfl
      · rw [ctrl, ← counts]
        rfl
      · rw [alt, ← one]
        rfl
    · have apart (other : Nat) (small : other < 4) : modifier ≠ other := by
        omega
      rw [pressed_eq_zero _ large]
      simp [Function.update_of_ne, apart]
  · rw [layer_eq]
    exact bits _ _ _ _ _ _

/-! ## The handlers -/

variable {kbd : Keyboard} {t : Typewriter}

theorem Agrees.puts (agrees : Agrees kbd t) {text : Chars}
    (short : text.length ≤ 5) :
    Agrees (kbd.putsQueue text) { t with typed := t.typed ++ text } where
  keyDown := agrees.keyDown
  counted := ⟨agrees.counted.kDown, agrees.counted.shiftState⟩
  writes := {
    quiet := ⟨agrees.writes.quiet.diacr, agrees.writes.quiet.deadKeyNext,
      agrees.writes.quiet.lockstate, agrees.writes.quiet.slockstate,
      agrees.writes.quiet.kbdmode, agrees.writes.quiet.modeflags⟩
    npadch := agrees.writes.npadch
    pad := agrees.writes.pad
    leds := agrees.writes.leds
    stopped := agrees.writes.stopped
    sent := by simp [Keyboard.putsQueue, agrees.writes.sent]
    short := by
      intro other member
      rcases List.mem_append.mp member with old | new
      · exact agrees.writes.short other old
      · rw [List.mem_singleton.mp new]
        exact short
    prev := agrees.writes.prev }

theorem Agrees.put (agrees : Agrees kbd t) (c : BitVec 8) :
    Agrees (kbd.putQueue c) { t with typed := t.typed ++ charText c } := by
  refine agrees.puts ?_
  split <;> simp

theorem Agrees.doFn (agrees : Agrees kbd t) (value : BitVec 8) :
    Agrees (kbd.doFn value false)
      { t with typed := t.typed ++ functionText value.toNat } := by
  simp only [Keyboard.doFn, functionText, Bool.false_eq_true, if_false]
  cases entry : funcTable value.toNat with
  | none => simpa using agrees
  | some text =>
      refine agrees.puts ?_
      have short : ∀ name ∈ funcNames, (cString name).length ≤ 4 := by decide
      rw [funcTable, Option.map_eq_some_iff] at entry
      obtain ⟨name, found, rfl⟩ := entry
      have := short name (List.mem_of_getElem? found)
      simp only [List.length_cons]
      omega

theorem Agrees.doCur (agrees : Agrees kbd t) (value : BitVec 8) :
    Agrees (kbd.doCur value false)
      { t with typed := t.typed ++ cursorText value.toNat } := by
  obtain ⟨-, cursor, -⟩ := agrees.writes.quiet.modes
  simp only [Keyboard.doCur, Keyboard.applkey, cursor, Bool.false_eq_true,
    if_false]
  exact agrees.puts (by simp)

theorem Agrees.doSelf (agrees : Agrees kbd t) (value : BitVec 8) :
    Agrees (kbd.doSelf value false)
      { t with typed := t.typed ++ charText value } := by
  simp only [Keyboard.doSelf, agrees.writes.quiet.diacr,
    agrees.writes.quiet.deadKeyNext, Bool.false_eq_true, if_false, ne_eq,
    not_true_eq_false]
  exact agrees.put value

theorem Agrees.doMeta (agrees : Agrees kbd t) (value : BitVec 8) :
    Agrees (kbd.doMeta value false)
      { t with typed := t.typed ++ 27 :: charText value } := by
  obtain ⟨-, -, -, -, isMeta⟩ := agrees.writes.quiet.modes
  simp only [Keyboard.doMeta, isMeta, Bool.false_eq_true, if_false, if_true]
  simpa [charText] using (agrees.put 27).put value

theorem Agrees.padChar (agrees : Agrees kbd t) (value : Nat) :
    Agrees (kbd.padChar value)
      { t with typed := t.typed ++
        charText (Keyboard.padChars.getD value 0) } := by
  have put := agrees.put (Keyboard.padChars.getD value 0)
  obtain ⟨-, -, -, crlf, -⟩ := put.writes.quiet.modes
  simp only [Keyboard.padChar, crlf, Bool.false_eq_true, and_false, if_false]
  exact put

theorem Agrees.padKey (agrees : Agrees kbd t) (value : Nat) :
    Agrees ((kbd.padKey value).getD (kbd.padChar value))
      { t with typed := t.typed ++ padText value } := by
  obtain ⟨applic, -⟩ := agrees.writes.quiet.modes
  fun_cases padText value with
  | case1 => exact agrees.doFn 21
  | case2 => exact agrees.doFn 23
  | case3 => exact agrees.doCur 0
  | case4 => exact agrees.doFn 25
  | case5 => exact agrees.doCur 1
  | case6 =>
      simp only [Keyboard.padKey, Keyboard.applkey, applic, Option.getD_some,
        Bool.false_eq_true, if_false]
      exact agrees.puts (by simp)
  | case7 => exact agrees.doCur 2
  | case8 => exact agrees.doFn 20
  | case9 => exact agrees.doCur 3
  | case10 => exact agrees.doFn 24
  | case11 => exact agrees.doFn 22
  | case12 => exact agrees.doFn 22
  | case13 =>
      simp only [Keyboard.padKey, Option.getD_none]
      exact agrees.padChar value

theorem Agrees.doPad (agrees : Agrees kbd t) (value : BitVec 8) :
    Agrees (kbd.doPad value false)
      { t with typed := t.typed ++
        if t.num then charText (Keyboard.padChars.getD value.toNat 0)
        else padText value.toNat } := by
  obtain ⟨applic, -⟩ := agrees.writes.quiet.modes
  simp only [Keyboard.doPad, applic, agrees.writes.locks.1,
    Bool.false_eq_true, if_false, false_and]
  by_cases locked : t.num = true
  · rw [if_neg (not_not.mpr locked), if_pos locked]
    exact agrees.padChar value.toNat
  · rw [if_pos locked, if_neg locked]
    exact agrees.padKey value.toNat

/-- The locks are exclusive bits of `ledflagstate`. -/
theorem leds_toggle : ∀ num caps : Bool,
    BitVec.ofNat 3 (2 * num.toNat + 4 * caps.toNat) ^^^ 1#3 <<< vcNumlock =
        BitVec.ofNat 3 (2 * (!num).toNat + 4 * caps.toNat) ∧
      BitVec.ofNat 3 (2 * num.toNat + 4 * caps.toNat) ^^^ 1#3 <<< vcCapslock =
        BitVec.ofNat 3 (2 * num.toNat + 4 * (!caps).toNat) := by
  decide

theorem Agrees.setLeds (agrees : Agrees kbd t) {num caps : Bool}
    {leds : BitVec 3}
    (isLeds : leds = BitVec.ofNat 3 (2 * num.toNat + 4 * caps.toNat)) :
    Agrees { kbd with ledflagstate := leds }
      { t with num := num, caps := caps } := by
  obtain ⟨keyDown, ⟨kDown, shiftState⟩, writes⟩ := agrees
  obtain ⟨quiet, npadch, pad, -, stopped, sent, short, prev⟩ := writes
  exact ⟨keyDown, ⟨kDown, shiftState⟩,
    ⟨⟨quiet.diacr, quiet.deadKeyNext, quiet.lockstate, quiet.slockstate,
      quiet.kbdmode, quiet.modeflags⟩, npadch, pad, isLeds, stopped, sent,
      short, prev⟩⟩

theorem Agrees.capsToggle (agrees : Agrees kbd t) :
    Agrees kbd.capsToggle (t.strike kbd.rep .capsLock) := by
  unfold Keyboard.capsToggle Typewriter.strike
  split
  · exact agrees
  · rw [Keyboard.chgVcKbdLed, agrees.writes.leds]
    exact agrees.setLeds (leds_toggle t.num t.caps).2

theorem Agrees.bareNum (agrees : Agrees kbd t) :
    Agrees kbd.bareNum (t.strike kbd.rep .numLock) := by
  unfold Keyboard.bareNum Typewriter.strike
  split
  · exact agrees
  · rw [Keyboard.chgVcKbdLed, agrees.writes.leds]
    exact agrees.setLeds (leds_toggle t.num t.caps).1

theorem Agrees.hold (agrees : Agrees kbd t) :
    Agrees kbd.hold (t.strike kbd.rep .hold) := by
  cases repeated : kbd.rep with
  | true => simpa [Keyboard.hold, Typewriter.strike, repeated] using agrees
  | false =>
      obtain ⟨keyDown, ⟨kDown, shiftState⟩, writes⟩ := agrees
      obtain ⟨quiet, npadch, pad, leds, stopped, sent, short, prev⟩ := writes
      simp only [Keyboard.hold, Typewriter.strike, repeated,
        Bool.false_eq_true, if_false]
      exact ⟨keyDown, ⟨kDown, shiftState⟩,
        ⟨⟨quiet.diacr, quiet.deadKeyNext, quiet.lockstate, quiet.slockstate,
          quiet.kbdmode, quiet.modeflags⟩, npadch, pad, leds,
          by rw [stopped], sent, short, prev⟩⟩

theorem Agrees.enter (agrees : Agrees kbd t) :
    Agrees kbd.enter { t with typed := t.typed ++ [13] } := by
  have put := agrees.put 13
  obtain ⟨-, -, -, crlf, -⟩ := put.writes.quiet.modes
  simp only [Keyboard.enter, agrees.writes.quiet.diacr, ne_eq,
    not_true_eq_false, if_false, crlf, Bool.false_eq_true]
  exact put

theorem Quiet.setSlockstate (quiet : Quiet kbd) :
    { kbd with slockstate := 0 } = kbd := by
  rw [← quiet.slockstate]

/-- `compute_shiftstate` finds what the typewriter has down, also while the
counters lag behind. -/
theorem Writes.computeShiftstate (writes : Writes kbd t)
    (keyDown : kbd.keyDown = t.held) :
    Agrees kbd.computeShiftstate t := by
  obtain ⟨quiet, npadch, pad, leds, stopped, sent, short, prev⟩ := writes
  rw [computeShiftstate_eq, keyDown]
  exact ⟨rfl, ⟨fun _ => rfl, rfl⟩, ⟨⟨quiet.diacr, quiet.deadKeyNext,
    quiet.lockstate, quiet.slockstate, quiet.kbdmode, quiet.modeflags⟩,
    npadch, pad, leds, stopped, sent, short, prev⟩⟩

theorem Agrees.doSpec (agrees : Agrees kbd t) {keysym : Nat}
    (type : ktyp keysym = 0xf2)
    (known : (kval keysym).toNat ∉ [13, 14, 19]) :
    Agrees (kbd.doSpec (kval keysym) false)
      (t.strike kbd.rep (strokeOf t.num keysym)) := by
  have quiet := agrees.writes.quiet
  simp only [Keyboard.doSpec, quiet.kbdmode, strokeOf, type, reduceCtorEq,
    or_self, false_and, Bool.false_eq_true, if_false]
  generalize (kval keysym).toNat = value at known
  fun_cases Keyboard.specFn kbd value with
  | case1 =>
      simpa [Typewriter.strike] using
        agrees.writes.computeShiftstate agrees.keyDown
  | case2 => exact agrees.enter
  | case3 => exact agrees.capsToggle
  | case4 =>
      simp only [Keyboard.num, quiet.modes.1, Bool.false_eq_true, if_false]
      exact agrees.bareNum
  | case5 => exact agrees.hold
  | case6 => simp at known
  | case7 => simp at known
  | case8 => simp at known
  | case9 => simp_all [Typewriter.strike]

/-- What stands for no number is not a number in the range of an `int`. -/
theorem padNumber_ne {number : Nat} (small : number < 2 ^ 31) :
    BitVec.ofNat 32 number ≠ -1 := by
  intro same
  have values := congrArg BitVec.toNat same
  rw [BitVec.toNat_ofNat, Nat.mod_eq_of_lt (by omega)] at values
  have all : (-1 : BitVec 32).toNat = 2 ^ 32 - 1 := by decide
  omega

theorem Agrees.doAscii (agrees : Agrees kbd t) {value : BitVec 8}
    {base digit : Nat}
    (isDigit : (value.toNat < 10 ∧ base = 10 ∧ digit = value.toNat) ∨
      (10 ≤ value.toNat ∧ base = 16 ∧ digit = value.toNat - 10))
    (bound : ∀ number, (t.strike kbd.rep (.digit base digit)).pad =
      some number → number < 2 ^ 31) :
    Agrees (kbd.doAscii value false) (t.strike kbd.rep (.digit base digit)) := by
  obtain ⟨keyDown, ⟨kDown, shiftState⟩, writes⟩ := agrees
  obtain ⟨quiet, npadch, pad, leds, stopped, sent, short, prev⟩ := writes
  have isBase : (if value.toNat < 10 then 10#32 else 16#32) =
      BitVec.ofNat 32 base := by
    rcases isDigit with ⟨small, rfl, -⟩ | ⟨large, rfl, -⟩
    · rw [if_pos small]
    · rw [if_neg (by omega)]
  have isValue : (if value.toNat < 10 then value else value - 10).setWidth 32 =
      BitVec.ofNat 32 digit := by
    refine BitVec.eq_of_toNat_eq ?_
    have byte := value.isLt
    rcases isDigit with ⟨small, -, rfl⟩ | ⟨large, -, rfl⟩
    · rw [if_pos small]
      simp
    · rw [if_neg (by omega)]
      simp [BitVec.toNat_sub]
      omega
  refine ⟨keyDown, ⟨kDown, shiftState⟩, ⟨⟨quiet.diacr, quiet.deadKeyNext,
    quiet.lockstate, quiet.slockstate, quiet.kbdmode, quiet.modeflags⟩, ?_,
    bound, leds, stopped, sent, short, prev⟩⟩
  simp only [Keyboard.doAscii, Bool.false_eq_true, if_false, isBase, isValue,
    Typewriter.strike, Option.elim_some, npadch]
  cases isPad : t.pad with
  | none => simp
  | some number =>
      rw [Option.elim_some, if_neg (padNumber_ne (pad number isPad)),
        BitVec.ofNat_add, BitVec.ofNat_mul]

/-! ## Keys that go up or down -/

/-- The type that the handler is chosen by. -/
def handlerType (keysym : Nat) : Nat :=
  if ktyp keysym = 0xfb then ktLatin else ktyp keysym - 0xf0

/-- A key that goes down does its work, unless it is a modifier. -/
theorem Agrees.keyHandler (agrees : Agrees kbd t) {keycode keysym : Nat}
    (known : KnownSymbol keycode keysym) (plain : ktyp keysym ≠ 0xf7)
    (bound : ∀ number, (t.strike kbd.rep (strokeOf t.num keysym)).pad =
      some number → number < 2 ^ 31) :
    Agrees (kbd.keyHandler (handlerType keysym) (kval keysym) false)
      (t.strike kbd.rep (strokeOf t.num keysym)) := by
  obtain ⟨types, special, -⟩ := known
  simp only [List.mem_cons, List.not_mem_nil, or_false] at types
  rcases types with type | type | type | type | type | type | type | type |
    type | type
  · simp only [handlerType, strokeOf, type]
    exact agrees.doSelf (kval keysym)
  · simp only [handlerType, strokeOf, type]
    exact agrees.doFn (kval keysym)
  · rw [handlerType, type]
    exact agrees.doSpec type (special type)
  · simp only [handlerType, strokeOf, type]
    exact agrees.doPad (kval keysym)
  · simpa [handlerType, strokeOf, type, Keyboard.keyHandler,
      Typewriter.strike] using agrees
  · simp only [handlerType, strokeOf, type]
    exact agrees.doCur (kval keysym)
  · exact absurd type plain
  · simp only [handlerType, strokeOf, type]
    exact agrees.doMeta (kval keysym)
  · by_cases small : (kval keysym).toNat < 10
    · have stroke : strokeOf t.num keysym =
          .digit 10 (kval keysym).toNat := by
        simp [strokeOf, type, small]
      rw [stroke] at bound ⊢
      rw [handlerType, type]
      exact agrees.doAscii (.inl ⟨small, rfl, rfl⟩) bound
    · have stroke : strokeOf t.num keysym =
          .digit 16 ((kval keysym).toNat - 10) := by
        simp [strokeOf, type, small]
      rw [stroke] at bound ⊢
      rw [handlerType, type]
      exact agrees.doAscii (.inr ⟨by omega, rfl, rfl⟩) bound
  · simp only [handlerType, strokeOf, type]
    exact agrees.doSelf (kval keysym)

/-- Nothing happens when a key goes up that is no modifier. -/
theorem keyHandler_up (kbd : Keyboard) {keycode keysym : Nat}
    (known : KnownSymbol keycode keysym) (plain : ktyp keysym ≠ 0xf7) :
    kbd.keyHandler (handlerType keysym) (kval keysym) true = kbd := by
  obtain ⟨types, -⟩ := known
  simp only [List.mem_cons, List.not_mem_nil, or_false] at types
  rcases types with type | type | type | type | type | type | type | type |
    type | type
  case inr.inr.inr.inr.inr.inr.inl => exact absurd type plain
  all_goals rw [handlerType, type]; rfl

theorem Agrees.sendPad (agrees : Agrees kbd t) :
    Agrees (if kbd.npadch ≠ -1 then kbd.sendPad else kbd) t.sendPad := by
  have npadch := agrees.writes.npadch
  cases isPad : t.pad with
  | none =>
      rw [isPad, Option.elim_none] at npadch
      rw [if_neg (not_not.mpr npadch), Typewriter.sendPad, isPad]
      exact agrees
  | some number =>
      have small := agrees.writes.pad number isPad
      rw [isPad, Option.elim_some] at npadch
      have isChar : kbd.npadch.setWidth 8 = BitVec.ofNat 8 number := by
        rw [npadch, BitVec.setWidth_ofNat_of_le (by decide)]
      rw [if_pos (npadch ▸ padNumber_ne small), Typewriter.sendPad, isPad,
        Keyboard.sendPad, agrees.writes.quiet.kbdmode, isChar,
        if_neg (by decide)]
      obtain ⟨keyDown, ⟨kDown, shiftState⟩, writes⟩ :=
        agrees.put (BitVec.ofNat 8 number)
      obtain ⟨quiet, -, -, leds, stopped, sent, short, prev⟩ := writes
      exact ⟨keyDown, ⟨kDown, shiftState⟩, ⟨⟨quiet.diacr, quiet.deadKeyNext,
        quiet.lockstate, quiet.slockstate, quiet.kbdmode, quiet.modeflags⟩,
        rfl, (fun _ none => nomatch none), leds, stopped, sent, short, prev⟩⟩

theorem ofNat_pressed_ne_zero (held : Nat → Bool) (modifier : Nat) :
    BitVec.ofNat 8 (pressed held modifier) ≠ 0 ↔
      pressed held modifier ≠ 0 := by
  have small := pressed_le held modifier
  generalize pressed held modifier = count at small
  interval_cases count <;> decide

theorem ofNat_layer_inj (held other : Nat → Bool) :
    BitVec.ofNat 32 (layer held) = BitVec.ofNat 32 (layer other) ↔
      layer held = layer other := by
  have small := layer_lt held
  have alsoSmall := layer_lt other
  refine ⟨fun same => ?_, fun same => by rw [same]⟩
  have values := congrArg BitVec.toNat same
  rwa [BitVec.toNat_ofNat, BitVec.toNat_ofNat, Nat.mod_eq_of_lt (by omega),
    Nat.mod_eq_of_lt (by omega)] at values

/-- The counter of a modifier and its bit follow a key that goes down or
up. -/
theorem Agrees.count {held : Nat → Bool} (counted : Counted kbd held)
    (writes : Writes kbd t) {key modifier : Nat}
    (member : key ∈ modifierKeys modifier) {down : Bool}
    (isHeld : t.held = Function.update held key down)
    (keyDown : kbd.keyDown = t.held) {count : BitVec 8}
    (isCount : count = BitVec.ofNat 8 (pressed t.held modifier)) :
    Agrees { kbd with
      kDown := Function.update kbd.kDown modifier count
      shiftState :=
        if count ≠ 0 then kbd.shiftState ||| 1#32 <<< modifier
        else kbd.shiftState &&& ~~~(1#32 <<< modifier) } t := by
  obtain ⟨quiet, npadch, pad, leds, stopped, sent, short, prev⟩ := writes
  refine ⟨keyDown, ⟨fun other => ?_, ?_⟩, ⟨⟨quiet.diacr, quiet.deadKeyNext,
    quiet.lockstate, quiet.slockstate, quiet.kbdmode, quiet.modeflags⟩,
    npadch, pad, leds, stopped, sent, short, prev⟩⟩
  · change Function.update kbd.kDown modifier count other = _
    by_cases same : other = modifier
    · subst same
      rw [Function.update_self, isCount]
    · rw [Function.update_of_ne same, counted.kDown, isHeld,
        pressed_update_of_not_mem _ (not_mem_modifierKeys member same)]
  · have bit := layer_update held member down
    rw [← isHeld] at bit
    simp only [← bit, isCount, counted.shiftState, ofNat_pressed_ne_zero]

/-- A modifier key goes down or up. -/
theorem Agrees.doShift (counted : Counted kbd t.held) (writes : Writes kbd t)
    {key modifier : Nat} (member : key ∈ modifierKeys modifier) {up : Bool}
    (isDown : up → t.held key)
    (keyDown : kbd.keyDown = Function.update t.held key (!up))
    (rep : kbd.rep = (!up && t.held key)) {value : BitVec 8}
    (isModifier : value.toNat = modifier) :
    let next := { t with held := Function.update t.held key (!up) }
    Agrees (kbd.doShift value up)
      (if up ∧ layer next.held ≠ layer t.held then next.sendPad else next) := by
  intro next
  have nextWrites : Writes kbd next := ⟨writes.quiet, writes.npadch,
    writes.pad, writes.leds, writes.stopped, writes.sent, writes.short, writes.prev⟩
  have plain : modifier ≠ kgCapsshift := by
    rcases modifierKeys_cases member with h | h | h | h <;>
    unfold kgCapsshift <;> omega
  have moved := pressed_update_of_mem t.held member (!up)
  have atMost := pressed_le t.held modifier
  simp only [Keyboard.doShift, isModifier, plain, if_false, false_and]
  cases up with
  | false =>
      cases held : t.held key with
      | true =>
          have same : next = t := by
            simp only [next, Bool.not_false, ← held, Function.update_eq_self]
          simp only [rep, held, Bool.not_false, Bool.and_self, if_true,
            Bool.false_eq_true, false_and, if_false]
          rw [same]
          exact ⟨by rw [keyDown, Bool.not_false, ← held,
            Function.update_eq_self], counted, writes⟩
      | false =>
          have first : ¬ kbd.rep = true := by simp [rep, held]
          simp only [if_neg first, Bool.false_eq_true, if_false, false_and]
          refine Agrees.count counted nextWrites member rfl keyDown ?_
          simp only [held, Bool.toNat_false, Bool.not_false,
            Bool.toNat_true] at moved
          rw [counted.kDown, show pressed next.held modifier =
            pressed t.held modifier + 1 from moved, BitVec.ofNat_add]
          rfl
  | true =>
      have held := isDown rfl
      have first : ¬ kbd.rep = true := by simp [rep]
      simp only [held, Bool.toNat_true, Bool.not_true,
        Bool.toNat_false] at moved
      have isCounted : kbd.kDown modifier ≠ 0 := by
        rw [counted.kDown, ofNat_pressed_ne_zero]
        omega
      have isCount : kbd.kDown modifier - 1 =
          BitVec.ofNat 8 (pressed next.held modifier) := by
        rw [counted.kDown, show pressed t.held modifier =
          pressed next.held modifier + 1 from moved.symm, BitVec.ofNat_add]
        exact BitVec.add_sub_cancel _ _
      have agrees := Agrees.count counted nextWrites member rfl keyDown isCount
      have changes := agrees.counted.shiftState
      have moves := not_congr (ofNat_layer_inj next.held t.held)
      rw [← changes, ← counted.shiftState] at moves
      simp only [if_neg first, if_pos isCounted, if_true, true_and]
      by_cases layers : layer next.held = layer t.held
      · rw [if_neg (fun both => moves.mp both.1 layers),
          if_neg (not_not.mpr layers)]
        exact agrees
      · have sends := agrees.sendPad
        rw [if_pos layers]
        by_cases number : kbd.npadch ≠ -1
        · rw [if_pos ⟨moves.mpr layers, number⟩]
          rwa [if_pos number] at sends
        · rw [if_neg fun both => number both.2]
          rwa [if_neg number] at sends

/-- Letters are letters with and without Shift. -/
theorem letters_stay : ∀ index < 16, ∀ keyMap ∈ (keyMaps index).toList,
    ∀ other ∈ (keyMaps (index ^^^ 1)).toList,
      (keyMap.zip other).all fun entry =>
        ktyp entry.1 = 0xfb → ktyp entry.2 = 0xfb := by
  decide

/-- The typewriter's symbol is in a keymap, and it is of the same type. -/
theorem Typewriter.symbol_known {keyMap : List Nat}
    (used : keyMaps (layer t.held) = some keyMap) (keycode : Nat) :
    KnownSymbol keycode (t.symbol keyMap keycode) ∧
      (ktyp (symbolOf keyMap keycode) = 0xfb →
        ktyp (t.symbol keyMap keycode) = 0xfb) ∧
      (ktyp (symbolOf keyMap keycode) ≠ 0xfb →
        t.symbol keyMap keycode = symbolOf keyMap keycode) := by
  by_cases swapped : ktyp (symbolOf keyMap keycode) = 0xfb ∧ t.caps
  · rw [Typewriter.symbol, if_pos swapped]
    cases other : keyMaps (layer t.held ^^^ 1) with
    | none =>
        rw [Option.getD_none]
        exact ⟨symbolOf_known used keycode, by simp, by simp⟩
    | some otherMap =>
        have size := allKeyMaps_length keyMap (keyMaps_mem used)
        have otherSize := allKeyMaps_length otherMap (keyMaps_mem other)
        have small : keycode < 128 := by
          by_contra large
          have hole := swapped.1
          rw [symbolOf, List.getD_eq_default _ _ (by omega)] at hole
          exact absurd hole (by decide)
        have stays : ktyp (symbolOf otherMap keycode) = 0xfb := by
          have isLetter := swapped.1
          rw [symbolOf_eq_getElem (by omega)] at isLetter ⊢
          have stays := List.all_eq_true.mp
            (letters_stay (layer t.held) (layer_lt _) keyMap (by simp [used])
              otherMap (by simp [other]))
            (keyMap[keycode], otherMap[keycode])
            (List.mem_iff_getElem.mpr ⟨keycode, by simp; omega, by simp⟩)
          exact of_decide_eq_true stays isLetter
        rw [Option.getD_some]
        exact ⟨symbolOf_known other keycode, fun _ => stays,
          fun no => absurd swapped.1 no⟩
  · rw [Typewriter.symbol, if_neg swapped]
    exact ⟨symbolOf_known used keycode, by simp, by simp⟩

/-- A look at the caps lock. -/
theorem Writes.letter (writes : Writes kbd t) {keyMap : List Nat}
    (used : keyMaps (layer t.held) = some keyMap) (keycode : Nat) :
    kbd.letter (layer t.held) keycode (symbolOf keyMap keycode) =
      (handlerType (t.symbol keyMap keycode), t.symbol keyMap keycode) := by
  obtain ⟨-, stays, same⟩ := t.symbol_known used keycode
  obtain ⟨types, -⟩ := symbolOf_known used keycode
  by_cases isLetter : ktyp (symbolOf keyMap keycode) = 0xfb
  · have isType : ktyp (symbolOf keyMap keycode) - 0xf0 = ktLetter := by
      rw [isLetter]
      rfl
    rw [handlerType, if_pos (stays isLetter)]
    simp only [Keyboard.letter]
    rw [if_pos isType, writes.locks.2]
    by_cases caps : t.caps = true
    · rw [if_pos caps, Typewriter.symbol, if_pos ⟨isLetter, caps⟩]
      cases keyMaps (layer t.held ^^^ 1) <;> rfl
    · rw [if_neg caps, Typewriter.symbol, if_neg fun both => caps both.2]
  · have notType : ktyp (symbolOf keyMap keycode) - 0xf0 ≠ ktLetter := by
      intro isType
      unfold ktLetter at isType
      omega
    rw [same isLetter, handlerType, if_neg isLetter]
    simp only [Keyboard.letter, if_neg notType]

/-- The key does what its symbol says. -/
theorem Agrees.handled (counted : Counted kbd t.held) (writes : Writes kbd t)
    {event : KeyEvent} (ordinary : t.Ordinary event)
    (keyDown : kbd.keyDown =
      Function.update t.held event.keycode (!event.up))
    (rep : kbd.rep = (!event.up && t.held event.keycode))
    {keyMap : List Nat} (used : keyMaps (layer t.held) = some keyMap) :
    let keysym := t.symbol keyMap event.keycode
    Agrees (kbd.keyHandler (handlerType keysym) (kval keysym)
      (event.up && (t.held event.keycode || kbdUnexpectedUp event.keycode)))
      (t.step event) := by
  intro keysym
  obtain ⟨key, up⟩ := event
  have known : KnownSymbol key keysym := (t.symbol_known used key).1
  simp only at keyDown rep ⊢
  have isStep : t.step ⟨key, up⟩ =
      if up ∧ (t.held key ∨ kbdUnexpectedUp key) then
        if layer (Function.update t.held key (!up)) ≠ layer t.held then
          Typewriter.sendPad { t with
            held := Function.update t.held key (!up) }
        else { t with held := Function.update t.held key (!up) }
      else
        Typewriter.strike { t with held := Function.update t.held key (!up) }
          (!up && t.held key) (strokeOf t.num keysym) := by
    simp only [Typewriter.step, used]
    rfl
  by_cases modifier : ktyp keysym = 0xf7
  · have member := known.2.2.1 modifier
    have isDown : up → t.held key := fun isUp =>
      ordinary.1 isUp (modifierKeys_all member)
    have shift := Agrees.doShift counted writes member isDown keyDown rep rfl
    have nothing : strokeOf t.num keysym = .text [] := by
      simp only [strokeOf, modifier]
    rw [isStep, nothing, handlerType, modifier]
    change Agrees (kbd.doShift (kval keysym) _) _
    cases up with
    | false => simpa [Typewriter.strike] using shift
    | true => simpa [isDown rfl] using shift
  · have other : key ∉ allModifierKeys := fun member =>
      modifier (known.2.2.2 member)
    have apart (value : Nat) : key ∉ modifierKeys value := fun member =>
      other (modifierKeys_all member)
    have pressedSame := fun value =>
      pressed_update_of_not_mem t.held (apart value) (!up)
    have layerSame : layer (Function.update t.held key (!up)) =
        layer t.held := by
      simp only [layer, pressedSame]
    have agrees : Agrees kbd { t with
        held := Function.update t.held key (!up) } := by
      refine ⟨keyDown, ⟨fun value => ?_, ?_⟩, ⟨writes.quiet, writes.npadch,
        writes.pad, writes.leds, writes.stopped, writes.sent, writes.short, writes.prev⟩⟩
      · rw [counted.kDown, pressedSame]
      · rw [counted.shiftState, layerSame]
    have bound := ordinary.2
    rw [isStep] at bound ⊢
    by_cases released : up ∧ (t.held key ∨ kbdUnexpectedUp key)
    · have isUp : (up && (t.held key || kbdUnexpectedUp key)) = true := by
        simpa using released
      rw [if_pos released, if_neg (not_not.mpr layerSame), isUp,
        keyHandler_up kbd known modifier]
      exact agrees
    · have isDown : (up && (t.held key || kbdUnexpectedUp key)) = false := by
        simpa using released
      rw [if_neg released, ← rep] at bound ⊢
      rw [isDown]
      exact agrees.keyHandler known modifier bound

/-- A key goes down or up, and `key_down` has been told. -/
theorem Agrees.useKeymap (counted : Counted kbd t.held)
    (writes : Writes kbd t) {event : KeyEvent} (ordinary : t.Ordinary event)
    (keyDown : kbd.keyDown =
      Function.update t.held event.keycode (!event.up))
    (rep : kbd.rep = (!event.up && t.held event.keycode)) :
    Agrees (kbd.useKeymap false event.keycode
      (event.up && (t.held event.keycode || kbdUnexpectedUp event.keycode)))
      (t.step event) := by
  have quiet := writes.quiet
  have index : ((kbd.shiftState ||| kbd.slockstate.setWidth 32) ^^^
      kbd.lockstate.setWidth 32).toNat = layer t.held := by
    have small := layer_lt t.held
    rw [counted.shiftState, quiet.slockstate, quiet.lockstate]
    simp
    omega
  simp only [Keyboard.useKeymap, index]
  cases used : keyMaps (layer t.held) with
  | none =>
      have nextWrites : Writes kbd { t with
          held := Function.update t.held event.keycode (!event.up) } :=
        ⟨writes.quiet, writes.npadch, writes.pad, writes.leds, writes.stopped,
          writes.sent, writes.short, writes.prev⟩
      have agrees := nextWrites.computeShiftstate keyDown
      simp only [Typewriter.step, used]
      rw [agrees.writes.quiet.setSlockstate]
      exact agrees
  | some keyMap =>
      have handled := Agrees.handled counted writes ordinary keyDown rep used
      obtain ⟨types, -⟩ := symbolOf_known used event.keycode
      have typed : ktyp (symbolOf keyMap event.keycode) ≥ 0xf0 := by
        simp only [List.mem_cons, List.not_mem_nil, or_false] at types
        omega
      simp only [if_pos typed, Bool.false_eq_true, false_and, if_false,
        writes.letter used]
      split
      · rw [handled.writes.quiet.setSlockstate]
        exact handled
      · exact handled

/-- A keycode in the modes in which the driver starts. -/
theorem Quiet.handleKeycode (quiet : Quiet kbd) (key : Nat) (up : Bool) :
    kbd.handleKeycode false key up =
      { kbd with
        keyDown := Function.update kbd.keyDown key (!up)
        rep := !up && kbd.keyDown key }.useKeymap false key
          (up && (kbd.keyDown key || kbdUnexpectedUp key)) := by
  have cooked : decide (kbd.kbdmode = .mediumraw) = false := by
    rw [quiet.kbdmode]
    rfl
  have repeats : kbd.modeflags.getLsbD vcRepeat = true :=
    quiet.modes.2.2.1
  simp only [Keyboard.handleKeycode, cooked, Keyboard.vcKbdMode, repeats,
    Bool.false_eq_true, if_false, not_true_eq_false, and_false, Bool.or_false]

theorem Counted.press {held : Nat → Bool} (counted : Counted kbd held)
    (keyDown : Nat → Bool) (rep : Bool) :
    Counted { kbd with keyDown := keyDown, rep := rep } held :=
  ⟨counted.kDown, counted.shiftState⟩

theorem Writes.press (writes : Writes kbd t) (keyDown : Nat → Bool)
    (rep : Bool) : Writes { kbd with keyDown := keyDown, rep := rep } t :=
  ⟨⟨writes.quiet.diacr, writes.quiet.deadKeyNext, writes.quiet.lockstate,
    writes.quiet.slockstate, writes.quiet.kbdmode, writes.quiet.modeflags⟩,
    writes.npadch, writes.pad, writes.leds, writes.stopped, writes.sent,
    writes.short, writes.prev⟩

/-- The driver does what the typewriter does. -/
theorem Agrees.handleKeycode (agrees : Agrees kbd t) {event : KeyEvent}
    (ordinary : t.Ordinary event) :
    Agrees (kbd.handleKeycode false event.keycode event.up)
      (t.step event) := by
  rw [agrees.writes.quiet.handleKeycode, agrees.keyDown]
  exact Agrees.useKeymap (agrees.counted.press _ _) (agrees.writes.press _ _)
    ordinary rfl rfl

/-! ## Scancodes -/

theorem Agrees.setPrev (agrees : Agrees kbd t) (prev : Nat) :
    Agrees { kbd with prevScancode := prev } { t with prev := prev } := by
  obtain ⟨keyDown, ⟨kDown, shiftState⟩, writes⟩ := agrees
  obtain ⟨quiet, npadch, pad, leds, stopped, sent, short, -⟩ := writes
  exact ⟨keyDown, ⟨kDown, shiftState⟩, ⟨⟨quiet.diacr, quiet.deadKeyNext,
    quiet.lockstate, quiet.slockstate, quiet.kbdmode, quiet.modeflags⟩,
    npadch, pad, leds, stopped, sent, short, rfl⟩⟩

/-- `do_scancode` is the decoder and the typewriter. -/
theorem Agrees.doScancode (agrees : Agrees kbd t) {scancode : Nat}
    (ordinary : t.OrdinaryByte scancode) :
    Agrees (kbd.doScancode scancode) (t.byte scancode) := by
  by_cases dropped : scancode = 0 ∨ scancode = 0xff
  · have kept : ¬ (scancode ≠ 0 ∧ scancode ≠ 0xff) := by omega
    simp only [Keyboard.doScancode, if_neg kept, Typewriter.byte,
      decodeScancode, if_pos dropped, Option.elim_none]
    exact agrees
  · have kept : scancode ≠ 0 ∧ scancode ≠ 0xff := by omega
    have cooked : decide (kbd.kbdmode = .raw) = false := by
      rw [agrees.writes.quiet.kbdmode]
      rfl
    unfold Typewriter.OrdinaryByte at ordinary
    simp only [decodeScancode, if_neg dropped] at ordinary
    simp only [Keyboard.doScancode, if_pos kept, Typewriter.byte,
      decodeScancode, if_neg dropped, Keyboard.handleScancode, cooked,
      Bool.false_eq_true, if_false, agrees.writes.prev]
    have moved := agrees.setPrev (kbdTranslate t.prev scancode).1
    cases decoded : (kbdTranslate t.prev scancode).2 with
    | none => exact moved
    | some keycode =>
        exact Agrees.handleKeycode moved
          (ordinary ⟨keycode, isUp scancode⟩ (by rw [decoded]; rfl))

end Nebulea
