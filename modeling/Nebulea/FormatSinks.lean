import Nebulea.FormatRuns
import Nebulea.ScreenTerminal
import Mathlib.Data.List.GetD
import Mathlib.Logic.Function.Basic

/-!
# `printf.c` and `sprintf.c`

`printf` collects characters in a buffer and hands them to the console in
pieces; on the screen the pieces are as good as the characters one by one.
`sprintf` stores the characters, and a zero after the last of them, also when
that one has filled the buffer.
-/

namespace Nebulea

/-! ## Printing to the console -/

/-- `PRINTF_BUFMAX`. -/
def printfBufmax : Nat := 128

/-- `struct printf_state`. -/
structure PrintfState where
  buf : Nat → BitVec 8
  index : Nat

/-- `flush`. -/
def flush (screen : Screen) (state : PrintfState) : Screen × PrintfState :=
  (screen.consolePutbytes state.buf state.index, { state with index := 0 })

/-- `printf_char`. -/
def printfChar (out : Screen × PrintfState) (c : BitVec 8) :
    Screen × PrintfState :=
  let (screen, state) := out
  if c = 0 ∨ c = 10 ∨ state.index ≥ printfBufmax then
    let (screen, state) := flush screen state
    let state := { state with buf := Function.update state.buf 0 c }
    (screen.consolePutbytes state.buf 1, state)
  else
    (screen,
      ⟨Function.update state.buf state.index c, state.index + 1⟩)

/-- `vprintf`, on a stack that leaves some bytes in the buffer.  When
`_doprnt` does not come back, neither does `vprintf`. -/
def vprintf (screen : Screen) (stack : Nat → BitVec 8) (fmt : Chars)
    (args : Arguments) : Screen × Option FormatFault :=
  let printed := doprnt fmt args 0
  let (screen, state) := printed.text.foldl printfChar (screen, ⟨stack, 0⟩)
  if printed.fault = none ∧ state.index ≠ 0 then
    ((flush screen state).1, none)
  else (screen, printed.fault)

/-- The characters in the buffer. -/
def PrintfState.held (state : PrintfState) : Chars :=
  (List.range state.index).map state.buf

theorem consolePutbytes_eq (screen : Screen) (s : Nat → BitVec 8) (n : Nat) :
    screen.consolePutbytes s n =
      ((List.range n).map s).foldl Screen.handleCar screen := by
  rw [List.foldl_map]
  rfl

/-- All characters so far have been shown, but for those in the buffer. -/
structure Holds (first : Screen) (text : Chars)
    (out : Screen × PrintfState) : Prop where
  room : out.2.index ≤ printfBufmax
  shown : ∃ shown, text = shown ++ out.2.held ∧
    out.1 = shown.foldl Screen.handleCar first

theorem Holds.start (first : Screen) (stack : Nat → BitVec 8) :
    Holds first [] (first, ⟨stack, 0⟩) where
  room := Nat.zero_le _
  shown := ⟨[], rfl, rfl⟩

theorem Holds.flush {first : Screen} {text : Chars}
    {out : Screen × PrintfState} (holds : Holds first text out) :
    (flush out.1 out.2).1 = text.foldl Screen.handleCar first := by
  obtain ⟨shown, whole, isShown⟩ := holds.shown
  rw [whole, List.foldl_append, ← isShown]
  exact consolePutbytes_eq _ _ _

theorem Holds.char {first : Screen} {text : Chars}
    {out : Screen × PrintfState} (holds : Holds first text out)
    (c : BitVec 8) : Holds first (text ++ [c]) (printfChar out c) := by
  obtain ⟨screen, state⟩ := out
  have room := holds.room
  simp only at room
  by_cases goes : c = 0 ∨ c = 10 ∨ state.index ≥ printfBufmax
  · have isChar : printfChar (screen, state) c =
        ((Nebulea.flush screen state).1.handleCar c,
          ⟨Function.update state.buf 0 c, 0⟩) := by
      simp only [printfChar, if_pos goes, Nebulea.flush]
      refine Prod.ext ?_ rfl
      refine (consolePutbytes_eq _ _ 1).trans ?_
      simp
    rw [isChar]
    refine ⟨Nat.zero_le _, text ++ [c], by simp [PrintfState.held], ?_⟩
    simp [holds.flush]
  · have isChar : printfChar (screen, state) c =
        (screen, ⟨Function.update state.buf state.index c,
          state.index + 1⟩) := by
      simp only [printfChar, if_neg goes]
    obtain ⟨shown, whole, isShown⟩ := holds.shown
    rw [isChar]
    refine ⟨by simp only; omega, shown, ?_, isShown⟩
    have before : (List.range state.index).map
        (Function.update state.buf state.index c) =
          (List.range state.index).map state.buf := by
      refine List.map_congr_left fun i member => ?_
      exact Function.update_of_ne (List.mem_range.mp member).ne _ _
    rw [whole, PrintfState.held, PrintfState.held, List.range_succ,
      List.map_append, before]
    simp

theorem Holds.text {first : Screen} {text : Chars}
    {out : Screen × PrintfState} (holds : Holds first text out)
    (more : Chars) :
    Holds first (text ++ more) (more.foldl printfChar out) := by
  induction more generalizing text out with
  | nil => simpa using holds
  | cons c more ih => simpa using ih (holds.char c)

/-- `printf` shows what it prints, character by character and to the last one.
If it does not come back, the characters in the buffer are lost. -/
theorem vprintf_shows (screen : Screen) (stack : Nat → BitVec 8)
    (fmt : Chars) (args : Arguments) :
    ∃ shown lost, (doprnt fmt args 0).text = shown ++ lost ∧
      vprintf screen stack fmt args =
        (shown.foldl Screen.handleCar screen, (doprnt fmt args 0).fault) ∧
      lost.length ≤ 128 ∧ ((doprnt fmt args 0).fault = none → lost = []) := by
  have holds := (Holds.start screen stack).text (doprnt fmt args 0).text
  rw [List.nil_append] at holds
  generalize isOut : (doprnt fmt args 0).text.foldl printfChar
    (screen, ⟨stack, 0⟩) = out at holds
  obtain ⟨now, state⟩ := out
  have room := holds.room
  have flushed := holds.flush
  obtain ⟨shown, whole, isShown⟩ := holds.shown
  simp only [vprintf, isOut]
  simp only [printfBufmax] at room flushed whole isShown
  by_cases last : (doprnt fmt args 0).fault = none ∧ state.index ≠ 0
  · refine ⟨(doprnt fmt args 0).text, [], by simp, ?_, by simp, by simp⟩
    rw [if_pos last, flushed, last.1]
  · refine ⟨shown, state.held, whole, by rw [if_neg last, isShown], ?_, ?_⟩
    · simpa only [PrintfState.held, List.length_map, List.length_range]
        using room
    · intro noFault
      have nothing : state.index = 0 := by
        by_contra some
        exact last ⟨noFault, some⟩
      simp [PrintfState.held, nothing]

/-! ## Printing to memory -/

/-- `SPRINTF_UNLIMITED`: one digit short of the largest word. -/
def sprintfUnlimited : Nat := 0xFFFFFFF

/-- `struct sprintf_state`. -/
structure SprintfState where
  buf : Nat
  len : Nat
  max : Nat

/-- `savechar`. -/
def savechar (out : (Nat → BitVec 8) × SprintfState) (c : BitVec 8) :
    (Nat → BitVec 8) × SprintfState :=
  let (memory, state) := out
  if state.max ≠ sprintfUnlimited ∧ state.len = state.max then out
  else
    (Function.update memory state.buf c,
      { state with
        buf := (state.buf + 1) % 2 ^ 32
        len := (state.len + 1) % 2 ^ 32 })

/-- `vsnprintf`: the memory, and what is returned. -/
def vsnprintf (memory : Nat → BitVec 8) (s size : Nat) (fmt : Chars)
    (args : Arguments) : (Nat → BitVec 8) × Except FormatFault Nat :=
  let printed := doprnt fmt args 0
  let (memory, state) := printed.text.foldl savechar (memory, ⟨s, 0, size⟩)
  match printed.fault with
  | some fault => (memory, .error fault)
  | none => (Function.update memory state.buf 0, .ok state.len)

/-- `vsprintf`. -/
def vsprintf (memory : Nat → BitVec 8) (s : Nat) (fmt : Chars)
    (args : Arguments) : (Nat → BitVec 8) × Except FormatFault Nat :=
  vsnprintf memory s sprintfUnlimited fmt args

/-- The number of characters that are stored. -/
def stored (size : Nat) (text : Chars) : Nat :=
  if size = sprintfUnlimited then text.length else min size text.length

/-- The first characters of the text are in memory. -/
structure Saves (first : Nat → BitVec 8) (s size : Nat) (text : Chars)
    (out : (Nat → BitVec 8) × SprintfState) : Prop where
  max : out.2.max = size
  len : out.2.len = stored size text
  buf : out.2.buf = s + stored size text
  saved : ∀ i < stored size text, out.1 (s + i) = text.getD i 0
  frame : ∀ a, a < s ∨ s + stored size text ≤ a → out.1 a = first a

theorem Saves.start (first : Nat → BitVec 8) (s size : Nat) :
    Saves first s size [] (first, ⟨s, 0, size⟩) := by
  have none : stored size [] = 0 := by simp [stored]
  refine ⟨rfl, ?_, ?_, ?_, fun _ _ => rfl⟩
  · rw [none]
  · rw [none, Nat.add_zero]
  · rw [none]
    intro i before
    omega

theorem Saves.char {first : Nat → BitVec 8} {s size : Nat} {text : Chars}
    {out : (Nat → BitVec 8) × SprintfState}
    (saves : Saves first s size text out) (c : BitVec 8)
    (fits : s + (text.length + 1) < 2 ^ 32) :
    Saves first s size (text ++ [c]) (savechar out c) := by
  obtain ⟨memory, buf, len, max⟩ := out
  obtain ⟨isMax, isLen, isBuf, saved, frame⟩ := saves
  simp only at isMax isLen isBuf saved frame
  subst isMax isLen isBuf
  have inside : stored max text ≤ text.length := by
    unfold stored
    split <;> omega
  have prefixSame (i : Nat) (before : i < stored max text) :
      (text ++ [c]).getD i 0 = text.getD i 0 := by
    rw [List.getD_append _ _ _ _ (by omega)]
  by_cases full : max ≠ sprintfUnlimited ∧ stored max text = max
  · have same : stored max (text ++ [c]) = stored max text := by
      have all := full.2
      unfold stored at all ⊢
      rw [if_neg full.1] at all ⊢
      rw [if_neg full.1, List.length_append, List.length_singleton]
      omega
    simp only [savechar, if_pos full]
    refine ⟨rfl, same.symm, by rw [same], ?_, ?_⟩
    · intro i before
      rw [same] at before
      rw [prefixSame i before]
      exact saved i before
    · rwa [same]
  · have all : stored max text = text.length := by
      unfold stored at full ⊢
      split
      · rfl
      · rename_i limited
        rw [if_neg limited] at full
        have below : min max text.length ≠ max := fun e => full ⟨limited, e⟩
        omega
    have more : stored max (text ++ [c]) = text.length + 1 := by
      unfold stored at all ⊢
      rw [List.length_append, List.length_singleton]
      split
      · rfl
      · rename_i limited
        rw [if_neg limited] at all
        unfold stored at full
        rw [if_neg limited] at full
        have below : min max text.length ≠ max := fun e => full ⟨limited, e⟩
        omega
    simp only [savechar, if_neg full]
    rw [all] at saved frame ⊢
    refine ⟨rfl, ?_, ?_, ?_, ?_⟩
    · rw [more]
      exact Nat.mod_eq_of_lt (by omega)
    · rw [more]
      exact Nat.mod_eq_of_lt (by omega)
    · intro i before
      rw [more] at before
      by_cases last : i = text.length
      · subst last
        simp
      · simp only
        rw [Function.update_of_ne (by omega), saved i (by omega),
          prefixSame i (by omega)]
    · intro a outside
      rw [more] at outside
      simp only
      rw [Function.update_of_ne (by omega)]
      exact frame a (by omega)

theorem Saves.text {first : Nat → BitVec 8} {s size : Nat} {text : Chars}
    {out : (Nat → BitVec 8) × SprintfState}
    (saves : Saves first s size text out) (more : Chars)
    (fits : s + (text.length + more.length) < 2 ^ 32) :
    Saves first s size (text ++ more) (more.foldl savechar out) := by
  induction more generalizing text out with
  | nil => simpa using saves
  | cons c more ih =>
      rw [List.length_cons] at fits
      have next := ih (saves.char c (by omega))
        (by rw [List.length_append, List.length_singleton]; omega)
      simpa using next

/-- The memory when `_doprnt` comes back, before the zero is stored. -/
theorem vsnprintf_saves (memory : Nat → BitVec 8) (s size : Nat)
    (fmt : Chars) (args : Arguments)
    (returns : (doprnt fmt args 0).fault = none)
    (fits : s + (doprnt fmt args 0).text.length < 2 ^ 32) :
    ∃ now state, Saves memory s size (doprnt fmt args 0).text (now, state) ∧
      vsnprintf memory s size fmt args =
        (Function.update now (s + stored size (doprnt fmt args 0).text) 0,
          .ok (stored size (doprnt fmt args 0).text)) := by
  have saves := (Saves.start memory s size).text (doprnt fmt args 0).text
    (by simpa using fits)
  rw [List.nil_append] at saves
  generalize isOut : (doprnt fmt args 0).text.foldl savechar
    (memory, ⟨s, 0, size⟩) = out at saves
  obtain ⟨now, state⟩ := out
  have isLen := saves.len
  have isBuf := saves.buf
  simp only at isLen isBuf
  refine ⟨now, state, saves, ?_⟩
  simp only [vsnprintf, isOut, returns, isLen, isBuf]

/-- `sprintf` stores the text and returns its length. -/
theorem vsprintf_text (memory : Nat → BitVec 8) (s : Nat) (fmt : Chars)
    (args : Arguments) (returns : (doprnt fmt args 0).fault = none)
    (fits : s + (doprnt fmt args 0).text.length < 2 ^ 32) :
    ∃ after,
      vsprintf memory s fmt args =
        (after, .ok (doprnt fmt args 0).text.length) ∧
      after (s + (doprnt fmt args 0).text.length) = 0 ∧
      ∀ i < (doprnt fmt args 0).text.length,
        after (s + i) = (doprnt fmt args 0).text.getD i 0 := by
  obtain ⟨now, state, saves, result⟩ :=
    vsnprintf_saves memory s sprintfUnlimited fmt args returns fits
  have all : stored sprintfUnlimited (doprnt fmt args 0).text =
      (doprnt fmt args 0).text.length := if_pos rfl
  have saved := saves.saved
  rw [all] at saved result
  refine ⟨_, result, Function.update_self _ _ _, fun i before => ?_⟩
  rw [Function.update_of_ne (by omega)]
  exact saved i before

/-- What `snprintf` stores: as many characters as the size allows, or all if it
is the one that means no limit, and then a zero.  So it stores one byte more
than the size when the text is not shorter, and it returns what it stored. -/
theorem vsnprintf_stores (memory : Nat → BitVec 8) (s size : Nat)
    (fmt : Chars) (args : Arguments)
    (returns : (doprnt fmt args 0).fault = none)
    (fits : s + (doprnt fmt args 0).text.length < 2 ^ 32) :
    ∃ after,
      vsnprintf memory s size fmt args =
        (after, .ok (stored size (doprnt fmt args 0).text)) ∧
      (∀ i < stored size (doprnt fmt args 0).text,
        after (s + i) = (doprnt fmt args 0).text.getD i 0) ∧
      after (s + stored size (doprnt fmt args 0).text) = 0 ∧
      ∀ a, a < s ∨ s + stored size (doprnt fmt args 0).text < a →
        after a = memory a := by
  obtain ⟨now, state, saves, result⟩ :=
    vsnprintf_saves memory s size fmt args returns fits
  refine ⟨_, result, ?_, Function.update_self _ _ _, ?_⟩
  · intro i before
    rw [Function.update_of_ne (by omega)]
    exact saves.saved i before
  · intro a outside
    rw [Function.update_of_ne (by omega)]
    exact saves.frame a (by omega)

/-- Three characters of six at address 100, and a zero at 103. -/
theorem vsnprintf_stores_three :
    ∃ after,
      vsnprintf (fun _ => 1) 100 3 (cString "ab%d!") ⟨fun _ => 417, fun _ => []⟩ =
        (after, .ok 3) ∧
      after 103 = 0 ∧ after 104 = 1 := by
  have text : doprnt (cString "ab%d!") ⟨fun _ => 417, fun _ => []⟩ 0 =
      ⟨cString "ab417!", none⟩ := by decide
  obtain ⟨after, isStored, -, zero, frame⟩ :=
    vsnprintf_stores (fun _ => 1) 100 3 (cString "ab%d!")
      ⟨fun _ => 417, fun _ => []⟩ (by rw [text]) (by rw [text]; decide)
  have three : stored 3 (cString "ab417!") = 3 := by decide
  rw [text] at isStored zero frame
  rw [three] at isStored zero frame
  exact ⟨after, isStored, zero, frame 104 (by decide)⟩

end Nebulea
