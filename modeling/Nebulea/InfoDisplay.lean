import Nebulea.FormatSinks
import Nebulea.KernelStep

/-!
# `info.c` and the clock of `time.c`

At every tick the first rows of the screen are drawn again: the time since the
start, the process table, the queue table and two lists of processes.  Each
row has a title that is written once, and shows its entries as far as whole
entries fit.
-/

namespace Nebulea

/-- `PROCESS_TABLE_TITLE_SIZE`. -/
def processTableTitleSize : Nat := 16

/-- `QUEUE_TABLE_TITLE_SIZE`. -/
def queueTableTitleSize : Nat := 14

/-- `ACTIVABLE_TITLE_SIZE`. -/
def activableTitleSize : Nat := 19

/-- `FINISHED_TITLE_SIZE`. -/
def finishedTitleSize : Nat := 17

/-- `state_to_string`, which does not know the last state. -/
def stateToString : State → Chars
  | .elected => cString "ELECTED"
  | .activable => cString "ACTIVABLE"
  | .asleep => cString "ASLEEP"
  | .zombie => cString "ZOMBIE"
  | .finished => cString "FINISHED"
  | .waitingPid => cString "WAITING_PID"
  | .inMsgqueue => cString "IN_MSGQUEUE"
  | .inSem => []

/-- The bytes of a string constant. -/
def constant (text : String) (i : Nat) : BitVec 8 :=
  (cString text).getD i 0

namespace Screen

/-- `write_info`. -/
def writeInfo (screen : Screen) (line shift : Nat) (string : Nat → BitVec 8)
    (len : Nat) : Screen :=
  if (len : Int) ≤ 80 - shift then
    (List.range len).foldl
      (fun screen i => screen.writeCar line ((shift + i) % 0x100) (string i)
        screen.foregroundColor screen.backgroundColor)
      screen
  else screen

/-- `write_info_titles`. -/
def writeInfoTitles (screen : Screen) : Screen :=
  let screen := screen.writeInfo 1 0 (constant "Process table : ")
    processTableTitleSize
  let screen := screen.writeInfo 2 0 (constant "Queue table : ")
    queueTableTitleSize
  let screen := screen.writeInfo 3 0 (constant "Activables queue : ")
    activableTitleSize
  screen.writeInfo 4 0 (constant "Finished queue : ") finishedTitleSize

/-- The body of the loops: `sprintf` to a buffer on the stack, `write_info`, and
the next position. -/
def writeEntry (stack : Nat → BitVec 8) (line : Nat) (out : Screen × Nat)
    (entry : Chars × Arguments) : Screen × Nat :=
  match vsprintf stack 0 entry.1 entry.2 with
  | (buffer, .ok len) =>
      (out.1.writeInfo line out.2 buffer len, out.2 + len)
  -- there is no entry for which `_doprnt` does not come back
  | (_, .error _) => out

/-- What the functions that draw a row do with its entries. -/
def writeRow (stack : Nat → BitVec 8) (line title : Nat)
    (entries : List (Chars × Arguments)) (screen : Screen) : Screen :=
  let screen := (List.range nbColumns).foldl
    (fun screen i => screen.writeCar line ((title + i) % 0x100) 32 15 0) screen
  (entries.foldl (writeEntry stack line) (screen, title)).1

/-- `write_time`. -/
def writeTime (screen : Screen) (s : Nat → BitVec 8) (len : Nat) : Screen :=
  if len ≤ 80 then
    (List.range (len - 1)).foldl
      (fun screen i => screen.writeCar 0 (79 - i) (s (len - 2 - i))
        screen.foregroundColor screen.backgroundColor)
      screen
  else screen

end Screen

/-- The arguments for `"%d "`. -/
def numberArguments (n : Int) : Arguments where
  word _ := BitVec.ofInt 32 n
  string _ := []

/-- The arguments for `"%d:%s "`, the string being at address 1. -/
def stateArguments (n : Nat) (state : State) : Arguments where
  word i := if i = 0 then BitVec.ofNat 32 n else 1
  string _ := stateToString state

/-- The entries of `write_process_table`; zombies are not shown. -/
def processEntries (s : KState) : List (Chars × Arguments) :=
  (List.range nbProc).filterMap fun (i : Nat) => do
    let r ← s.processTable i
    let p ← s.procs r
    if p.state = .zombie then none
    else some (cString "%d:%s ", stateArguments i p.state)

/-- The entries of `write_queue_table`. -/
def queueEntries (s : KState) : List (Chars × Arguments) :=
  (List.range nbQueue).filterMap fun (i : Nat) => do
    let q ← s.queueTable i
    let queue ← s.queues q
    some (cString "%d ", numberArguments queue.fid)

/-- The entries of `write_activable` and `write_finished`. -/
def listEntries (s : KState) (h : Head) : List (Chars × Arguments) :=
  (s.lists h).filterMap fun r => do
    let p ← s.procs r
    some (cString "%d ", numberArguments p.pid)

/-- `write_process_table`. -/
def writeProcessTable (stack : Nat → BitVec 8) (s : KState)
    (screen : Screen) : Screen :=
  screen.writeRow stack 1 processTableTitleSize (processEntries s)

/-- `write_queue_table`. -/
def writeQueueTable (stack : Nat → BitVec 8) (s : KState) (screen : Screen) :
    Screen :=
  screen.writeRow stack 2 queueTableTitleSize (queueEntries s)

/-- `write_activable`. -/
def writeActivable (stack : Nat → BitVec 8) (s : KState) (screen : Screen) :
    Screen :=
  screen.writeRow stack 3 activableTitleSize (listEntries s .activable)

/-- `write_finished`. -/
def writeFinished (stack : Nat → BitVec 8) (s : KState) (screen : Screen) :
    Screen :=
  screen.writeRow stack 4 finishedTitleSize (listEntries s .finished)

/-- `clock_frequency`, once `set_clock_frequency(200)` has been called. -/
def clockFrequency : Nat := 200

/-- `h`, `m` and `s`, which are 8 bits wide. -/
structure Clock where
  h : Nat
  m : Nat
  s : Nat
  deriving DecidableEq, Repr

/-- The update of the clock in `tic_PIT`. -/
def Clock.update (clock : Clock) (timeCount : Nat) : Clock :=
  if timeCount % clockFrequency = 0 then
    { h := (timeCount / clockFrequency) / 3600 % 0x100
      m := ((timeCount / clockFrequency) % 3600) / 60 % 0x100
      s := ((timeCount / clockFrequency) % 3600) % 60 % 0x100 }
  else clock

/-- The six arguments of the time. -/
def Clock.arguments (clock : Clock) : Arguments where
  word i := BitVec.ofNat 32 <|
    [clock.h / 10, clock.h % 10, clock.m / 10, clock.m % 10, clock.s / 10,
      clock.s % 10].getD i 0
  string _ := []

/-- What `tic_PIT` draws, with the clock updated: the time, and the tables and
lists before the scheduler runs. -/
def drawTick (stack : Nat → BitVec 8) (s : KState) (clock : Clock)
    (screen : Screen) : Screen :=
  let string := (vsprintf stack 0 (cString "%d%d:%d%d:%d%d") clock.arguments).1
  let screen := screen.writeTime string 10
  let screen := writeProcessTable stack s screen
  let screen := writeQueueTable stack s screen
  let screen := writeActivable stack s screen
  writeFinished stack s screen

/-! ## Painting cells -/

namespace Screen

/-- Only the video memory differs. -/
structure SameVariables (first screen : Screen) : Prop where
  lig : screen.currentLig = first.currentLig
  col : screen.currentCol = first.currentCol
  background : screen.backgroundColor = first.backgroundColor
  foreground : screen.foregroundColor = first.foregroundColor
  ports : screen.ports = first.ports

/-- The columns of an area in one row have a new content. -/
structure Paints (first screen : Screen) (line : Nat) (area : Nat → Prop)
    (content : Nat → Nat) : Prop where
  same : first.SameVariables screen
  inside : ∀ col < 80, area col → screen.cell line col = content col
  outside : ∀ row, ∀ col < 80, ¬ (row = line ∧ area col) →
    screen.cell row col = first.cell row col

section Painting

variable {first screen middle last : Screen} {line : Nat}
  {area area' : Nat → Prop} {content content' : Nat → Nat}

theorem SameVariables.refl (screen : Screen) : screen.SameVariables screen :=
  ⟨rfl, rfl, rfl, rfl, rfl⟩

theorem SameVariables.trans (front : first.SameVariables middle)
    (back : middle.SameVariables last) : first.SameVariables last :=
  ⟨back.lig.trans front.lig, back.col.trans front.col,
    back.background.trans front.background,
    back.foreground.trans front.foreground, back.ports.trans front.ports⟩

theorem sameVariables_writeCar (screen : Screen) (lig col : Nat)
    (c : BitVec 8) (fg bg : Nat) :
    screen.SameVariables (screen.writeCar lig col c fg bg) := by
  unfold writeCar
  split <;> exact ⟨rfl, rfl, rfl, rfl, rfl⟩

theorem SameVariables.glyph (same : first.SameVariables screen)
    (c : BitVec 8) : screen.glyph c = first.glyph c := by
  rw [Screen.glyph, Screen.glyph, same.foreground, same.background]

theorem Paints.nothing (screen : Screen) (line : Nat) (content : Nat → Nat) :
    screen.Paints screen line (fun _ => False) content where
  same := .refl screen
  inside _ _ isArea := isArea.elim
  outside _ _ _ _ := rfl

theorem Paints.congr (paints : first.Paints screen line area content)
    (sameArea : ∀ col < 80, area col ↔ area' col)
    (sameContent : ∀ col < 80, area' col → content col = content' col) :
    first.Paints screen line area' content' where
  same := paints.same
  inside col left isArea :=
    (paints.inside col left ((sameArea col left).mpr isArea)).trans
      (sameContent col left isArea)
  outside row col left other := by
    refine paints.outside row col left ?_
    rintro ⟨isLine, isArea⟩
    exact other ⟨isLine, (sameArea col left).mp isArea⟩

theorem paints_writeCar (screen : Screen) {line : Nat} (col : Nat)
    (c : BitVec 8) (fg bg : Nat) (low : line < 25) :
    screen.Paints (screen.writeCar line col c fg bg) line (· = col)
      (fun _ => carWord c fg bg % 0x10000) where
  same := sameVariables_writeCar screen line col c fg bg
  inside col' left isCol := by
    subst isCol
    rw [cell_writeCar c fg bg low left left, if_pos ⟨rfl, rfl⟩]
  outside row' col' left other := by
    by_cases valid : col < 80
    · rw [cell_writeCar c fg bg low valid left, if_neg other]
    · rw [writeCar, if_pos (.inr (by unfold nbColumns; omega))]

/-- A loop that writes one character a turn. -/
theorem paints_loop (first : Screen) (body : Screen → Nat → Screen)
    (place : Nat → Nat) (c : Nat → BitVec 8) (fg bg : Nat)
    (content : Nat → Nat) (n : Nat) (low : line < 25)
    (writes : ∀ i < n, ∀ now, first.SameVariables now →
      body now i = now.writeCar line (place i) (c i) fg bg)
    (agree : ∀ i < n, content (place i) = carWord (c i) fg bg % 0x10000) :
    first.Paints ((List.range n).foldl body first) line
      (fun col => ∃ i < n, place i = col) content := by
  induction n with
  | zero =>
      refine (Paints.nothing first line content).congr ?_ fun _ _ isArea => ?_
      · simp
      · obtain ⟨i, before, -⟩ := isArea
        omega
  | succ n ih =>
      have before := ih (fun i less => writes i (Nat.lt_succ_of_lt less))
        (fun i less => agree i (Nat.lt_succ_of_lt less))
      rw [List.range_succ, List.foldl_append]
      simp only [List.foldl_cons, List.foldl_nil]
      rw [writes n (Nat.lt_succ_self n) _ before.same]
      generalize (List.range n).foldl body first = now at before
      have step := paints_writeCar now (place n) (c n) fg bg low
      refine ⟨before.same.trans step.same, ?_, ?_⟩
      · rintro col left ⟨i, less, isCol⟩
        by_cases isLast : place n = col
        · subst isLast
          rw [step.inside _ left rfl, agree n (Nat.lt_succ_self n)]
        · rw [step.outside line col left fun both => isLast both.2.symm]
          have earlier : i < n := by
            rcases Nat.lt_succ_iff_lt_or_eq.mp less with earlier | rfl
            · exact earlier
            · exact absurd isCol isLast
          exact before.inside col left ⟨i, earlier, isCol⟩
      · intro row col left other
        rw [step.outside row col left ?_, before.outside row col left ?_]
        · rintro ⟨isLine, i, less, isCol⟩
          exact other ⟨isLine, i, Nat.lt_succ_of_lt less, isCol⟩
        · rintro ⟨isLine, isCol⟩
          exact other ⟨isLine, n, Nat.lt_succ_self n, isCol.symm⟩

/-- `write_info` shows a string that fits. -/
theorem paints_writeInfo (screen : Screen) (line shift : Nat)
    (string : Nat → BitVec 8) (len : Nat) (low : line < 25)
    (fits : shift + len ≤ 80) :
    screen.Paints (screen.writeInfo line shift string len) line
      (fun col => shift ≤ col ∧ col < shift + len)
      (fun col => screen.glyph (string (col - shift))) := by
  have room : (len : Int) ≤ 80 - shift := by omega
  rw [writeInfo, if_pos room]
  refine (paints_loop screen _ (fun i => (shift + i) % 0x100) string
    screen.foregroundColor screen.backgroundColor
    (fun col => screen.glyph (string (col - shift))) len low ?_ ?_).congr ?_ fun _ _ _ => rfl
  · intro i _ now same
    rw [same.foreground, same.background]
  · intro i less
    rw [Nat.mod_eq_of_lt (by omega), Nat.add_sub_cancel_left, Screen.glyph]
  · intro col left
    constructor
    · rintro ⟨i, less, rfl⟩
      rw [Nat.mod_eq_of_lt (by omega)]
      omega
    · rintro ⟨low, high⟩
      exact ⟨col - shift, by omega, by rw [Nat.mod_eq_of_lt (by omega)]; omega⟩

/-- `write_info` shows nothing of a string that does not fit. -/
theorem writeInfo_full (screen : Screen) {line shift : Nat}
    (string : Nat → BitVec 8) {len : Nat} (full : 80 < shift + len) :
    screen.writeInfo line shift string len = screen := by
  rw [writeInfo, if_neg (by omega)]

/-- The time is at the end of the first row. -/
theorem paints_writeTime (screen : Screen) (s : Nat → BitVec 8) :
    screen.Paints (screen.writeTime s 10) 0 (fun col => 71 ≤ col)
      (fun col => screen.glyph (s (col - 71))) := by
  rw [writeTime, if_pos (by decide)]
  refine (paints_loop screen _ (fun i => 79 - i) (fun i => s (10 - 2 - i))
    screen.foregroundColor screen.backgroundColor
    (fun col => screen.glyph (s (col - 71))) (10 - 1) (by decide)
    ?_ ?_).congr ?_ fun _ _ _ => rfl
  · intro i _ now same
    rw [same.foreground, same.background]
  · intro i less
    have place : 79 - i - 71 = 10 - 2 - i := by omega
    rw [place, Screen.glyph]
  · intro col left
    constructor
    · rintro ⟨i, less, rfl⟩
      omega
    · intro high
      exact ⟨79 - col, by omega, by omega⟩

end Painting

end Screen

end Nebulea
