import Nebulea.Screen
import Nebulea.UnboundedTerminal

/-!
# The console is a window on a terminal

The rows of the console are the window of a terminal of unbounded height that
is fed the same bytes: scrolling moves the window down.
-/

namespace Nebulea

namespace Screen

/-- How a character looks in the colours of the screen. -/
def glyph (screen : Screen) (c : BitVec 8) : Nat :=
  carWord c screen.foregroundColor screen.backgroundColor % 0x10000

/-- The terminal with the rows and the cursor of the screen, and spaces below
them. -/
def reference (screen : Screen) : Terminal Nat where
  rows row col := if row < 25 then screen.cell row col else blank
  row := screen.currentLig
  col := screen.currentCol
  top := 6

/-- The variables of the screen besides the cursor are those of `first`. -/
structure SameColors (first screen : Screen) : Prop where
  foreground : screen.foregroundColor = first.foregroundColor
  background : screen.backgroundColor = first.backgroundColor

/-- The screen shows the window of the terminal below the first rows of
`first`. -/
structure Shows (first screen : Screen) (t : Terminal Nat) : Prop where
  colors : first.SameColors screen
  high : 6 ≤ screen.currentLig
  low : screen.currentLig < 25
  left : screen.currentCol < 80
  row : t.row + 6 = t.top + screen.currentLig
  col : t.col = screen.currentCol
  info : ∀ row < 6, ∀ col < 80, screen.cell row col = first.cell row col
  window : ∀ row < 19, ∀ col < 80,
    screen.cell (6 + row) col = t.shown row col
  below : ∀ row ≥ t.top + 19, ∀ col, t.rows row col = blank

section Fields

variable {screen : Screen} {lig col : Nat}

@[simp] theorem placeCursor_bytes :
    (screen.placeCursor lig col).bytes = screen.bytes := by
  unfold placeCursor setCursor
  split <;> rfl

@[simp] theorem placeCursor_currentLig :
    (screen.placeCursor lig col).currentLig = lig := by
  unfold placeCursor setCursor
  split <;> rfl

@[simp] theorem placeCursor_currentCol :
    (screen.placeCursor lig col).currentCol = col := by
  unfold placeCursor setCursor
  split <;> rfl

@[simp] theorem cell_placeCursor (row' col' : Nat) :
    (screen.placeCursor lig col).cell row' col' = screen.cell row' col' := by
  rw [cell, placeCursor_bytes, cell]

theorem sameColors_placeCursor :
    screen.SameColors (screen.placeCursor lig col) := by
  unfold placeCursor setCursor
  split <;> exact ⟨rfl, rfl⟩

theorem SameColors.trans {first middle last : Screen}
    (front : first.SameColors middle) (back : middle.SameColors last) :
    first.SameColors last :=
  ⟨back.foreground.trans front.foreground,
    back.background.trans front.background⟩

/-- A written character leaves the variables alone. -/
theorem writeCar_fields (c : BitVec 8) (fg bg : Nat) :
    (screen.writeCar lig col c fg bg).currentLig = screen.currentLig ∧
      (screen.writeCar lig col c fg bg).currentCol = screen.currentCol ∧
      screen.SameColors (screen.writeCar lig col c fg bg) := by
  unfold writeCar
  split <;> exact ⟨rfl, rfl, rfl, rfl⟩

theorem sameColors_scroll : screen.SameColors screen.scroll := by
  have clears (columns : List Nat) (screen : Screen) :
      screen.SameColors (columns.foldl
        (fun screen i => screen.writeCar (nbLines - 1) i 32 15 0) screen) := by
    induction columns generalizing screen with
    | nil => exact ⟨rfl, rfl⟩
    | cons i columns ih =>
        exact (writeCar_fields 32 15 0).2.2.trans (ih _)
  unfold scroll
  refine SameColors.trans ?_ (clears _ _)
  exact ⟨rfl, rfl⟩

end Fields

section Stepping

variable {first screen : Screen} {t : Terminal Nat}

/-- The cursor moves within its row. -/
theorem Shows.column (shows : Shows first screen t) {col : Nat}
    (left : col < 80) :
    Shows first (screen.placeCursor screen.currentLig col)
      { t with col := col } where
  colors := shows.colors.trans sameColors_placeCursor
  high := by simpa using shows.high
  low := by simpa using shows.low
  left := by simpa using left
  row := by simpa using shows.row
  col := by simp
  info row info col left := by simpa using shows.info row info col left
  window row inside col left := by
    simpa [Terminal.shown] using shows.window row inside col left
  below := shows.below

/-- The cursor moves to the next row of the screen. -/
theorem Shows.nextRow (shows : Shows first screen t)
    (room : screen.currentLig < 24) :
    Shows first (screen.placeCursor ((screen.currentLig + 1) % 0x100) 0)
      (t.lineFeed.slide 19) := by
  have row := shows.row
  have stays : t.lineFeed.slide 19 = t.lineFeed :=
    if_pos (show t.row + 1 < t.top + 19 by omega)
  rw [stays, Nat.mod_eq_of_lt (by omega)]
  exact {
    colors := shows.colors.trans sameColors_placeCursor
    high := by simpa using Nat.le_succ_of_le shows.high
    low := by simpa using Nat.succ_lt_succ room
    left := by simp
    row := by
      simp only [Terminal.lineFeed, placeCursor_currentLig]
      omega
    col := by simp [Terminal.lineFeed]
    info := fun row info col left => by
      simpa using shows.info row info col left
    window := fun row inside col left => by
      simpa [Terminal.shown, Terminal.lineFeed] using
        shows.window row inside col left
    below := shows.below }

/-- In the last row the screen scrolls and the window slides. -/
theorem Shows.scroll (shows : Shows first screen t)
    (last : screen.currentLig = 24) :
    Shows first (screen.scroll.placeCursor screen.currentLig 0)
      (t.lineFeed.slide 19) := by
  have row := shows.row
  have slides : t.lineFeed.slide 19 =
      { t.lineFeed with top := t.top + 1 } :=
    if_neg (show ¬ t.row + 1 < t.top + 19 by omega)
  rw [slides]
  constructor
  · exact shows.colors.trans (sameColors_scroll.trans sameColors_placeCursor)
  · simpa using shows.high
  · simpa using shows.low
  · simp
  · simp only [Terminal.lineFeed, placeCursor_currentLig]
    omega
  · simp [Terminal.lineFeed]
  · intro row info col left
    rw [cell_placeCursor, cell_scroll (by omega) left, if_neg (by omega),
      if_pos info]
    exact shows.info row info col left
  · intro row inside col left
    rw [cell_placeCursor, cell_scroll (by omega) left]
    by_cases isLast : row = 18
    · rw [if_pos (by omega)]
      exact (shows.below _ (by simp only; omega) col).symm
    · rw [if_neg (by omega), if_neg (by omega)]
      have next := shows.window (row + 1) (by omega) col left
      rw [← Nat.add_assoc] at next
      rw [next]
      simp only [Terminal.shown, Terminal.lineFeed]
      congr 1
      omega
  · intro row under col
    exact shows.below row (by simp only at under; omega) col

/-- A character is written at the cursor. -/
theorem Shows.write (shows : Shows first screen t) (c : BitVec 8) :
    Shows first (screen.writeCar screen.currentLig screen.currentCol c
        screen.foregroundColor screen.backgroundColor)
      (t.write (first.glyph c)) := by
  obtain ⟨sameLig, sameCol, sameColors⟩ :=
    screen.writeCar_fields c screen.foregroundColor screen.backgroundColor
  have row := shows.row
  have high := shows.high
  have isGlyph : carWord c screen.foregroundColor screen.backgroundColor %
      0x10000 = first.glyph c := by
    rw [shows.colors.foreground, shows.colors.background, glyph]
  constructor
  · exact shows.colors.trans sameColors
  · rw [sameLig]
    exact high
  · rw [sameLig]
    exact shows.low
  · rw [sameCol]
    exact shows.left
  · rw [sameLig]
    exact row
  · rw [sameCol]
    exact shows.col
  · intro row info col left
    rw [cell_writeCar _ _ _ shows.low shows.left left, if_neg (by omega)]
    exact shows.info row info col left
  · intro row inside col left
    rw [cell_writeCar _ _ _ shows.low shows.left left, isGlyph]
    simp only [Terminal.shown, Terminal.write]
    rw [shows.col]
    by_cases same : 6 + row = screen.currentLig ∧ col = screen.currentCol
    · rw [if_pos same, if_pos ⟨by omega, same.2⟩]
    · rw [if_neg same, if_neg fun both => same ⟨by omega, both.2⟩]
      exact shows.window row inside col left
  · intro row under col
    simp only [Terminal.write] at under ⊢
    have low := shows.low
    rw [if_neg (by omega)]
    exact shows.below row under col

/-- The cursor goes on by one character. -/
theorem Shows.advance (shows : Shows first screen t) {lig col : Nat}
    (isLig : screen.currentLig = lig) (isCol : screen.currentCol = col) :
    Shows first
      (if col = nbColumns - 1 ∧ lig ≠ nbLines - 1 then
        screen.placeCursor ((lig + 1) % 0x100) 0
      else if col = nbColumns - 1 ∧ lig = nbLines - 1 then
        screen.scroll.placeCursor lig 0
      else screen.placeCursor lig ((col + 1) % 0x100))
      ((t.advance 80).slide 19) := by
  subst isLig isCol
  have low := shows.low
  have left := shows.left
  have row := shows.row
  unfold nbColumns nbLines
  rw [Terminal.advance, shows.col]
  by_cases atEnd : screen.currentCol = 79
  · rw [if_neg (show ¬ screen.currentCol + 1 < 80 by omega)]
    by_cases last : screen.currentLig = 24
    · rw [if_neg fun both => both.2 last, if_pos ⟨atEnd, last⟩]
      exact shows.scroll last
    · rw [if_pos ⟨atEnd, last⟩]
      exact shows.nextRow (by omega)
  · have stays : Terminal.slide { t with col := screen.currentCol + 1 } 19 =
        { t with col := screen.currentCol + 1 } :=
      if_pos (show t.row < t.top + 19 by omega)
    rw [if_pos (show screen.currentCol + 1 < 80 by omega), stays,
      if_neg fun both => atEnd both.1, if_neg fun both => atEnd both.1,
      Nat.mod_eq_of_lt (by omega)]
    exact shows.column (by omega)

theorem Shows.printCar (shows : Shows first screen t) (c : BitVec 8) :
    Shows first (screen.printCar c)
      (((t.write (first.glyph c)).advance 80).slide 19) := by
  obtain ⟨sameLig, sameCol, -⟩ :=
    screen.writeCar_fields c screen.foregroundColor screen.backgroundColor
  exact (shows.write c).advance sameLig sameCol

/-- A `char` is printable when its code is. -/
theorem printable_iff (c : BitVec 8) :
    31 < c.toInt ∧ c.toInt < 127 ↔ 32 ≤ c.toNat ∧ c.toNat ≤ 126 := by
  have bound := c.isLt
  rw [BitVec.toInt_eq_toNat_cond]
  split <;> omega

/-- One byte. -/
theorem Shows.handleCar (shows : Shows first screen t) {c : BitVec 8}
    (plain : c ≠ 12) :
    Shows first (screen.handleCar c) (t.feed 80 19 4 first.glyph c) := by
  have left := shows.left
  unfold Screen.handleCar Terminal.feed
  by_cases backspace : c = 8
  · rw [if_pos backspace, if_pos backspace, shows.col]
    have same : (if screen.currentCol ≠ 0 then screen.currentCol - 1
        else screen.currentCol) = screen.currentCol - 1 := by
      split <;> omega
    rw [same]
    exact shows.column (by omega)
  rw [if_neg backspace, if_neg backspace]
  by_cases tab : c = 9
  · rw [if_pos tab, if_pos tab, Terminal.tab, shows.col]
    have clamped :
        (if (screen.currentCol - screen.currentCol % 4 + 4) % 0x100 ≥ nbColumns
          then nbColumns - 1
          else (screen.currentCol - screen.currentCol % 4 + 4) % 0x100) =
        min (screen.currentCol / 4 * 4 + 4) (80 - 1) := by
      unfold nbColumns
      split <;> omega
    rw [← clamped]
    refine shows.column ?_
    rw [clamped]
    omega
  rw [if_neg tab, if_neg tab]
  by_cases newline : c = 10
  · rw [if_pos newline, if_pos newline]
    by_cases room : screen.currentLig < 24
    · rw [nbLines, if_pos room]
      exact shows.nextRow room
    · rw [nbLines, if_neg room]
      have low := shows.low
      exact shows.scroll (by omega)
  rw [if_neg newline, if_neg newline, if_neg plain]
  by_cases carriageReturn : c = 13
  · rw [if_pos carriageReturn, if_pos carriageReturn]
    exact shows.column (by decide)
  rw [if_neg carriageReturn, if_neg carriageReturn]
  by_cases printable : 31 < c.toInt ∧ c.toInt < 127
  · rw [if_pos printable, if_pos ((printable_iff c).mp printable)]
    exact shows.printCar c
  · rw [if_neg printable, if_neg fun codes =>
      printable ((printable_iff c).mpr codes)]
    exact shows

end Stepping

/-! ## All byte strings -/

/-- The start of a run. -/
theorem shows_reference {screen : Screen} (high : 6 ≤ screen.currentLig)
    (low : screen.currentLig ≤ 24) (left : screen.currentCol ≤ 79) :
    Shows screen screen screen.reference where
  colors := ⟨rfl, rfl⟩
  high := high
  low := Nat.lt_succ_of_le low
  left := Nat.lt_succ_of_le left
  row := Nat.add_comm _ _
  col := rfl
  info _ _ _ _ := rfl
  window row inside col left :=
    (if_pos (show 6 + row < 25 by omega)).symm
  below row under col :=
    if_neg (show ¬ row < 25 by simp only [reference] at under; omega)

/-- The terminal after the first bytes of `s`. -/
def feedAll (screen : Screen) (s : Nat → BitVec 8) (n : Nat) : Terminal Nat :=
  ((List.range n).map s).foldl (Terminal.feed 80 19 4 screen.glyph)
    screen.reference

theorem shows_consolePutbytes {screen : Screen} (high : 6 ≤ screen.currentLig)
    (low : screen.currentLig ≤ 24) (left : screen.currentCol ≤ 79)
    {s : Nat → BitVec 8} {n : Nat} (plain : ∀ i < n, s i ≠ 12) :
    Shows screen (screen.consolePutbytes s n) (screen.feedAll s n) := by
  unfold consolePutbytes feedAll
  rw [Int.toNat_natCast]
  induction n with
  | zero => exact shows_reference high low left
  | succ n ih =>
      rw [List.range_succ, List.foldl_append, List.map_append,
        List.foldl_append]
      exact (ih fun i before => plain i (Nat.lt_succ_of_lt before)).handleCar
        (plain n (Nat.lt_succ_self n))

/-- Whatever bytes other than form feeds are given to `console_putbytes`, the
cursor stays below the information display after each of them, the display is
left alone, and the rows of the console and the cursor are those in the window
of the terminal. -/
theorem console_shows_terminal (screen : Screen) (s : Nat → BitVec 8)
    (len : Int) (high : 6 ≤ screen.currentLig) (low : screen.currentLig ≤ 24)
    (left : screen.currentCol ≤ 79) (plain : ∀ i < len.toNat, s i ≠ 12) :
    (∀ n ≤ len.toNat,
      6 ≤ (screen.consolePutbytes s n).currentLig ∧
      (screen.consolePutbytes s n).currentLig ≤ 24 ∧
      (screen.consolePutbytes s n).currentCol ≤ 79 ∧
      ∀ row < 6, ∀ col < 80,
        (screen.consolePutbytes s n).cell row col = screen.cell row col) ∧
    (∀ row < 19, ∀ col < 80,
      (screen.consolePutbytes s len).cell (6 + row) col =
        (screen.feedAll s len.toNat).shown row col) ∧
    (screen.feedAll s len.toNat).row + 6 =
      (screen.feedAll s len.toNat).top +
        (screen.consolePutbytes s len).currentLig ∧
    (screen.feedAll s len.toNat).col =
      (screen.consolePutbytes s len).currentCol := by
  have shows (n : Nat) (inside : n ≤ len.toNat) :
      Shows screen (screen.consolePutbytes s n) (screen.feedAll s n) :=
    shows_consolePutbytes high low left fun i before =>
      plain i (Nat.lt_of_lt_of_le before inside)
  have whole : screen.consolePutbytes s len =
      screen.consolePutbytes s len.toNat := by
    unfold consolePutbytes
    rw [Int.toNat_natCast]
  have final := shows len.toNat (Nat.le_refl _)
  rw [← whole] at final
  refine ⟨?_, final.window, final.row, final.col⟩
  intro n inside
  have now := shows n inside
  exact ⟨now.high, Nat.le_of_lt_succ now.low, Nat.le_of_lt_succ now.left,
    now.info⟩

/-- Three letters from the last position of an empty screen on. -/
theorem console_shows_three_letters :
    (Screen.consolePutbytes ⟨fun _ => 0, 24, 79, 0, 15, []⟩ (fun _ => 65)
      3).currentLig ≤ 24 ∧
    (Screen.feedAll ⟨fun _ => 0, 24, 79, 0, 15, []⟩ (fun _ => 65) 3).col =
      (Screen.consolePutbytes ⟨fun _ => 0, 24, 79, 0, 15, []⟩ (fun _ => 65)
        3).currentCol := by
  obtain ⟨inside, -, -, col⟩ :=
    console_shows_terminal ⟨fun _ => 0, 24, 79, 0, 15, []⟩ (fun _ => 65) 3
      (by decide) (by decide) (by decide) (by decide)
  exact ⟨(inside 3 (by decide)).2.1, col⟩

end Screen

end Nebulea
