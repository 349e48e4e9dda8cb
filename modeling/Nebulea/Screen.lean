import Nebulea.HalfWords
import Mathlib.Data.List.Basic

/-!
# `screen.c`: the text console

The screen shows 25 rows of 80 characters from the video memory.  The first
rows belong to the information display, the console writes below them.  A
character is two bytes, its code and its colours.
-/

namespace Nebulea

open ByteMemory

def startingAddress : Nat := 0xB8000

/-- `NB_COLUMNS`. -/
def nbColumns : Nat := 80

/-- `NB_LINES`. -/
def nbLines : Nat := 25

/-- `INFO_SIZE`. -/
def infoSize : Nat := 6

/-- `CURSOR_COM_PORT`. -/
def cursorComPort : Nat := 0x3D4

/-- `CURSOR_DATA_PORT`. -/
def cursorDataPort : Nat := 0x3D5

/-- The memory, the variables of `screen.c`, which are 8 bits wide, and what
`outb` has sent to which port. -/
structure Screen where
  bytes : Bytes
  currentLig : Nat
  currentCol : Nat
  backgroundColor : Nat
  foregroundColor : Nat
  ports : List (Nat × Nat)

namespace Screen

/-- `ptr_mem`. -/
def ptrMem (lig col : Nat) : Nat :=
  startingAddress + 2 * (lig * nbColumns + col)

/-- The word that `write_car` stores. -/
def carWord (c : BitVec 8) (fg bg : Nat) : Nat :=
  bg <<< 12 ||| fg <<< 8 ||| (c.signExtend 16).toNat

/-- `write_car`. -/
def writeCar (screen : Screen) (lig col : Nat) (c : BitVec 8) (fg bg : Nat) :
    Screen :=
  if lig ≥ nbLines ∨ col ≥ nbColumns then screen
  else { screen with
    bytes := store16 screen.bytes (ptrMem lig col) (carWord c fg bg) }

/-- `clear_screen`. -/
def clearScreen (screen : Screen) : Screen :=
  (List.range nbLines).foldl (fun screen i =>
    (List.range nbColumns).foldl (fun screen j =>
      screen.writeCar i j 32 15 0) screen) screen

/-- `set_cursor`. -/
def setCursor (screen : Screen) (lig col : Nat) : Screen :=
  if lig ≥ nbLines ∨ col ≥ nbColumns then screen
  else
    let pos := col + lig * nbColumns
    let little := pos &&& 0xFF
    let big := (pos &&& 0xFF00) >>> 8
    { screen with
      ports := screen.ports ++
        [(0x0F, cursorComPort), (little, cursorDataPort),
          (0x0E, cursorComPort), (big, cursorDataPort)]
      currentLig := lig
      currentCol := col }

/-- `memmove`. -/
def memmove (bytes : Bytes) (dst src n : Nat) : Bytes :=
  if dst < src then moveForward bytes dst src n
  else moveBackward bytes dst src n

/-- `scroll`. -/
def scroll (screen : Screen) : Screen :=
  let dst := startingAddress + nbColumns * 2 * infoSize
  let src := startingAddress + nbColumns * 2 * (infoSize + 1)
  let n := nbColumns * (nbLines - infoSize - 1) * 2 * 8
  (List.range nbColumns).foldl
    (fun screen i => screen.writeCar (nbLines - 1) i 32 15 0)
    { screen with bytes := memmove screen.bytes dst src n }

/-- How the cases of `handle_car` end: the variables are set, then the
cursor. -/
def placeCursor (screen : Screen) (lig col : Nat) : Screen :=
  { screen with currentLig := lig, currentCol := col }.setCursor lig col

/-- `handle_car` on a printable character. -/
def printCar (screen : Screen) (c : BitVec 8) : Screen :=
  let lig := screen.currentLig
  let col := screen.currentCol
  let screen :=
    screen.writeCar lig col c screen.foregroundColor screen.backgroundColor
  if col = nbColumns - 1 ∧ lig ≠ nbLines - 1 then
    screen.placeCursor ((lig + 1) % 0x100) 0
  else if col = nbColumns - 1 ∧ lig = nbLines - 1 then
    screen.scroll.placeCursor lig 0
  else
    screen.placeCursor lig ((col + 1) % 0x100)

/-- `handle_car`. -/
def handleCar (screen : Screen) (c : BitVec 8) : Screen :=
  let lig := screen.currentLig
  let col := screen.currentCol
  if c = 8 then
    screen.placeCursor lig (if col ≠ 0 then col - 1 else col)
  else if c = 9 then
    let next := (col - col % 4 + 4) % 0x100
    screen.placeCursor lig (if next ≥ nbColumns then nbColumns - 1 else next)
  else if c = 10 then
    if lig < nbLines - 1 then screen.placeCursor ((lig + 1) % 0x100) 0
    else screen.scroll.placeCursor lig 0
  else if c = 12 then
    screen.clearScreen.placeCursor 0 0
  else if c = 13 then
    screen.placeCursor lig 0
  else if 31 < c.toInt ∧ c.toInt < 127 then
    screen.printCar c
  else
    screen

/-- `console_putbytes`. -/
def consolePutbytes (screen : Screen) (s : Nat → BitVec 8) (len : Int) :
    Screen :=
  (List.range len.toNat).foldl (fun screen i => screen.handleCar (s i)) screen

/-! ## The characters on the screen -/

/-- The word of a character. -/
def cell (screen : Screen) (row col : Nat) : Nat :=
  load16 screen.bytes (ptrMem row col)

/-- A space with the colours of `scroll`. -/
def blank : Nat := 0x0F20

variable {screen : Screen}

/-- The words of two characters do not overlap. -/
theorem ptrMem_apart {row col row' col' : Nat} (inside : col < 80)
    (inside' : col' < 80) (distinct : ¬ (row' = row ∧ col' = col)) :
    ptrMem row' col' + 2 ≤ ptrMem row col ∨
      ptrMem row col + 2 ≤ ptrMem row' col' := by
  unfold ptrMem nbColumns
  omega

theorem cell_writeCar {lig col row' col' : Nat} (c : BitVec 8) (fg bg : Nat)
    (low : lig < 25) (left : col < 80) (left' : col' < 80) :
    (screen.writeCar lig col c fg bg).cell row' col' =
      if row' = lig ∧ col' = col then carWord c fg bg % 0x10000
      else screen.cell row' col' := by
  have valid : ¬ (lig ≥ nbLines ∨ col ≥ nbColumns) := by
    unfold nbLines nbColumns
    omega
  rw [writeCar, if_neg valid]
  by_cases same : row' = lig ∧ col' = col
  · obtain ⟨rfl, rfl⟩ := same
    rw [if_pos ⟨rfl, rfl⟩]
    exact load16_store16 _ _ _
  · rw [if_neg same]
    exact load16_store16_apart (ptrMem_apart left left' same)

/-- The loop of `scroll` clears the columns it has been through. -/
theorem cell_clearRow (row col n : Nat) (bound : n ≤ 80) (left : col < 80) :
    ((List.range n).foldl
      (fun screen i => screen.writeCar (nbLines - 1) i 32 15 0)
        screen).cell row col =
      if row = 24 ∧ col < n then blank else screen.cell row col := by
  induction n with
  | zero => rw [if_neg (by omega)]; rfl
  | succ n ih =>
      rw [List.range_succ, List.foldl_append]
      simp only [List.foldl_cons, List.foldl_nil]
      rw [nbLines, cell_writeCar _ _ _ (by decide) (by omega) left]
      rw [nbLines] at ih
      rw [ih (by omega)]
      by_cases same : row = 25 - 1 ∧ col = n
      · rw [if_pos same, if_pos (by omega)]
        rfl
      · rw [if_neg same]
        congr 1
        simp only [eq_iff_iff]
        omega

/-- Every row below the information display gets the row below it; the last
row gets spaces. -/
theorem cell_scroll {row col : Nat} (low : row < 25) (left : col < 80) :
    screen.scroll.cell row col =
      if row = 24 then blank
      else if row < 6 then screen.cell row col
      else screen.cell (row + 1) col := by
  rw [scroll, nbColumns, cell_clearRow row col 80 (Nat.le_refl 80) left]
  by_cases last : row = 24
  · rw [if_pos ⟨last, left⟩, if_pos last]
  · rw [if_neg fun both => last both.1, if_neg last]
    unfold cell memmove ptrMem infoSize nbLines nbColumns
    dsimp only
    rw [if_pos (by omega)]
    by_cases info : row < 6
    · rw [if_pos info]
      exact load16_moveForward_apart (by omega) (by omega)
    · rw [if_neg info]
      have target : startingAddress + 2 * (row * 80 + col) =
          startingAddress + 80 * 2 * 6 + 2 * ((row - 6) * 80 + col) := by
        omega
      have source : startingAddress + 2 * ((row + 1) * 80 + col) =
          startingAddress + 80 * 2 * (6 + 1) + 2 * ((row - 6) * 80 + col) := by
        omega
      rw [target, source]
      exact load16_moveForward (by omega) (by omega)

end Screen

end Nebulea
