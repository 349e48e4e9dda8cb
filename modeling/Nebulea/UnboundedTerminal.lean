import Mathlib.Tactic.Common

/-!
# A terminal of unbounded height

A terminal writes cells into rows of a fixed width.  There is always a next
row.  Of all rows only a window of fixed height is looked at, and the window
slides down by one row each time the cursor leaves it.
-/

/-- Rows of cells, a cursor, and the first row of the window. -/
structure Terminal (Cell : Type) where
  rows : Nat → Nat → Cell
  row : Nat
  col : Nat
  top : Nat

namespace Terminal

variable {Cell : Type}

/-- Write a cell at the cursor. -/
def write (t : Terminal Cell) (cell : Cell) : Terminal Cell :=
  { t with rows := fun row col =>
      if row = t.row ∧ col = t.col then cell else t.rows row col }

/-- The start of the next row. -/
def lineFeed (t : Terminal Cell) : Terminal Cell :=
  { t with row := t.row + 1, col := 0 }

/-- The next position in a row, or the start of the next row. -/
def advance (t : Terminal Cell) (width : Nat) : Terminal Cell :=
  if t.col + 1 < width then { t with col := t.col + 1 } else t.lineFeed

/-- The window follows the cursor. -/
def slide (t : Terminal Cell) (height : Nat) : Terminal Cell :=
  if t.row < t.top + height then t else { t with top := t.top + 1 }

/-- The next tab stop, in the last column at most. -/
def tab (t : Terminal Cell) (width stop : Nat) : Terminal Cell :=
  { t with col := min (t.col / stop * stop + stop) (width - 1) }

/-- One byte: backspace, tab, newline, carriage return and the printable
characters have an effect. -/
def feed (width height stop : Nat) (glyph : BitVec 8 → Cell)
    (t : Terminal Cell) (c : BitVec 8) : Terminal Cell :=
  if c = 8 then { t with col := t.col - 1 }
  else if c = 9 then t.tab width stop
  else if c = 10 then t.lineFeed.slide height
  else if c = 13 then { t with col := 0 }
  else if 32 ≤ c.toNat ∧ c.toNat ≤ 126 then
    ((t.write (glyph c)).advance width).slide height
  else t

/-- The cell in a row of the window. -/
def shown (t : Terminal Cell) (row col : Nat) : Cell :=
  t.rows (t.top + row) col

end Terminal
