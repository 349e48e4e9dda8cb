import Nebulea.NumberReading

/-!
# Printed numbers

A number is printed as blanks, a sign, a prefix, zeros, digits and blanks, in
exactly the width that is asked for or in what it takes.  `strtol` and
`strtoul` read it back.
-/

namespace Nebulea

open Positional

/-! ## Layout -/

section Layout

variable {d : Directive} {signChar : Option (BitVec 8)} {u base : Nat}

end Layout

/-! ## Reading digits -/

section Reading

/-- The bases in which numbers are printed. -/
def PrintBase (base : Nat) : Prop :=
  base = 8 ∨ base = 10 ∨ base = 16

/-- The string does not go on with a letter or a digit. -/
def Apart (rest : Chars) : Prop :=
  digitOf 36 (firstChar rest) = none

theorem PrintBase.pos {base : Nat} (printed : PrintBase base) : 0 < base := by
  rcases printed with rfl | rfl | rfl <;> decide

/-- The buffer has room for the digits of every word. -/
theorem PrintBase.enough {base u : Nat} (printed : PrintBase base)
    (word : u < 2 ^ 32) : u < base ^ maxBuf := by
  have two : 2 ≤ base := by
    rcases printed with rfl | rfl | rfl <;> decide
  exact word.trans_le (Nat.pow_le_pow_left two 32)

theorem digitFault_eq_none {base u : Nat} (printed : PrintBase base)
    (word : u < 2 ^ 32) : digitFault u base = none := by
  have small (digit : Nat) (member : digit ∈ numeral base maxBuf u []) :
      ¬ 16 < digit := by
    have below := digit_lt printed.pos (printed.enough word) (by decide) member
    rcases printed with rfl | rfl | rfl <;> omega
  have fewer : ((numeral base maxBuf u []).any fun d => 16 < d) = false := by
    simpa using small
  rcases printed with rfl | rfl | rfl <;> simp [digitFault, fewer]

end Reading

end Nebulea
