import Nebulea.FormatOutput

/-!
# `strtol.c` and `strtoul.c`

Numbers are read from the start of a string into 32 bits, in a base that the
caller gives or that a prefix tells.  What `_doprnt` prints is read back,
whatever the flags, the width and the precision were, with one exception: a
leading `+` is recognised and not stepped over, so nothing is read after it.
-/

namespace Nebulea

/-- The digit a character stands for, if it is below the base. -/
def digitOf (base : Int) (c : BitVec 8) : Option Nat :=
  if 48 ≤ c.toInt ∧ c.toInt ≤ 57 ∧ c.toInt - 48 < base then
    some (c.toInt - 48).toNat
  else if 97 ≤ c.toInt ∧ c.toInt ≤ 122 ∧ c.toInt - 97 + 10 < base then
    some (c.toInt - 97 + 10).toNat
  else if 65 ≤ c.toInt ∧ c.toInt ≤ 90 ∧ c.toInt - 65 + 10 < base then
    some (c.toInt - 65 + 10).toNat
  else none

end Nebulea
