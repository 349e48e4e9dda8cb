import Nebulea.ByteMemory

/-!
# Half words and moves of bytes

Words of 16 bits in a byte-addressed memory, and the byte by byte copy of an
area to a place that may overlap it.
-/

namespace ByteMemory

def load16 (bytes : Bytes) (a : Nat) : Nat :=
  bytes a % 0x100 + 0x100 * (bytes (a + 1) % 0x100)

def store16 (bytes : Bytes) (a word : Nat) : Bytes := fun x =>
  if x < a ∨ a + 2 ≤ x then bytes x else byteAt word (x - a)

/-- Copy `n` bytes, the first byte first. -/
def moveForward (bytes : Bytes) (dst src : Nat) : Nat → Bytes
  | 0 => bytes
  | n + 1 =>
      moveForward (Function.update bytes dst (bytes src)) (dst + 1) (src + 1) n

/-- Copy `n` bytes, the last byte first. -/
def moveBackward (bytes : Bytes) (dst src : Nat) : Nat → Bytes
  | 0 => bytes
  | n + 1 =>
      moveBackward (Function.update bytes (dst + n) (bytes (src + n))) dst src n

variable {bytes bytes' : Bytes} {a b : Nat}

theorem load16_congr (low : bytes' b = bytes a)
    (high : bytes' (b + 1) = bytes (a + 1)) :
    load16 bytes' b = load16 bytes a := by
  rw [load16, load16, low, high]

theorem load16_store16 (bytes : Bytes) (a word : Nat) :
    load16 (store16 bytes a word) a = word % 0x10000 := by
  have low : store16 bytes a word a = word % 0x100 := by
    rw [store16, if_neg (by omega), Nat.sub_self]
    simp [byteAt]
  have high : store16 bytes a word (a + 1) = word / 0x100 % 0x100 := by
    rw [store16, if_neg (by omega), Nat.add_sub_cancel_left]
    simp [byteAt, Nat.shiftRight_eq_div_pow]
  rw [load16, low, high]
  omega

theorem load16_store16_apart {word : Nat} (apart : b + 2 ≤ a ∨ a + 2 ≤ b) :
    load16 (store16 bytes a word) b = load16 bytes b := by
  apply load16_congr
  · exact if_pos (by omega)
  · exact if_pos (by omega)

/-- A copy to a lower place, the first byte first, reads every byte before it
is overwritten. -/
theorem moveForward_apply {dst src : Nat} (lower : dst < src) (n x : Nat) :
    moveForward bytes dst src n x =
      if dst ≤ x ∧ x < dst + n then bytes (src + (x - dst)) else bytes x := by
  induction n generalizing bytes dst src with
  | zero => rw [moveForward, if_neg (by omega)]
  | succ n ih =>
      rw [moveForward, ih (Nat.succ_lt_succ lower)]
      rcases Nat.lt_trichotomy x dst with before | rfl | after
      · rw [if_neg (by omega), if_neg (by omega),
          Function.update_of_ne (by omega)]
      · rw [if_neg (by omega), if_pos (by omega), Function.update_self,
          Nat.sub_self, Nat.add_zero]
      · by_cases inside : x < dst + (n + 1)
        · rw [if_pos (by omega), if_pos (by omega),
            Function.update_of_ne (by omega)]
          congr 1
          omega
        · rw [if_neg (by omega), if_neg (by omega),
            Function.update_of_ne (by omega)]

/-- A half word after such a copy. -/
theorem load16_moveForward {dst src n : Nat} (lower : dst < src)
    (inside : a + 2 ≤ n) :
    load16 (moveForward bytes dst src n) (dst + a) = load16 bytes (src + a) := by
  apply load16_congr
  · rw [moveForward_apply lower, if_pos (by omega), Nat.add_sub_cancel_left]
  · rw [moveForward_apply lower, if_pos (by omega)]
    congr 1
    omega

theorem load16_moveForward_apart {dst src n : Nat} (lower : dst < src)
    (apart : b + 2 ≤ dst ∨ dst + n ≤ b) :
    load16 (moveForward bytes dst src n) b = load16 bytes b := by
  apply load16_congr
  · rw [moveForward_apply lower, if_neg (by omega)]
  · rw [moveForward_apply lower, if_neg (by omega)]

end ByteMemory
