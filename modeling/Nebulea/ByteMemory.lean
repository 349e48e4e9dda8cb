import Mathlib.Data.Nat.Bits
import Mathlib.Tactic.Common

/-!
# Byte-addressed memories

A memory gives a byte to every address.  Words are 32 bits wide, stored with
their low byte first, and may start at any address.  An entry of a page table
is a word whose high 20 bits are the address of a page and whose low bits are
flags.
-/

namespace ByteMemory

/-- The content of a memory; a byte is read modulo 256. -/
abbrev Bytes := Nat → Nat

/-- Byte `i` of a word. -/
def byteAt (word i : Nat) : Nat :=
  word >>> (8 * i) % 0x100

def load32 (bytes : Bytes) (a : Nat) : Nat :=
  bytes a % 0x100 + 0x100 * (bytes (a + 1) % 0x100) +
    0x10000 * (bytes (a + 2) % 0x100) + 0x1000000 * (bytes (a + 3) % 0x100)

def store32 (bytes : Bytes) (a word : Nat) : Bytes := fun x =>
  if x < a ∨ a + 4 ≤ x then bytes x else byteAt word (x - a)

/-- `count` consecutive words, the word number `i` being `words i`. -/
def storeWords (bytes : Bytes) (a count : Nat) (words : Nat → Nat) : Bytes :=
  fun x =>
    if x < a ∨ a + 4 * count ≤ x then bytes x
    else byteAt (words ((x - a) / 4)) ((x - a) % 4)

/-- `count` consecutive bytes. -/
def storeBytes (bytes : Bytes) (a count : Nat) (content : Nat → Nat) : Bytes :=
  fun x => if x < a ∨ a + count ≤ x then bytes x else content (x - a)

variable {bytes bytes' : Bytes} {a b : Nat}

theorem load32_lt (bytes : Bytes) (a : Nat) :
    load32 bytes a < 0x100000000 := by
  unfold load32
  omega

/-- A load reads four bytes. -/
theorem load32_congr (same : ∀ x, a ≤ x → x < a + 4 → bytes' x = bytes x) :
    load32 bytes' a = load32 bytes a := by
  unfold load32
  rw [same a (by omega) (by omega), same (a + 1) (by omega) (by omega),
    same (a + 2) (by omega) (by omega), same (a + 3) (by omega) (by omega)]

theorem store32_outside {word x : Nat} (outside : x < a ∨ a + 4 ≤ x) :
    store32 bytes a word x = bytes x :=
  if_pos outside

theorem storeWords_outside {count x : Nat} {words : Nat → Nat}
    (outside : x < a ∨ a + 4 * count ≤ x) :
    storeWords bytes a count words x = bytes x :=
  if_pos outside

theorem storeBytes_outside {count x : Nat} {content : Nat → Nat}
    (outside : x < a ∨ a + count ≤ x) :
    storeBytes bytes a count content x = bytes x :=
  if_pos outside

/-- The four bytes of a word make it up. -/
theorem load32_of_bytes {word : Nat}
    (stored : ∀ i, i < 4 → bytes (a + i) = byteAt word i) :
    load32 bytes a = word % 0x100000000 := by
  unfold load32
  have first := stored 0 (by omega)
  have second := stored 1 (by omega)
  have third := stored 2 (by omega)
  have fourth := stored 3 (by omega)
  rw [Nat.add_zero] at first
  rw [first, second, third, fourth]
  simp only [byteAt]
  omega

theorem load32_store32 (bytes : Bytes) (a word : Nat) :
    load32 (store32 bytes a word) a = word % 0x100000000 := by
  apply load32_of_bytes
  intro i less
  unfold store32
  rw [if_neg (by omega), Nat.add_sub_cancel_left]

theorem load32_store32_apart {word : Nat} (apart : b + 4 ≤ a ∨ a + 4 ≤ b) :
    load32 (store32 bytes a word) b = load32 bytes b := by
  apply load32_congr
  intro x low high
  exact store32_outside (by omega)

theorem store32_comm {word word' : Nat} (apart : b + 4 ≤ a ∨ a + 4 ≤ b) :
    store32 (store32 bytes a word) b word' =
      store32 (store32 bytes b word') a word := by
  funext x
  by_cases first : x < a ∨ a + 4 ≤ x <;> by_cases second : x < b ∨ b + 4 ≤ x
  · simp [store32, first, second]
  · simp [store32, first, second]
  · simp [store32, first, second]
  · omega

theorem load32_storeWords {count i : Nat} {words : Nat → Nat}
    (less : i < count) :
    load32 (storeWords bytes a count words) (a + 4 * i) =
      words i % 0x100000000 := by
  apply load32_of_bytes
  intro j small
  unfold storeWords
  have quotient : (a + 4 * i + j - a) / 4 = i := by omega
  have remainder : (a + 4 * i + j - a) % 4 = j := by omega
  rw [if_neg (by omega), quotient, remainder]

theorem load32_storeWords_apart {count : Nat} {words : Nat → Nat}
    (apart : b + 4 ≤ a ∨ a + 4 * count ≤ b) :
    load32 (storeWords bytes a count words) b = load32 bytes b := by
  apply load32_congr
  intro x low high
  exact storeWords_outside (by omega)

/-! ## Entries of page tables -/

/-- `entry & 0xFFFFF000`. -/
def frameBits (entry : Nat) : Nat :=
  entry &&& 0xFFFFF000

/-- The present bit. -/
def isPresent (entry : Nat) : Bool :=
  entry.testBit 0

/-- The user bit. -/
def isUser (entry : Nat) : Bool :=
  entry.testBit 2

theorem testBit_frameMask (i : Nat) :
    (0xFFFFF000 : Nat).testBit i = (decide (12 ≤ i) && decide (i < 32)) := by
  have shifted : (0xFFFFF000 : Nat) = (2 ^ 20 - 1) <<< 12 := by decide
  rw [shifted, Nat.testBit_shiftLeft, Nat.testBit_two_pow_sub_one]
  by_cases low : 12 ≤ i
  · by_cases high : i < 32
    · simp [low, high, show i - 12 < 20 by omega]
    · simp [low, high, show ¬ i - 12 < 20 by omega]
  · simp [low]

/-- Clearing the flags of a word rounds it down to a page. -/
theorem frameBits_eq {entry : Nat} (small : entry < 0x100000000) :
    frameBits entry = entry / 0x1000 * 0x1000 := by
  have rounded : entry / 0x1000 * 0x1000 = (entry >>> 12) <<< 12 := by
    rw [Nat.shiftLeft_eq, Nat.shiftRight_eq_div_pow]
  rw [rounded]
  apply Nat.eq_of_testBit_eq
  intro i
  unfold frameBits
  rw [Nat.testBit_and, testBit_frameMask, Nat.testBit_shiftLeft,
    Nat.testBit_shiftRight]
  by_cases low : 12 ≤ i
  · by_cases high : i < 32
    · simp [low, high]
    · have zero : entry.testBit i = false :=
        Nat.testBit_lt_two_pow (Nat.lt_of_lt_of_le small
          (Nat.pow_le_pow_right (n := 2) Nat.two_pos (Nat.le_of_not_lt high)))
      simp [low, high, zero]
  · simp [low]

/-- Flags are added to the address of a page. -/
theorem or_flags {frame flags : Nat} (aligned : frame % 0x1000 = 0)
    (small : flags < 0x1000) : frame ||| flags = frame + flags := by
  obtain ⟨page, rfl⟩ := Nat.dvd_of_mod_eq_zero aligned
  exact (Nat.two_pow_add_eq_or_of_lt (i := 12) small page).symm

theorem frameBits_or_flags {frame flags : Nat} (aligned : frame % 0x1000 = 0)
    (less : frame < 0x100000000) (small : flags < 0x1000) :
    frameBits (frame ||| flags) = frame := by
  rw [or_flags aligned small, frameBits_eq (by omega)]
  omega

theorem frameBits_of_aligned {frame : Nat} (aligned : frame % 0x1000 = 0)
    (less : frame < 0x100000000) : frameBits frame = frame := by
  rw [frameBits_eq less]
  omega

theorem frameBits_aligned {entry : Nat} (small : entry < 0x100000000) :
    frameBits entry % 0x1000 = 0 := by
  rw [frameBits_eq small]
  omega

theorem frameBits_lt {entry : Nat} (small : entry < 0x100000000) :
    frameBits entry < 0x100000000 := by
  rw [frameBits_eq small]
  omega

/-- The low bits of an entry are its flags. -/
theorem testBit_or_flags {frame flags i : Nat} (aligned : frame % 0x1000 = 0)
    (low : i < 12) : (frame ||| flags).testBit i = flags.testBit i := by
  obtain ⟨page, rfl⟩ := Nat.dvd_of_mod_eq_zero aligned
  have shifted : 0x1000 * page = page <<< 12 := by
    rw [Nat.shiftLeft_eq, Nat.mul_comm]
  rw [Nat.testBit_or, shifted, Nat.testBit_shiftLeft]
  simp [Nat.not_le.mpr low]

end ByteMemory
