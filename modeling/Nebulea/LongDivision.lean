import Mathlib.Data.Nat.Log
import Mathlib.Tactic.Common
import Mathlib.Tactic.Ring

/-!
# `div64.c`: division of 64-bit integers

The processor divides 64 bits by 32.  For a divisor of more than 32 bits the
code divides by its leading 32 bits plus one, and corrects the quotient, which
may be a little too small.
-/

namespace Nebulea

/-- `hard_bsr`. -/
def hardBsr (n : BitVec 32) : Nat :=
  Nat.log2 n.toNat

/-- `shrdl`. -/
def shrd (x1 x0 : BitVec 32) (n : Nat) : BitVec 32 :=
  ((x1 ++ x0) >>> (n % 32)).setWidth 32

/-- `rshift64_32`. -/
def rshift64_32 (x1 x0 : BitVec 32) (n : Nat) : BitVec 32 :=
  if n.testBit 5 then x1 else shrd x1 x0 n

/-- `rshift64`. -/
def rshift64 (x1 x0 : BitVec 32) (n : Nat) : BitVec 32 × BitVec 32 :=
  if n.testBit 5 then (0, x1 >>> (n % 32)) else (x1 >>> (n % 32), shrd x1 x0 n)

/-- `div64_32`: the remainder and the quotient, unless the processor faults
because that one does not fit. -/
def div64_32 (x1 x0 y : BitVec 32) : Option (BitVec 32 × BitVec 32) :=
  let x := (x1 ++ x0).toNat
  if y = 0 ∨ 2 ^ 32 ≤ x / y.toNat then none
  else some (BitVec.ofNat 32 (x % y.toNat), BitVec.ofNat 32 (x / y.toNat))

/-- The loop that corrects the quotient. -/
def correctQuotient (y : BitVec 64) (positive : y ≠ 0) (x0 : BitVec 32)
    (r : BitVec 64) : BitVec 32 × BitVec 64 :=
  if y ≤ r then correctQuotient y positive (x0 + 1) (r - y) else (x0, r)
termination_by r.toNat
decreasing_by
  have some : 0 < y.toNat := by
    rw [Nat.pos_iff_ne_zero]
    exact fun zero => positive (BitVec.eq_of_toNat_eq zero)
  rw [BitVec.toNat_sub_of_le ‹_›]
  have := BitVec.le_def.mp ‹y ≤ r›
  omega

/-- `do_div64`: the quotient and `*rem`, unless the processor faults. -/
def doDiv64 (x y : BitVec 64) : Option (BitVec 64 × BitVec 64) :=
  let y1 := (y >>> 32).setWidth 32
  let y0 := y.setWidth 32
  let x1 := (x >>> 32).setWidth 32
  let x0 := x.setWidth 32
  if large : y1 ≠ 0 then
    let l := hardBsr y1 + 1
    let y0 := rshift64_32 y1 y0 l
    let (x1, x0) := rshift64 x1 x0 l
    (div64_32 x1 x0 (y0 + 1)).map fun (_, x0) =>
      let (x0, r) := correctQuotient y (fun zero => large (by simp [y1, zero]))
        x0 (x - y * x0.setWidth 64)
      (x0.setWidth 64, r)
  else if x1 < y0 then
    (div64_32 x1 x0 y0).map fun (x1, x0) =>
      (x0.setWidth 64, x1.setWidth 64)
  else if y0 ≠ 0 then
    (div64_32 0 x1 y0).bind fun (x2, x1) =>
      (div64_32 x2 x0 y0).map fun (x2, x0) =>
        ((x1.setWidth 64 <<< 32) + x0.setWidth 64, x2.setWidth 64)
  else some (0, x)

/-! ## Words -/

/-- The upper word. -/
def high (x : BitVec 64) : BitVec 32 :=
  (x >>> 32).setWidth 32

/-- The lower word. -/
def low (x : BitVec 64) : BitVec 32 :=
  x.setWidth 32

theorem toNat_high (x : BitVec 64) : (high x).toNat = x.toNat / 2 ^ 32 := by
  have small := x.isLt
  rw [high, BitVec.toNat_setWidth, BitVec.toNat_ushiftRight,
    Nat.shiftRight_eq_div_pow]
  exact Nat.mod_eq_of_lt (by omega)

theorem toNat_low (x : BitVec 64) : (low x).toNat = x.toNat % 2 ^ 32 :=
  BitVec.toNat_setWidth _ _

theorem toNat_words (x1 x0 : BitVec 32) :
    (x1 ++ x0).toNat = x1.toNat * 2 ^ 32 + x0.toNat := by
  rw [BitVec.toNat_append, Nat.shiftLeft_eq,
    Nat.mul_comm, Nat.two_pow_add_eq_or_of_lt x0.isLt]

theorem high_low (x : BitVec 64) : high x ++ low x = x := by
  refine BitVec.eq_of_toNat_eq ?_
  rw [toNat_words, toNat_high, toNat_low]
  omega

theorem testBit_five : ∀ l ≤ 32, l.testBit 5 = decide (l = 32) := by
  decide

/-- The words after a shift. -/
theorem rshift64_32_eq (x : BitVec 64) {l : Nat} (le : l ≤ 32) :
    rshift64_32 (high x) (low x) l = low (x >>> l) := by
  rw [rshift64_32, testBit_five l le]
  by_cases whole : l = 32
  · rw [whole]
    rfl
  · rw [shrd, high_low, Nat.mod_eq_of_lt (by omega)]
    simp [whole, low]

theorem rshift64_eq (x : BitVec 64) {l : Nat} (le : l ≤ 32) :
    rshift64 (high x) (low x) l = (high (x >>> l), low (x >>> l)) := by
  have shifted : high (x >>> l) = high x >>> l := by
    refine BitVec.eq_of_toNat_eq ?_
    rw [toNat_high, BitVec.toNat_ushiftRight, BitVec.toNat_ushiftRight,
      toNat_high, Nat.shiftRight_eq_div_pow, Nat.shiftRight_eq_div_pow,
      Nat.div_div_eq_div_mul, Nat.div_div_eq_div_mul, Nat.mul_comm]
  have lower := rshift64_32_eq x le
  rw [rshift64_32, testBit_five l le] at lower
  rw [rshift64, testBit_five l le, shifted]
  by_cases whole : l = 32
  · subst whole
    simp only [decide_true, if_true] at lower ⊢
    refine Prod.ext (BitVec.eq_of_toNat_eq ?_) (by simpa using lower)
    have small := (high x).isLt
    rw [BitVec.toNat_ushiftRight, Nat.shiftRight_eq_div_pow,
      Nat.div_eq_of_lt small]
    rfl
  · simp only [whole, decide_false, Bool.false_eq_true, if_false] at lower ⊢
    rw [lower, Nat.mod_eq_of_lt (by omega)]

theorem div64_32_eq {x1 x0 y : BitVec 32} (positive : y ≠ 0)
    (fits : (x1 ++ x0).toNat / y.toNat < 2 ^ 32) :
    div64_32 x1 x0 y =
      some (BitVec.ofNat 32 ((x1 ++ x0).toNat % y.toNat),
        BitVec.ofNat 32 ((x1 ++ x0).toNat / y.toNat)) := by
  have defined : ¬ (y = 0 ∨ 2 ^ 32 ≤ (x1 ++ x0).toNat / y.toNat) := by
    rintro (zero | large)
    · exact positive zero
    · omega
  rw [div64_32, if_neg defined]

/-! ## The quotient -/

/-- A divisor that is cut short and rounded up does not give too much. -/
theorem estimate_le (x y s : Nat) :
    y * (x / 2 ^ s / (y / 2 ^ s + 1)) ≤ x := by
  have positive : 0 < 2 ^ s := Nat.two_pow_pos s
  have rounded : y ≤ (y / 2 ^ s + 1) * 2 ^ s := by
    have := Nat.lt_mul_div_succ y positive
    rw [Nat.mul_comm]
    exact this.le
  calc y * (x / 2 ^ s / (y / 2 ^ s + 1))
      ≤ (y / 2 ^ s + 1) * 2 ^ s * (x / 2 ^ s / (y / 2 ^ s + 1)) :=
        Nat.mul_le_mul_right _ rounded
    _ = x / 2 ^ s / (y / 2 ^ s + 1) * (y / 2 ^ s + 1) * 2 ^ s := by ring
    _ ≤ x / 2 ^ s * 2 ^ s :=
        Nat.mul_le_mul_right _ (Nat.div_mul_le_self _ _)
    _ ≤ x := Nat.div_mul_le_self _ _

/-- The loop finds the quotient if it starts below. -/
theorem correctQuotient_eq {x y : BitVec 64} (positive : y ≠ 0)
    (large : 2 ^ 32 ≤ y.toNat) {x0 : BitVec 32} {r : BitVec 64}
    (start : y.toNat * x0.toNat + r.toNat = x.toNat) :
    correctQuotient y positive x0 r =
      (BitVec.ofNat 32 (x.toNat / y.toNat), x % y) := by
  have bound := x.isLt
  fun_induction correctQuotient y positive x0 r with
  | case1 x0 r more ih =>
      have least := BitVec.le_def.mp more
      refine ih ?_
      have next : (x0 + 1).toNat = x0.toNat + 1 := by
        have whole : 2 ^ 32 * (x0.toNat + 1) ≤ y.toNat * (x0.toNat + 1) :=
          Nat.mul_le_mul_right _ large
        rw [Nat.mul_succ y.toNat] at whole
        rw [BitVec.toNat_add]
        exact Nat.mod_eq_of_lt (by simp; omega)
      rw [next, BitVec.toNat_sub_of_le more, Nat.mul_succ]
      omega
  | case2 x0 r less =>
      have small : r.toNat < y.toNat := by
        rw [← BitVec.lt_def]
        exact BitVec.not_le.mp less
      refine Prod.ext (BitVec.eq_of_toNat_eq ?_) (BitVec.eq_of_toNat_eq ?_)
      · rw [← start, Nat.mul_add_div (by omega), Nat.div_eq_of_lt small]
        simp
      · rw [BitVec.toNat_umod, ← start, Nat.mul_add_mod,
          Nat.mod_eq_of_lt small]

/-- The leading 32 bits of the divisor are all ones. -/
def FullHead (y : BitVec 64) : Prop :=
  ∃ k, 1 ≤ k ∧ (2 ^ 32 - 1) * 2 ^ k ≤ y.toNat ∧ y.toNat < 2 ^ 32 * 2 ^ k

/-- Where the divisor is cut. -/
structure Cut (y : BitVec 64) (l : Nat) : Prop where
  pos : 1 ≤ l
  le : l ≤ 32
  lower : 2 ^ 31 * 2 ^ l ≤ y.toNat
  upper : y.toNat < 2 ^ 32 * 2 ^ l

theorem cut_hardBsr {y : BitVec 64} (large : high y ≠ 0) :
    Cut y (hardBsr (high y) + 1) := by
  have bound := (high y).isLt
  have positive : (high y).toNat ≠ 0 := fun zero =>
    large (BitVec.eq_of_toNat_eq zero)
  have lower := Nat.log2_self_le positive
  have upper := @Nat.lt_log2_self (high y).toNat
  have le : (high y).toNat.log2 < 32 :=
    (Nat.pow_lt_pow_iff_right (by decide)).mp (lower.trans_lt bound)
  rw [hardBsr]
  generalize (high y).toNat.log2 = n at lower upper le ⊢
  have power : 2 ^ (n + 1) = 2 ^ n * 2 := Nat.pow_succ 2 n
  rw [toNat_high, power] at upper
  rw [toNat_high] at lower
  refine ⟨by omega, by omega, ?_, ?_⟩ <;>
  rw [power] <;>
  omega

/-- The leading bits are those in front of the cut. -/
theorem Cut.fullHead {y : BitVec 64} {l : Nat} (cut : Cut y l) :
    FullHead y ↔ y.toNat / 2 ^ l = 2 ^ 32 - 1 := by
  have lower := cut.lower
  have upper := cut.upper
  constructor
  · rintro ⟨k, -, low, high⟩
    have same : k = l := by
      rcases Nat.lt_trichotomy k l with less | same | more
      · obtain ⟨d, rfl⟩ := Nat.exists_eq_add_of_lt less
        have more : 2 ^ k * 2 ≤ 2 ^ (k + d + 1) := by
          rw [← Nat.pow_succ]
          exact Nat.pow_le_pow_right (by decide) (by omega)
        omega
      · exact same
      · obtain ⟨d, rfl⟩ := Nat.exists_eq_add_of_lt more
        have more : 2 ^ l * 2 ≤ 2 ^ (l + d + 1) := by
          rw [← Nat.pow_succ]
          exact Nat.pow_le_pow_right (by decide) (by omega)
        omega
    subst same
    exact Nat.div_eq_of_lt_le low (by omega)
  · intro full
    refine ⟨l, cut.pos, ?_, upper⟩
    rw [← full]
    exact Nat.div_mul_le_self _ _

/-- Division by more than 32 bits. -/
theorem doDiv64_large (x : BitVec 64) {y : BitVec 64} (large : high y ≠ 0) :
    doDiv64 x y =
      if y.toNat / 2 ^ (hardBsr (high y) + 1) = 2 ^ 32 - 1 then none
      else some (x / y, x % y) := by
  have bound := y.isLt
  have xBound := x.isLt
  have cut := cut_hardBsr large
  have lower := cut.lower
  have upper := cut.upper
  have unfolded : doDiv64 x y =
      (div64_32 (rshift64 (high x) (low x) (hardBsr (high y) + 1)).1
        (rshift64 (high x) (low x) (hardBsr (high y) + 1)).2
        (rshift64_32 (high y) (low y) (hardBsr (high y) + 1) + 1)).map
          fun out =>
            let last := correctQuotient y (fun zero => large (by
              simp [high, zero])) out.2 (x - y * out.2.setWidth 64)
            (last.1.setWidth 64, last.2) :=
    dif_pos large
  rw [unfolded, rshift64_eq x cut.le, rshift64_32_eq y cut.le]
  generalize hardBsr (high y) + 1 = l at cut lower upper ⊢
  have head : (low (y >>> l)).toNat = y.toNat / 2 ^ l := by
    rw [toNat_low, BitVec.toNat_ushiftRight, Nat.shiftRight_eq_div_pow]
    exact Nat.mod_eq_of_lt (by
      rw [Nat.div_lt_iff_lt_mul (by simp)]
      exact upper)
  by_cases full : y.toNat / 2 ^ l = 2 ^ 32 - 1
  · have zero : low (y >>> l) + 1 = 0 := by
      refine BitVec.eq_of_toNat_eq ?_
      rw [BitVec.toNat_add, head, full]
      rfl
    rw [if_pos full, zero]
    rfl
  · rw [if_neg full]
    have atLeast : 2 ^ 31 ≤ y.toNat / 2 ^ l :=
      (Nat.le_div_iff_mul_le (by simp)).mpr lower
    have atMost : y.toNat / 2 ^ l < 2 ^ 32 :=
      (Nat.div_lt_iff_lt_mul (by simp)).mpr upper
    have divisor : (low (y >>> l) + 1).toNat = y.toNat / 2 ^ l + 1 := by
      rw [BitVec.toNat_add, head]
      exact Nat.mod_eq_of_lt (by simp; omega)
    have dividend : (high (x >>> l) ++ low (x >>> l)).toNat =
        x.toNat / 2 ^ l := by
      rw [high_low, BitVec.toNat_ushiftRight, Nat.shiftRight_eq_div_pow]
    have half : x.toNat / 2 ^ l < 2 ^ 63 := by
      rw [Nat.div_lt_iff_lt_mul (by simp)]
      have two : 2 ^ 1 ≤ 2 ^ l := Nat.pow_le_pow_right (by decide) cut.pos
      omega
    have fits : x.toNat / 2 ^ l / (y.toNat / 2 ^ l + 1) < 2 ^ 32 := by
      rw [Nat.div_lt_iff_lt_mul (by omega)]
      omega
    have positive : low (y >>> l) + 1 ≠ 0 := fun zero => by
      rw [zero] at divisor
      exact absurd divisor (by simp)
    have estimate := estimate_le x.toNat y.toNat l
    rw [div64_32_eq positive (by rw [dividend, divisor]; exact fits), dividend,
      divisor, Option.map_some]
    generalize x.toNat / 2 ^ l / (y.toNat / 2 ^ l + 1) = q at fits estimate ⊢
    have isQ : (BitVec.ofNat 32 q).toNat = q := Nat.mod_eq_of_lt fits
    have product : (y * (BitVec.ofNat 32 q).setWidth 64).toNat =
        y.toNat * q := by
      rw [BitVec.toNat_mul, BitVec.toNat_setWidth, isQ,
        Nat.mod_eq_of_lt (show q < 2 ^ 64 by omega)]
      exact Nat.mod_eq_of_lt (by omega)
    have start : y.toNat * (BitVec.ofNat 32 q).toNat +
        (x - y * (BitVec.ofNat 32 q).setWidth 64).toNat = x.toNat := by
      rw [isQ, BitVec.toNat_sub_of_le (by rw [BitVec.le_def, product]; exact
        estimate), product]
      omega
    have wide : 2 ^ 32 ≤ y.toNat := by
      have : 2 ^ 1 ≤ 2 ^ l := Nat.pow_le_pow_right (by decide) cut.pos
      omega
    have narrow : x.toNat / y.toNat < 2 ^ 32 := by
      rw [Nat.div_lt_iff_lt_mul (by omega)]
      omega
    simp only [correctQuotient_eq _ wide start]
    refine congrArg some (Prod.ext (BitVec.eq_of_toNat_eq ?_) rfl)
    rw [BitVec.toNat_setWidth, BitVec.toNat_udiv, BitVec.toNat_ofNat,
      Nat.mod_eq_of_lt narrow]
    exact Nat.mod_eq_of_lt (by omega)

/-- Two words of a quotient are put together. -/
theorem toNat_quotients {upper lower : Nat} (upperFits : upper < 2 ^ 32)
    (lowerFits : lower < 2 ^ 32) :
    (((BitVec.ofNat 32 upper).setWidth 64 <<< 32) +
      (BitVec.ofNat 32 lower).setWidth 64).toNat = upper * 2 ^ 32 + lower := by
  rw [BitVec.toNat_add, BitVec.toNat_shiftLeft, Nat.shiftLeft_eq,
    BitVec.toNat_setWidth, BitVec.toNat_setWidth, BitVec.toNat_ofNat,
    BitVec.toNat_ofNat, Nat.mod_eq_of_lt upperFits, Nat.mod_eq_of_lt lowerFits]
  omega

/-- Division by at most 32 bits. -/
theorem doDiv64_small (x : BitVec 64) {y : BitVec 64} (small : high y = 0) :
    doDiv64 x y = some (x / y, x % y) := by
  have xBound := x.isLt
  have unfolded : doDiv64 x y =
      if high x < low y then
        (div64_32 (high x) (low x) (low y)).map fun out =>
          (out.2.setWidth 64, out.1.setWidth 64)
      else if low y ≠ 0 then
        (div64_32 0 (high x) (low y)).bind fun first =>
          (div64_32 first.1 (low x) (low y)).map fun second =>
            ((first.2.setWidth 64 <<< 32) + second.2.setWidth 64,
              second.1.setWidth 64)
      else some (0, x) :=
    dif_neg (not_not.mpr small)
  have isLow : (low y).toNat = y.toNat := by
    have zero := congrArg BitVec.toNat small
    rw [toNat_high] at zero
    rw [toNat_low]
    simp at zero
    omega
  have whole : x.toNat = (high x).toNat * 2 ^ 32 + (low x).toNat := by
    rw [← toNat_words, high_low]
  have yBound := (low y).isLt
  rw [isLow] at yBound
  rw [unfolded]
  by_cases fits : high x < low y
  · rw [if_pos fits]
    rw [BitVec.lt_def, isLow, toNat_high] at fits
    have narrow : x.toNat / y.toNat < 2 ^ 32 := by
      rw [Nat.div_lt_iff_lt_mul (by omega)]
      omega
    have positive : low y ≠ 0 := fun zero => by
      rw [zero] at isLow
      simp at isLow
      omega
    have rest := Nat.mod_lt x.toNat (show 0 < y.toNat by omega)
    rw [div64_32_eq positive (by rw [high_low, isLow]; exact narrow),
      high_low, isLow, Option.map_some]
    refine congrArg some (Prod.ext (BitVec.eq_of_toNat_eq ?_)
      (BitVec.eq_of_toNat_eq ?_))
    · rw [BitVec.toNat_setWidth, BitVec.toNat_udiv, BitVec.toNat_ofNat,
        Nat.mod_eq_of_lt narrow]
      exact Nat.mod_eq_of_lt (by omega)
    · rw [BitVec.toNat_setWidth, BitVec.toNat_umod, BitVec.toNat_ofNat,
        Nat.mod_eq_of_lt (show x.toNat % y.toNat < 2 ^ 32 by omega)]
      exact Nat.mod_eq_of_lt (by omega)
  · rw [if_neg fits]
    by_cases positive : low y ≠ 0
    · rw [if_pos positive]
      have more : 0 < y.toNat := by
        rw [← isLow, Nat.pos_iff_ne_zero]
        exact fun zero => positive (BitVec.eq_of_toNat_eq zero)
      have hBound := (high x).isLt
      have lBound := (low x).isLt
      generalize isRest : (high x).toNat % y.toNat * 2 ^ 32 +
        (low x).toNat = rest
      have restLt : (high x).toNat % y.toNat < y.toNat := Nat.mod_lt _ more
      have first : ((0 : BitVec 32) ++ high x).toNat = (high x).toNat := by
        rw [toNat_words]
        simp
      have firstFits : (high x).toNat / y.toNat < 2 ^ 32 :=
        (Nat.div_le_self _ _).trans_lt hBound
      have second : (BitVec.ofNat 32 ((high x).toNat % y.toNat) ++
          low x).toNat = rest := by
        rw [toNat_words, BitVec.toNat_ofNat, Nat.mod_eq_of_lt
          (show (high x).toNat % y.toNat < 2 ^ 32 by omega), isRest]
      have secondFits : rest / y.toNat < 2 ^ 32 := by
        rw [Nat.div_lt_iff_lt_mul more]
        omega
      have parts : x.toNat =
          y.toNat * ((high x).toNat / y.toNat * 2 ^ 32) + rest := by
        have split := Nat.div_add_mod (high x).toNat y.toNat
        rw [← Nat.mul_assoc, ← isRest, ← Nat.add_assoc, ← Nat.add_mul, split]
        exact whole
      have left := Nat.mod_lt rest more
      rw [div64_32_eq positive (by rw [first, isLow]; exact firstFits), first,
        isLow, Option.bind_some,
        div64_32_eq positive (by rw [second, isLow]; exact secondFits),
        second, isLow, Option.map_some]
      refine congrArg some (Prod.ext (BitVec.eq_of_toNat_eq ?_)
        (BitVec.eq_of_toNat_eq ?_))
      · rw [BitVec.toNat_udiv, parts, Nat.mul_add_div more,
          toNat_quotients firstFits secondFits]
      · rw [BitVec.toNat_umod, parts, Nat.mul_add_mod, BitVec.toNat_setWidth,
          BitVec.toNat_ofNat, Nat.mod_eq_of_lt
            (show rest % y.toNat < 2 ^ 32 by omega)]
        exact Nat.mod_eq_of_lt (by omega)
    · rw [if_neg positive]
      have zero : y = 0 := by
        refine BitVec.eq_of_toNat_eq ?_
        rw [← isLow, not_not.mp positive]
        rfl
      rw [zero]
      simp

/-- `do_div64` divides, whatever the operands, except that it faults on a
divisor of more than 32 bits with the first 32 all ones, where it adds one to
these.  Divided by zero, a number gives zero and remains. -/
theorem doDiv64_divides (x y : BitVec 64) :
    (FullHead y → doDiv64 x y = none) ∧
      (¬ FullHead y → doDiv64 x y = some (x / y, x % y)) := by
  by_cases large : high y ≠ 0
  · have isDivided := doDiv64_large x large
    have isFull := (cut_hardBsr large).fullHead
    refine ⟨fun full => ?_, fun other => ?_⟩
    · rw [isDivided, if_pos (isFull.mp full)]
    · rw [isDivided, if_neg (isFull.not.mp other)]
  · have zero := not_not.mp large
    have other : ¬ FullHead y := by
      rintro ⟨k, le, low, -⟩
      have two : 2 ^ 1 ≤ 2 ^ k := Nat.pow_le_pow_right (by decide) le
      have words := congrArg BitVec.toNat zero
      rw [toNat_high] at words
      simp at words
      omega
    exact ⟨fun full => absurd full other, fun _ => doDiv64_small x zero⟩

end Nebulea
