import Mathlib.Data.List.Basic
import Mathlib.Tactic.Ring

/-!
# Numerals in a base

Dividing by the base again and again gives the digits of a number from the last
to the first; reading them from the first to the last, each time multiplying by
the base, gives the number back.  Leading zeros do not matter.
-/

namespace Positional

/-- The digits of `number` before those in `digits`, found by a loop that
divides at least once and at most `fuel` times. -/
def numeral (base : Nat) : Nat → Nat → List Nat → List Nat
  | 0, _, digits => digits
  | fuel + 1, number, digits =>
      let digits := number % base :: digits
      if number / base = 0 then digits
      else numeral base fuel (number / base) digits

/-- Read digits, having read `number` already. -/
def value (base number : Nat) (digits : List Nat) : Nat :=
  digits.foldl (fun number digit => number * base + digit) number

variable {base : Nat}

@[simp]
theorem value_nil (number : Nat) : value base number [] = number :=
  rfl

@[simp]
theorem value_cons (number digit : Nat) (digits : List Nat) :
    value base number (digit :: digits) =
      value base (number * base + digit) digits :=
  rfl

theorem value_append (number : Nat) (front back : List Nat) :
    value base number (front ++ back) =
      value base (value base number front) back :=
  List.foldl_append

/-- What the loop puts before the digits it is given. -/
theorem numeral_eq_append (positive : 0 < base) (fuel number : Nat)
    (digits : List Nat) (enough : number < base ^ fuel) (room : 0 < fuel) :
    ∃ front, numeral base fuel number digits = front ++ digits ∧
      front ≠ [] ∧ front.length ≤ fuel ∧ (∀ digit ∈ front, digit < base) ∧
      ∀ start, value base start front =
        start * base ^ front.length + number := by
  induction fuel generalizing number digits with
  | zero => omega
  | succ fuel ih =>
      have below : number % base < base := Nat.mod_lt _ positive
      rw [numeral]
      by_cases last : number / base = 0
      · refine ⟨[number % base], by simp [last], by simp, by simp, by simpa,
          ?_⟩
        have small : number % base = number :=
          Nat.mod_eq_of_lt ((Nat.div_eq_zero_iff_lt positive).mp last)
        intro start
        simp [small]
      · have fewer : number / base < base ^ fuel := by
          rw [Nat.div_lt_iff_lt_mul positive, ← Nat.pow_succ]
          exact enough
        have more : 0 < fuel := by
          rcases Nat.eq_zero_or_pos fuel with rfl | more
          · exact absurd (Nat.lt_one_iff.mp fewer) last
          · exact more
        obtain ⟨front, isNumeral, -, size, small, reads⟩ :=
          ih (number / base) (number % base :: digits) fewer more
        refine ⟨front ++ [number % base], by simp [last, isNumeral], by simp,
          by simpa using size, ?_, ?_⟩
        · intro digit member
          rcases List.mem_append.mp member with inFront | isLast
          · exact small digit inFront
          · rw [List.mem_singleton.mp isLast]
            exact below
        · intro start
          rw [value_append, reads, value_cons, value_nil, List.length_append,
            List.length_singleton, pow_succ]
          have whole := Nat.div_add_mod number base
          calc (start * base ^ front.length + number / base) * base +
                number % base
              = start * (base ^ front.length * base) +
                  (base * (number / base) + number % base) := by ring
            _ = start * (base ^ front.length * base) + number := by rw [whole]

theorem digit_lt (positive : 0 < base) {fuel number digit : Nat}
    (enough : number < base ^ fuel) (room : 0 < fuel)
    (member : digit ∈ numeral base fuel number []) : digit < base := by
  obtain ⟨front, isNumeral, -, -, small, -⟩ :=
    numeral_eq_append positive fuel number [] enough room
  rw [isNumeral, List.append_nil] at member
  exact small digit member

end Positional
