import Mathlib.RingTheory.ZMod.UnitsCyclic

/-!
# A congruential sequence of full period

The sequence `x`, `5 * x + 1`, … taken modulo a power of two runs through all
residues before it repeats, because 5 has order `2 ^ k` modulo `2 ^ (k + 2)`.
An open-addressing table that probes its slots in this order therefore visits
every slot.
-/

namespace CongruentialProbe

/-- The sequence that starts with `start`, before any reduction. -/
def orbit (start : Nat) : Nat → Nat
  | 0 => start
  | n + 1 => 5 * orbit start n + 1

theorem four_mul_orbit (start n : Nat) :
    4 * orbit start n + 1 = 5 ^ n * (4 * start + 1) := by
  induction n with
  | zero => simp [orbit]
  | succ n ih =>
      have next : 4 * orbit start (n + 1) + 1 = 5 * (4 * orbit start n + 1) := by
        rw [orbit]
        omega
      rw [next, ih]
      ring

variable {k : Nat}

/-- Two powers of 5 agree modulo `2 ^ (k + 2)` only if their exponents agree
modulo `2 ^ k`. -/
theorem exponent_eq_of_pow_eq {a b : Nat} (aSmall : a < 2 ^ k)
    (bSmall : b < 2 ^ k) (same : (5 : ZMod (2 ^ (k + 2))) ^ a = 5 ^ b) :
    a = b := by
  have order := ZMod.orderOf_five k
  refine pow_injOn_Iio_orderOf (x := (5 : ZMod (2 ^ (k + 2)))) ?_ ?_ same
  · simpa [order] using aSmall
  · simpa [order] using bSmall

/-- The sequence does not repeat before its `2 ^ k`-th element. -/
theorem orbit_injective (start : Nat) {a b : Nat}
    (aSmall : a < 2 ^ k) (bSmall : b < 2 ^ k)
    (same : orbit start a % 2 ^ k = orbit start b % 2 ^ k) : a = b := by
  have scaled : 4 * orbit start a + 1 ≡ 4 * orbit start b + 1
      [MOD 2 ^ (k + 2)] := by
    have modulus : 2 ^ (k + 2) = 4 * 2 ^ k := by
      ring
    rw [modulus]
    exact (Nat.ModEq.mul_left' 4 same).add_right 1
  rw [four_mul_orbit, four_mul_orbit] at scaled
  have odd : Nat.gcd (2 ^ (k + 2)) (4 * start + 1) = 1 := by
    refine Nat.Coprime.pow_left (k + 2) ?_
    rw [Nat.coprime_two_left]
    exact ⟨2 * start, by ring⟩
  have powers : 5 ^ a ≡ 5 ^ b [MOD 2 ^ (k + 2)] :=
    Nat.ModEq.cancel_right_of_coprime odd scaled
  apply exponent_eq_of_pow_eq aSmall bSmall
  have cast := (ZMod.natCast_eq_natCast_iff _ _ _).mpr powers
  simpa using cast

/-- Every residue is met among the first `2 ^ k` elements. -/
theorem orbit_visits (start : Nat) {target : Nat}
    (small : target < 2 ^ k) :
    ∃ n < 2 ^ k, orbit start n % 2 ^ k = target := by
  let visit : Fin (2 ^ k) → Fin (2 ^ k) := fun n =>
    ⟨orbit start n % 2 ^ k, Nat.mod_lt _ (by positivity)⟩
  have injective : Function.Injective visit := by
    intro a b same
    apply Fin.ext
    exact orbit_injective start a.isLt b.isLt (Fin.mk.inj_iff.mp same)
  obtain ⟨n, found⟩ := Finite.surjective_of_injective injective ⟨target, small⟩
  exact ⟨n, n.isLt, Fin.mk.inj_iff.mp found⟩

end CongruentialProbe
