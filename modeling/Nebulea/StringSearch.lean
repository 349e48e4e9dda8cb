import Mathlib.Logic.Function.Basic
import Mathlib.Tactic.Common
import Mathlib.Tactic.IntervalCases

/-!
# `string.c`: `memmem` and `memmove`

`memmem` compares the second character of the needle first, and skips a place
when that one tells that the needle cannot be there.  `memmove` copies from the
end at which it does not overwrite what it has yet to read.
-/

namespace Nebulea

/-- Memory from some address on. -/
abbrev Region := Nat → BitVec 8

/-! ## `memmem` -/

/-- `memcmp`. -/
def memcmp (c1 c2 : Region) : Nat → Int
  | 0 => 0
  | n + 1 =>
      let d : Int := (c1 0).toNat - (c2 0).toNat
      if d ≠ 0 then d
      else memcmp (fun i => c1 (i + 1)) (fun i => c2 (i + 1)) n

/-- The loop of `memmem` for needles of at least two characters. -/
def memmemLoop (y x : Region) (n m k l : Nat) (moves : 0 < k ∧ 0 < l)
    (j : Nat) : Option Nat :=
  if j ≤ n - m then
    if x 1 ≠ y (j + 1) then memmemLoop y x n m k l moves (j + k)
    else if memcmp (fun i => x (i + 2)) (fun i => y (j + 2 + i)) (m - 2) = 0 ∧
        x 0 = y j then some j
    else memmemLoop y x n m k l moves (j + l)
  else none
termination_by n - m + 1 - j

/-- The loop of `memmem` for one character: `y` is `left` before the end. -/
def memchrLoop (y : Region) (c : BitVec 8) (place : Nat) : Nat → Option Nat
  | 0 => none
  | left + 1 =>
      if y place = c then some place else memchrLoop y c (place + 1) left

/-- `memmem`. -/
def memmem (haystack : Region) (n : Nat) (needle : Region) (m : Nat) :
    Option Nat :=
  if m > n ∨ m = 0 ∨ n = 0 then none
  else if 1 ≠ m then
    if needle 0 = needle 1 then memmemLoop haystack needle n m 2 1 (by decide) 0
    else memmemLoop haystack needle n m 1 2 (by decide) 0
  else memchrLoop haystack (needle 0) 0 n

/-- The needle is at a place. -/
def OccursAt (y x : Region) (m place : Nat) : Prop :=
  ∀ i < m, y (place + i) = x i

theorem memcmp_eq_zero (c1 c2 : Region) (n : Nat) :
    memcmp c1 c2 n = 0 ↔ ∀ i < n, c1 i = c2 i := by
  induction n generalizing c1 c2 with
  | zero => simp [memcmp]
  | succ n ih =>
      rw [memcmp, Nat.forall_lt_succ_left]
      by_cases same : c1 0 = c2 0
      · simp [same, ih]
      · have differ : ((c1 0).toNat : Int) - (c2 0).toNat ≠ 0 := by
          intro zero
          exact same (BitVec.eq_of_toNat_eq (by omega))
        simp only [differ, ne_eq, not_false_eq_true, if_true, same, false_and]

/-- The places that a step passes over have no needle. -/
theorem occursAt_skip {y x : Region} {m k l j : Nat} (two : 2 ≤ m)
    (steps : (x 0 = x 1 ∧ k = 2 ∧ l = 1) ∨ (x 0 ≠ x 1 ∧ k = 1 ∧ l = 2)) :
    (x 1 ≠ y (j + 1) → ∀ q, j ≤ q → q < j + k → ¬ OccursAt y x m q) ∧
      (x 1 = y (j + 1) → ∀ q, j < q → q < j + l → ¬ OccursAt y x m q) := by
  refine ⟨fun differ q from_ below occurs => ?_,
    fun same q from_ below occurs => ?_⟩
  · have first := occurs 0 (by omega)
    have second := occurs 1 (by omega)
    by_cases here : q = j
    · subst here
      exact differ second.symm
    · have next : q = j + 1 := by omega
      subst next
      rcases steps with ⟨equal, -⟩ | ⟨-, one, -⟩
      · exact differ (equal ▸ first.symm)
      · omega
  · have first := occurs 0 (by omega)
    have next : q = j + 1 := by omega
    subst next
    rcases steps with ⟨-, -, one⟩ | ⟨unequal, -⟩
    · omega
    · exact unequal (first.symm.trans same.symm)

/-- The needle is at `place`, in the haystack, and not before. -/
def FirstAt (y x : Region) (n m place : Nat) : Prop :=
  place + m ≤ n ∧ OccursAt y x m place ∧
    ∀ q < place, ¬ OccursAt y x m q

/-- What the loop compares. -/
theorem occursAt_iff {y x : Region} {m j : Nat} (two : 2 ≤ m) :
    OccursAt y x m j ↔ x 1 = y (j + 1) ∧
      memcmp (fun i => x (i + 2)) (fun i => y (j + 2 + i)) (m - 2) = 0 ∧
        x 0 = y j := by
  rw [memcmp_eq_zero]
  constructor
  · intro occurs
    refine ⟨(occurs 1 (by omega)).symm, fun i less => ?_,
      (occurs 0 (by omega)).symm⟩
    have here := occurs (i + 2) (by omega)
    rw [← here]
    congr 1
    omega
  · rintro ⟨second, rest, first⟩ i less
    rcases Nat.lt_or_ge i 2 with small | large
    · interval_cases i
      · exact first.symm
      · exact second.symm
    · obtain ⟨more, rfl⟩ := Nat.exists_eq_add_of_le large
      rw [Nat.add_comm 2 more]
      refine Eq.trans ?_ (rest more (by omega)).symm
      congr 1
      omega

theorem FirstAt.unique {y x : Region} {n m place other : Nat}
    (first : FirstAt y x n m place) (also : FirstAt y x n m other) :
    place = other := by
  rcases Nat.lt_trichotomy place other with less | same | more
  · exact absurd first.2.1 (also.2.2 place less)
  · exact same
  · exact absurd also.2.1 (first.2.2 other more)

theorem memmemLoop_first {y x : Region} {n m k l : Nat} {moves : 0 < k ∧ 0 < l}
    (two : 2 ≤ m) (le : m ≤ n)
    (steps : (x 0 = x 1 ∧ k = 2 ∧ l = 1) ∨ (x 0 ≠ x 1 ∧ k = 1 ∧ l = 2))
    {j : Nat} (before : ∀ q < j, ¬ OccursAt y x m q) (place : Nat) :
    memmemLoop y x n m k l moves j = some place ↔ FirstAt y x n m place := by
  fun_induction memmemLoop y x n m k l moves j with
  | case1 j inside differ ih =>
      refine ih fun q less => ?_
      by_cases old : q < j
      · exact before q old
      · exact (occursAt_skip two steps).1 differ q (by omega) less
  | case2 j inside same found =>
      have occurs : OccursAt y x m j :=
        (occursAt_iff two).mpr ⟨not_not.mp same, found⟩
      have first : FirstAt y x n m j := ⟨by omega, occurs, before⟩
      rw [Option.some_inj]
      exact ⟨fun isPlace => isPlace ▸ first, first.unique⟩
  | case3 j inside same other ih =>
      refine ih fun q less => ?_
      rcases Nat.lt_trichotomy q j with old | here | later
      · exact before q old
      · rw [here, occursAt_iff two]
        exact fun all => other all.2
      · exact (occursAt_skip two steps).2 (not_not.mp same) q later less
  | case4 j outside =>
      refine ⟨nofun, fun first => ?_⟩
      exact absurd first.2.1 (before place (by have := first.1; omega))

theorem memchrLoop_first {y x : Region} {n left place : Nat}
    (atEnd : place + left = n) (before : ∀ q < place, ¬ OccursAt y x 1 q)
    (found : Nat) :
    memchrLoop y (x 0) place left = some found ↔ FirstAt y x n 1 found := by
  have one (q : Nat) : OccursAt y x 1 q ↔ y q = x 0 := by
    simp [OccursAt]
  induction left generalizing place with
  | zero =>
      refine ⟨nofun, fun first => ?_⟩
      exact absurd first.2.1 (before found (by have := first.1; omega))
  | succ left ih =>
      rw [memchrLoop]
      by_cases here : y place = x 0
      · have first : FirstAt y x n 1 place :=
          ⟨by omega, (one place).mpr here, before⟩
        rw [if_pos here, Option.some_inj]
        exact ⟨fun isPlace => isPlace ▸ first, first.unique⟩
      · rw [if_neg here]
        refine ih (by omega) fun q less => ?_
        by_cases last : q = place
        · rw [last, one]
          exact here
        · exact before q (by omega)

/-- `memmem` finds the first place of a needle, if it has one and is not
empty. -/
theorem memmem_first (haystack : Region) (n : Nat) (needle : Region) (m : Nat)
    (place : Nat) :
    memmem haystack n needle m = some place ↔
      m ≠ 0 ∧ FirstAt haystack needle n m place := by
  unfold memmem
  by_cases nothing : m > n ∨ m = 0 ∨ n = 0
  · rw [if_pos nothing]
    refine ⟨nofun, fun ⟨positive, first⟩ => ?_⟩
    have := first.1
    omega
  rw [if_neg nothing]
  have positive : m ≠ 0 := by omega
  simp only [positive, ne_eq, not_false_eq_true, true_and]
  by_cases one : 1 = m
  · subst one
    simpa using memchrLoop_first (Nat.zero_add n) (by simp) place
  · rw [if_pos one]
    by_cases equal : needle 0 = needle 1
    · rw [if_pos equal]
      exact memmemLoop_first (by omega) (by omega) (.inl ⟨equal, rfl, rfl⟩)
        (by simp) place
    · rw [if_neg equal]
      exact memmemLoop_first (by omega) (by omega) (.inr ⟨equal, rfl, rfl⟩)
        (by simp) place

/-! ## `memmove` -/

/-- `cld ; rep ; movsb`. -/
def movsbForward (memory : Region) (p q : Nat) : Nat → Region
  | 0 => memory
  | n + 1 =>
      movsbForward (Function.update memory q (memory p)) (p + 1) (q + 1) n

/-- `std ; rep ; movsb`. -/
def movsbBackward (memory : Region) (p q : Nat) : Nat → Region
  | 0 => memory
  | n + 1 =>
      movsbBackward (Function.update memory q (memory p)) (p - 1) (q - 1) n

/-- `memmove`. -/
def memmove (memory : Region) (dst src n : Nat) : Region :=
  if dst < src then movsbForward memory src dst n
  else movsbBackward memory (src + (n - 1)) (dst + (n - 1)) n

/-- A region has been copied, and nothing else has changed. -/
def MovedTo (memory after : Region) (dst src n : Nat) : Prop :=
  ∀ place, after place =
    if dst ≤ place ∧ place < dst + n then memory (src + (place - dst))
    else memory place

theorem movsbForward_moved {memory : Region} {p q n : Nat} (ahead : q ≤ p) :
    MovedTo memory (movsbForward memory p q n) q p n := by
  induction n generalizing memory p q with
  | zero =>
      intro place
      rw [if_neg (by omega)]
      rfl
  | succ n ih =>
      intro place
      rw [movsbForward, ih (Nat.succ_le_succ ahead) place]
      rcases Nat.lt_trichotomy place q with before | here | after
      · rw [if_neg (by omega), if_neg (by omega),
          Function.update_of_ne (by omega)]
      · rw [if_neg (by omega), if_pos (by omega), here, Function.update_self,
          Nat.sub_self, Nat.add_zero]
      · by_cases inside : place < q + 1 + n
        · rw [if_pos ⟨after, inside⟩, if_pos (by omega),
            Function.update_of_ne (by omega)]
          congr 1
          omega
        · rw [if_neg (by omega), if_neg (by omega),
            Function.update_of_ne (by omega)]

theorem movsbBackward_moved {memory : Region} {src dst n : Nat}
    (behind : src ≤ dst) :
    MovedTo memory
      (movsbBackward memory (src + (n - 1)) (dst + (n - 1)) n) dst src n := by
  induction n generalizing memory with
  | zero =>
      intro place
      rw [if_neg (by omega)]
      rfl
  | succ n ih =>
      intro place
      rw [movsbBackward, Nat.add_sub_cancel]
      cases n with
      | zero =>
          rw [movsbBackward]
          by_cases here : place = dst
          · rw [here, if_pos (by omega), Nat.add_zero, Nat.add_zero,
              Function.update_self, Nat.sub_self, Nat.add_zero]
          · rw [if_neg (by omega), Function.update_of_ne (by omega)]
      | succ n =>
          have less : MovedTo (Function.update memory (dst + (n + 1))
              (memory (src + (n + 1)))) _ dst src (n + 1) := ih
          rw [Nat.add_sub_cancel] at less
          rw [show src + (n + 1) - 1 = src + n by omega,
            show dst + (n + 1) - 1 = dst + n by omega, less place]
          by_cases last : place = dst + (n + 1)
          · rw [if_neg (by omega), if_pos (by omega), last,
              Function.update_self]
            congr 1
            omega
          · by_cases inside : dst ≤ place ∧ place < dst + (n + 1)
            · rw [if_pos inside, if_pos (by omega),
                Function.update_of_ne (by omega)]
            · rw [if_neg inside, if_neg (by omega), Function.update_of_ne last]

/-- `memmove` copies a region, however it overlaps with the other. -/
theorem memmove_moves (memory : Region) (dst src n : Nat) :
    MovedTo memory (memmove memory dst src n) dst src n := by
  unfold memmove
  split
  · exact movsbForward_moved (by omega)
  · exact movsbBackward_moved (by omega)

end Nebulea
