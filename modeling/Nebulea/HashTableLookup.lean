import Nebulea.CongruentialProbe
import Nebulea.HashTable

/-!
# The search loop of `hash_lookup`

After seven turns the hash code does not disturb the sequence of slots any
more, and the sequence runs through the whole table.  So a search ends as long
as the table has an empty slot, and it finds a key whose slot is reached
without passing an empty one.
-/

namespace Nebulea

namespace HashTable

open CongruentialProbe

/-- The values of `index` and `perturb` at the given turn of the loop. -/
def turn (mask hash : Nat) : Nat → Nat × Nat
  | 0 => (hash &&& mask, hash)
  | n + 1 =>
      (nextIndex (turn mask hash n).1 (turn mask hash n).2,
        (turn mask hash n).2 / 32)

/-- The slot that the loop looks at in the given turn. -/
def slotAt (mask hash n : Nat) : Nat :=
  (turn mask hash n).1 &&& mask

section Probing

variable {mask hash k : Nat}

theorem perturb_eq (n : Nat) : (turn mask hash n).2 = hash / 32 ^ n := by
  induction n with
  | zero => simp [turn]
  | succ n ih => rw [turn, ih, Nat.div_div_eq_div_mul, pow_succ]

/-- A 32-bit hash code is used up after seven turns. -/
theorem perturb_eq_zero (small : hash < 0x100000000) (n : Nat) :
    (turn mask hash (7 + n)).2 = 0 := by
  rw [perturb_eq]
  apply Nat.div_eq_of_lt
  have bound : 32 ^ 7 ≤ 32 ^ (7 + n) :=
    Nat.pow_le_pow_right (by decide) (Nat.le_add_right 7 n)
  exact (small.trans (by norm_num)).trans_le bound

/-- From then on the slots follow the congruential sequence. -/
theorem index_mod (small : hash < 0x100000000) (width : k ≤ 32) (n : Nat) :
    (turn mask hash (7 + n)).1 % 2 ^ k =
      orbit (turn mask hash 7).1 n % 2 ^ k := by
  induction n with
  | zero => simp [orbit]
  | succ n ih =>
      have divides : 2 ^ k ∣ 0x100000000 := by
        have whole : 2 ^ k ∣ 2 ^ 32 := Nat.pow_dvd_pow 2 width
        simpa using whole
      rw [← Nat.add_assoc, turn, nextIndex, perturb_eq_zero small,
        Nat.mod_mod_of_dvd _ divides, orbit, Nat.add_zero]
      exact (Nat.ModEq.mul_left 5 ih).add_right 1

theorem slotAt_eq_mod (size : mask + 1 = 2 ^ k) (n : Nat) :
    slotAt mask hash n = (turn mask hash n).1 % 2 ^ k := by
  have isMask : mask = 2 ^ k - 1 := by omega
  rw [slotAt, isMask, Nat.and_two_pow_sub_one_eq_mod]

theorem slotAt_le (size : mask + 1 = 2 ^ k) (n : Nat) :
    slotAt mask hash n ≤ mask := by
  have bound := Nat.mod_lt (turn mask hash n).1 (Nat.two_pow_pos k)
  rw [slotAt_eq_mod size]
  omega

/-- Every slot is looked at within the turns of `hashLookup`. -/
theorem slotAt_visits (small : hash < 0x100000000) (width : k ≤ 32)
    (size : mask + 1 = 2 ^ k) {slot : Nat} (inside : slot ≤ mask) :
    ∃ n < mask + 8, slotAt mask hash n = slot := by
  have small' : slot < 2 ^ k := by omega
  obtain ⟨n, early, visited⟩ := orbit_visits (turn mask hash 7).1 small'
  refine ⟨7 + n, by omega, ?_⟩
  rw [slotAt_eq_mod size, index_mod small width, visited]

end Probing

/-! ## What the loop returns -/

section Searching

variable {Key Value : Type} (map : HashTable Key Value)

/-- The slot holds a pair that the loop takes for the pair of `key`. -/
def Matches (key : Key) (hash slot : Nat) : Prop :=
  ∃ key' value hash', map.table slot = .active key' value hash' ∧
    (key' = key ∨ hash' = hash ∧ map.cmp key' key = true)

/-- The loop goes on after it has looked at this slot. -/
def Passes (key : Key) (hash slot : Nat) : Prop :=
  map.table slot ≠ .empty ∧ ¬ map.Matches key hash slot

variable {map} [DecidableEq Key] {key : Key} {hash : Nat}

/-- One turn of the loop at a slot it passes. -/
theorem lookupFrom_pass (turns index perturb : Nat) (freeslot : Option Nat)
    (passes : map.Passes key hash (index &&& map.mask)) :
    ∃ free', map.lookupFrom key hash (turns + 1) index perturb freeslot =
        map.lookupFrom key hash turns (nextIndex index perturb) (perturb / 32)
          free' ∧
      (free' = freeslot ∨ freeslot = none ∧
        free' = some (index &&& map.mask) ∧
        map.table (index &&& map.mask) = .deleted) := by
  rw [lookupFrom]
  cases content : map.table (index &&& map.mask) with
  | empty => exact absurd content passes.1
  | active key' value hash' =>
      have other : ¬ (key' = key ∨ hash' = hash ∧ map.cmp key' key = true) :=
        fun same => passes.2 ⟨key', value, hash', content, same⟩
      refine ⟨freeslot, ?_, .inl rfl⟩
      simp only [if_neg other]
  | deleted =>
      refine ⟨some (freeslot.getD (index &&& map.mask)), rfl, ?_⟩
      cases freeslot with
      | none => exact .inr ⟨rfl, rfl, rfl⟩
      | some slot => exact .inl rfl

/-- What the loop has remembered in `freeslot` when it gets to turn `n`. -/
def Remembers (map : HashTable Key Value) (hash n : Nat) :
    Option Nat → Prop
  | none => True
  | some slot =>
      map.table slot = .deleted ∧ ∃ m < n, slot = slotAt map.mask hash m

/-- The loop gets to turn `n` when it passes all slots before. -/
theorem lookupFrom_reaches (turns n : Nat)
    (passes : ∀ m < n, map.Passes key hash (slotAt map.mask hash m)) :
    ∃ free', map.lookupFrom key hash (n + turns) (turn map.mask hash 0).1
        (turn map.mask hash 0).2 none =
      map.lookupFrom key hash turns (turn map.mask hash n).1
        (turn map.mask hash n).2 free' ∧ map.Remembers hash n free' := by
  induction n generalizing turns with
  | zero => exact ⟨none, by rw [Nat.zero_add], trivial⟩
  | succ n ih =>
      obtain ⟨free, reached, remembers⟩ := ih (turns + 1)
        (fun m early => passes m (Nat.lt_succ_of_lt early))
      obtain ⟨free', next, isFree⟩ := lookupFrom_pass turns
        (turn map.mask hash n).1 (turn map.mask hash n).2 free
        (passes n (Nat.lt_succ_self n))
      refine ⟨free', ?_, ?_⟩
      · rw [Nat.succ_add_eq_add_succ, reached, next, turn]
      · rcases isFree with rfl | ⟨-, rfl, deleted⟩
        · cases free' with
          | none => trivial
          | some slot =>
              obtain ⟨deleted, m, early, isSlot⟩ := remembers
              exact ⟨deleted, m, Nat.lt_succ_of_lt early, isSlot⟩
        · exact ⟨deleted, n, Nat.lt_succ_self n, rfl⟩

/-- The slot is looked at before any empty one. -/
def ReachedBy (map : HashTable Key Value) (hash slot : Nat) : Prop :=
  ∃ n, slotAt map.mask hash n = slot ∧
    ∀ m < n, map.table (slotAt map.mask hash m) ≠ .empty

/-- `hash_lookup` returns the slot of the key, or a slot for a new pair when
no slot that is reached holds the key. -/
theorem hashLookup_cases (key : Key) {n : Nat} (inTime : n < map.mask + 8)
    (ends : map.table (slotAt map.mask hash n) = .empty) :
    ∃ slot, map.hashLookup key hash = some slot ∧
      map.ReachedBy hash slot ∧
      (map.Matches key hash slot ∨
        (map.table slot = .empty ∨ map.table slot = .deleted) ∧
          ∀ other, map.ReachedBy hash other →
            ¬ map.Matches key hash other) := by
  classical
  have stops : ∃ n, ¬ map.Passes key hash (slotAt map.mask hash n) :=
    ⟨n, fun passes => passes.1 ends⟩
  let last := Nat.find stops
  have isStop : ¬ map.Passes key hash (slotAt map.mask hash last) :=
    Nat.find_spec stops
  have passes : ∀ m < last, map.Passes key hash (slotAt map.mask hash m) :=
    fun m early => not_not.mp (Nat.find_min stops early)
  have early : last ≤ n := Nat.find_min' stops fun passes => passes.1 ends
  obtain ⟨turns, isTurns⟩ : ∃ turns, map.mask + 8 = last + (turns + 1) :=
    ⟨map.mask + 8 - last - 1, by omega⟩
  obtain ⟨free, reached, remembers⟩ := lookupFrom_reaches (turns + 1) last
    passes
  have search : map.hashLookup key hash =
      map.lookupFrom key hash (turns + 1) (turn map.mask hash last).1
        (turn map.mask hash last).2 free := by
    rw [hashLookup, isTurns]
    exact reached
  have before : ∀ m < last, map.table (slotAt map.mask hash m) ≠ .empty :=
    fun m less => (passes m less).1
  by_cases isMatch : map.Matches key hash (slotAt map.mask hash last)
  · refine ⟨slotAt map.mask hash last, ?_, ⟨last, rfl, before⟩, .inl isMatch⟩
    obtain ⟨key', value, hash', content, same⟩ := isMatch
    rw [search, lookupFrom]
    change map.table ((turn map.mask hash last).1 &&& map.mask) = _ at content
    simp only [content, if_pos same]
    rfl
  · have isEmpty : map.table (slotAt map.mask hash last) = .empty := by
      by_contra notEmpty
      exact isStop ⟨notEmpty, isMatch⟩
    have noMatch : ∀ other, map.ReachedBy hash other →
        ¬ map.Matches key hash other := by
      rintro other ⟨m, rfl, notEmpty⟩ found
      rcases Nat.lt_trichotomy m last with less | same | more
      · exact (passes m less).2 found
      · exact isMatch (same ▸ found)
      · exact notEmpty last more isEmpty
    have returned : map.hashLookup key hash =
        some (free.getD (slotAt map.mask hash last)) := by
      rw [search, lookupFrom]
      change map.table ((turn map.mask hash last).1 &&& map.mask) = _ at isEmpty
      simp only [isEmpty]
      rfl
    cases free with
    | none =>
        exact ⟨_, returned, ⟨last, rfl, before⟩, .inr ⟨.inl isEmpty, noMatch⟩⟩
    | some slot =>
        obtain ⟨deleted, m, less, rfl⟩ := remembers
        exact ⟨_, returned,
          ⟨m, rfl, fun l lower => before l (lower.trans less)⟩,
          .inr ⟨.inr deleted, noMatch⟩⟩

end Searching

end HashTable

end Nebulea
