import Mathlib.Data.List.Range
import Mathlib.Logic.Function.Basic
import Mathlib.Tactic.Common
import Mathlib.Tactic.Ring

/-!
# Bounded buffers used in a circle

A ring buffer keeps at most `capacity` elements in cells that are used in a
circle: elements are written after the last one and read from `tail` on.  Its
content is the list of its elements in the order they were written, and the two
operations append to that list and take its first element.
-/

/-- A buffer whose elements lie in `count` consecutive cells from `tail` on. -/
structure RingBuffer (α : Type) where
  capacity : Int
  count : Int
  tail : Int
  cells : Int → α
  count_nonneg : 0 ≤ count
  count_le : count ≤ capacity
  tail_nonneg : 0 ≤ tail
  tail_lt : tail < capacity

namespace RingBuffer

variable {α : Type}

theorem capacity_pos (r : RingBuffer α) : 0 < r.capacity :=
  r.tail_nonneg.trans_lt r.tail_lt

/-- The cell of the element number `i`. -/
def index (r : RingBuffer α) (i : Int) : Int :=
  (r.tail + i) % r.capacity

/-- The cell that is written next. -/
def head (r : RingBuffer α) : Int :=
  r.index r.count

/-- The elements in the order they were written. -/
def toList (r : RingBuffer α) : List α :=
  (List.range r.count.toNat).map fun i : Nat => r.cells (r.index i)

/-- An empty buffer with this room, whose cells have any content. -/
def empty (capacity : Int) (positive : 0 < capacity) (cells : Int → α) :
    RingBuffer α :=
  ⟨capacity, 0, 0, cells, Int.le_refl 0, positive.le, Int.le_refl 0, positive⟩

/-- Write an element after the last one. -/
def push (r : RingBuffer α) (a : α) (room : r.count < r.capacity) :
    RingBuffer α where
  capacity := r.capacity
  count := r.count + 1
  tail := r.tail
  cells := Function.update r.cells r.head a
  count_nonneg := by
    have nonneg := r.count_nonneg
    omega
  count_le := room
  tail_nonneg := r.tail_nonneg
  tail_lt := r.tail_lt

/-- Step over the first element. -/
def pop (r : RingBuffer α) (stored : 0 < r.count) : RingBuffer α where
  capacity := r.capacity
  count := r.count - 1
  tail := (r.tail + 1) % r.capacity
  cells := r.cells
  count_nonneg := by omega
  count_le := by
    have bounded := r.count_le
    omega
  tail_nonneg := Int.emod_nonneg _ r.capacity_pos.ne'
  tail_lt := Int.emod_lt_of_pos _ r.capacity_pos

section Indices

variable (r : RingBuffer α)

theorem index_nonneg (i : Int) : 0 ≤ r.index i :=
  Int.emod_nonneg _ r.capacity_pos.ne'

theorem index_lt (i : Int) : r.index i < r.capacity :=
  Int.emod_lt_of_pos _ r.capacity_pos

theorem index_zero : r.index 0 = r.tail := by
  rw [index, Int.add_zero]
  exact Int.emod_eq_of_lt r.tail_nonneg r.tail_lt

/-- The next cell is found by counting on in the circle. -/
theorem index_succ (i : Int) :
    r.index (i + 1) = (r.index i + 1) % r.capacity := by
  rw [index, index, Int.emod_add_emod, Int.add_assoc]

/-- Different elements lie in different cells. -/
theorem index_ne {i j : Int} (nonneg : 0 ≤ i) (before : i < j)
    (bounded : j < r.capacity) : r.index i ≠ r.index j := by
  intro same
  have divides : r.capacity ∣ r.tail + j - (r.tail + i) :=
    Int.dvd_of_emod_eq_zero (Int.emod_eq_emod_iff_emod_sub_eq_zero.mp same.symm)
  have positive : 0 < r.tail + j - (r.tail + i) := by omega
  have large := Int.le_of_dvd positive divides
  omega

end Indices

section Contents

variable (r : RingBuffer α)

@[simp]
theorem toList_length : (r.toList.length : Int) = r.count := by
  simp [toList, r.count_nonneg]

@[simp]
theorem toList_empty (capacity : Int) (positive : 0 < capacity)
    (cells : Int → α) : (empty capacity positive cells).toList = [] :=
  rfl

/-- A written element is the last one. -/
theorem toList_push (a : α) (room : r.count < r.capacity) :
    (r.push a room).toList = r.toList ++ [a] := by
  have nonneg := r.count_nonneg
  have more : (r.count + 1).toNat = r.count.toNat + 1 := by omega
  have last : ((r.count.toNat : Nat) : Int) = r.count := by omega
  change (List.range (r.count + 1).toNat).map
    (fun i : Nat => Function.update r.cells r.head a (r.index i)) = _
  rw [more, List.range_succ, List.map_append, List.map_singleton, last]
  congr 1
  · refine List.map_congr_left ?_
    intro i member
    have before : (i : Int) < r.count := by
      have small := List.mem_range.mp member
      omega
    exact Function.update_of_ne
      (r.index_ne (by omega) before room) a r.cells
  · exact congrArg (fun x => [x]) (Function.update_self r.head a r.cells)

/-- The element at `tail` is the first one. -/
theorem toList_pop (stored : 0 < r.count) :
    r.toList = r.cells r.tail :: (r.pop stored).toList := by
  have fewer : r.count.toNat = (r.count - 1).toNat + 1 := by omega
  rw [toList, fewer, List.range_succ_eq_map, List.map_cons, List.map_map]
  congr 1
  · exact congrArg r.cells r.index_zero
  · refine List.map_congr_left ?_
    intro i _
    have same : (r.pop stored).index i = r.index ((i : Int) + 1) := by
      change ((r.tail + 1) % r.capacity + i) % r.capacity = _
      rw [Int.emod_add_emod, index]
      congr 1
      ring
    exact (congrArg r.cells same).symm

end Contents

end RingBuffer
