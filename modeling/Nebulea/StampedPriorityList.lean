import Mathlib.Data.List.Sort
import Mathlib.Tactic.Common

/-!
# Lists ordered by priority and by time of insertion

A list kept in increasing order of priority by `List.orderedInsert` and read
from its end is a priority queue that serves equal priorities first come, first
served.  Stamping every insertion with a growing counter makes the order
strict: later elements have a higher priority, or the same priority and an
earlier stamp.
-/

namespace StampedPriority

variable {Item : Type} (priority : Item → Int) (stamp : Item → Nat)

/-- The strict order from the front of the list to its end. -/
def Before (first second : Item) : Prop :=
  priority first < priority second ∨
    priority first = priority second ∧ stamp second < stamp first

/-- Every element stands before all elements that follow it. -/
def Ordered (items : List Item) : Prop :=
  items.Pairwise (Before priority stamp)

variable {priority stamp} {items : List Item}

theorem ordered_nil : Ordered priority stamp ([] : List Item) :=
  List.Pairwise.nil

theorem Ordered.nodup (ordered : Ordered priority stamp items) :
    items.Nodup := by
  refine ordered.imp ?_
  intro first second before same
  subst same
  rcases before with lower | ⟨-, earlier⟩
  · exact lt_irrefl _ lower
  · exact lt_irrefl _ earlier

theorem Ordered.sublist {fewer : List Item}
    (ordered : Ordered priority stamp items) (sub : fewer.Sublist items) :
    Ordered priority stamp fewer :=
  List.Pairwise.sublist sub ordered

/-- Only the keys of the listed elements matter. -/
theorem Ordered.congr {priority' : Item → Int} {stamp' : Item → Nat}
    (ordered : Ordered priority stamp items)
    (samePriority : ∀ item ∈ items, priority' item = priority item)
    (sameStamp : ∀ item ∈ items, stamp' item = stamp item) :
    Ordered priority' stamp' items := by
  refine List.Pairwise.imp_of_mem ?_ ordered
  intro first second firstMem secondMem before
  simpa only [Before, samePriority first firstMem, samePriority second secondMem,
    sameStamp first firstMem, sameStamp second secondMem] using before

/-- Inserting an element stamped later than all others keeps the order. -/
theorem Ordered.orderedInsert (ordered : Ordered priority stamp items)
    (item : Item) (latest : ∀ other ∈ items, stamp other < stamp item) :
    Ordered priority stamp
      (items.orderedInsert (fun first second =>
        priority first ≤ priority second) item) := by
  induction items with
  | nil => exact List.pairwise_singleton _ _
  | cons head tail ih =>
      obtain ⟨headBefore, tailOrdered⟩ := List.pairwise_cons.mp ordered
      rw [List.orderedInsert]
      split
      · rename_i itemLe
        refine List.pairwise_cons.mpr ⟨?_, ordered⟩
        intro other otherMem
        have headLe : priority head ≤ priority other := by
          rcases List.mem_cons.mp otherMem with rfl | inTail
          · exact le_rfl
          · rcases headBefore other inTail with lower | ⟨same, -⟩
            · exact lower.le
            · exact same.le
        rcases lt_or_eq_of_le (itemLe.trans headLe) with lower | same
        · exact Or.inl lower
        · exact Or.inr ⟨same, latest other otherMem⟩
      · rename_i headLower
        refine List.pairwise_cons.mpr ⟨?_, ?_⟩
        · intro other otherMem
          rcases (List.mem_orderedInsert _).mp otherMem with rfl | inTail
          · exact Or.inl (not_le.mp headLower)
          · exact headBefore other inTail
        · exact ih tailOrdered fun other otherMem =>
            latest other (List.mem_cons_of_mem _ otherMem)

/-- The end of the list holds a highest priority, and among those the earliest
insertion. -/
theorem Ordered.before_last {last item : Item}
    (ordered : Ordered priority stamp items)
    (atEnd : items.getLast? = some last) (member : item ∈ items) :
    item = last ∨ Before priority stamp item last := by
  obtain ⟨front, rfl⟩ := List.getLast?_eq_some_iff.mp atEnd
  rcases List.mem_append.mp member with inFront | isLast
  · exact Or.inr ((List.pairwise_append.mp ordered).2.2 item inFront last (by simp))
  · exact Or.inl (by simpa using isLast)

theorem Ordered.priority_le_last {last item : Item}
    (ordered : Ordered priority stamp items)
    (atEnd : items.getLast? = some last) (member : item ∈ items) :
    priority item ≤ priority last := by
  rcases ordered.before_last atEnd member with rfl | lower | ⟨same, -⟩
  · exact le_rfl
  · exact lower.le
  · exact same.le

/-- Removing the last element by value and by position agree. -/
theorem dropLast_eq_erase [DecidableEq Item] {last : Item}
    (distinct : items.Nodup) (atEnd : items.getLast? = some last) :
    items.dropLast = items.erase last := by
  obtain ⟨front, rfl⟩ := List.getLast?_eq_some_iff.mp atEnd
  have notInFront : last ∉ front := by
    intro inFront
    exact (List.nodup_append.mp distinct).2.2 last inFront last (by simp) rfl
  rw [List.dropLast_concat, List.erase_append_right _ notInFront]
  simp

end StampedPriority
