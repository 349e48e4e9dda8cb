import Nebulea.HashTableLookup

/-!
# The hash table is a finite map

The keys are compared by an equivalence that the hash function respects.  Each
class of keys has at most one active slot, which a search gets to before any
empty slot, and the counters count slots.  Growth and shrinking keep the
pairs, and every operation leaves a third of the slots empty.
-/

namespace Nebulea

variable {Key Value : Type}

/-- A slot that has held a pair. -/
def Slot.Used : Slot Key Value → Bool
  | .empty => false
  | _ => true

/-- A slot that holds a pair. -/
def Slot.Active : Slot Key Value → Bool
  | .active _ _ _ => true
  | _ => false

namespace HashTable

/-- What `hash_init` expects of the functions it is given. -/
structure Lawful (map : HashTable Key Value) : Prop where
  refl : ∀ key, map.cmp key key = true
  symm : ∀ key key', map.cmp key key' = true → map.cmp key' key = true
  trans : ∀ key key' key'', map.cmp key key' = true →
    map.cmp key' key'' = true → map.cmp key key'' = true
  hash : ∀ key key', map.cmp key key' = true → map.hfunc key = map.hfunc key'
  small : ∀ key, map.hfunc key < 0x100000000

/-- Keys of one class compare alike. -/
theorem Lawful.cmp_congr {map : HashTable Key Value} (lawful : map.Lawful)
    {key key₁ : Key} (same : map.cmp key key₁ = true) (key' : Key) :
    map.cmp key₁ key' = map.cmp key key' := by
  rw [Bool.eq_iff_iff]
  constructor
  · exact lawful.trans _ _ _ same
  · exact lawful.trans _ _ _ (lawful.symm _ _ same)

/-- The table holds this value for the class of `key`. -/
def Holds (map : HashTable Key Value) (key : Key) (value : Value) : Prop :=
  ∃ slot ≤ map.mask, ∃ key' hash,
    map.table slot = .active key' value hash ∧ map.cmp key' key = true

/-- The number of slots with a property. -/
def tally (map : HashTable Key Value) (property : Slot Key Value → Bool) :
    Nat :=
  (List.range (map.mask + 1)).countP fun slot => property (map.table slot)

/-- Slots, counters and hash codes agree. -/
structure Ok (map : HashTable Key Value) : Prop where
  lawful : map.Lawful
  size : ∃ k, 3 ≤ k ∧ k ≤ 31 ∧ map.mask + 1 = 2 ^ k
  reached : ∀ slot ≤ map.mask, ∀ key value hash,
    map.table slot = .active key value hash →
      hash = map.hfunc key ∧ map.ReachedBy hash slot
  unique : ∀ slot ≤ map.mask, ∀ other ≤ map.mask,
    ∀ key value hash key' value' hash',
      map.table slot = .active key value hash →
      map.table other = .active key' value' hash' →
        map.cmp key key' = true → slot = other
  count : map.count = map.tally Slot.Active
  fill : map.fill = map.tally Slot.Used

/-- There is an empty slot. -/
def Room (map : HashTable Key Value) : Prop :=
  map.fill ≤ map.mask

section Searching

variable {map : HashTable Key Value} {key : Key}

/-- The pair of a key is the one the loop looks for. -/
theorem Ok.matches_iff (ok : map.Ok) {slot : Nat} (inside : slot ≤ map.mask) :
    map.Matches key (map.hfunc key) slot ↔
      ∃ key' value hash, map.table slot = .active key' value hash ∧
        map.cmp key' key = true := by
  constructor
  · rintro ⟨key', value, hash, content, rfl | ⟨-, same⟩⟩
    · exact ⟨key', value, hash, content, ok.lawful.refl key'⟩
    · exact ⟨key', value, hash, content, same⟩
  · rintro ⟨key', value, hash, content, same⟩
    have isHash := (ok.reached slot inside key' value hash content).1
    exact ⟨key', value, hash, content,
      .inr ⟨isHash.trans (ok.lawful.hash key' key same), same⟩⟩

/-- A table with fewer used slots than slots has an empty one. -/
theorem exists_empty_of_tally (fewer : map.tally Slot.Used ≤ map.mask) :
    ∃ slot ≤ map.mask, map.table slot = .empty := by
  by_contra noneEmpty
  push Not at noneEmpty
  have all : map.tally Slot.Used = (List.range (map.mask + 1)).length := by
    apply List.countP_eq_length.mpr
    intro slot inside
    have used := noneEmpty slot (Nat.lt_succ_iff.mp (List.mem_range.mp inside))
    cases content : map.table slot with
    | empty => exact absurd content used
    | active | deleted => rfl
  rw [List.length_range] at all
  omega

/-- A table with room has an empty slot. -/
theorem Ok.exists_empty (ok : map.Ok) (room : map.Room) :
    ∃ slot ≤ map.mask, map.table slot = .empty :=
  exists_empty_of_tally (ok.fill ▸ room)

variable [DecidableEq Key]

/-- `hash_lookup` returns the slot of the key, or a slot for a new pair when
the table does not hold the key. -/
theorem Ok.hashLookup (ok : map.Ok) (room : map.Room) (key : Key) :
    ∃ slot ≤ map.mask, map.hashLookup key (map.hfunc key) = some slot ∧
      map.ReachedBy (map.hfunc key) slot ∧
      ((∃ key' value hash, map.table slot = .active key' value hash ∧
          map.cmp key' key = true) ∨
        (map.table slot = .empty ∨ map.table slot = .deleted) ∧
          ∀ value, ¬ map.Holds key value) := by
  obtain ⟨k, -, width, size⟩ := ok.size
  obtain ⟨free, inside, isEmpty⟩ := ok.exists_empty room
  obtain ⟨n, inTime, visits⟩ := slotAt_visits (ok.lawful.small key)
    (width.trans (by decide)) size inside
  rw [← visits] at isEmpty
  obtain ⟨slot, found, reached, outcome⟩ :=
    hashLookup_cases key inTime isEmpty
  have slotInside : slot ≤ map.mask := by
    obtain ⟨m, rfl, -⟩ := reached
    exact slotAt_le size m
  refine ⟨slot, slotInside, found, reached, ?_⟩
  rcases outcome with isMatch | ⟨isFree, noMatch⟩
  · exact .inl ((ok.matches_iff slotInside).mp isMatch)
  · refine .inr ⟨isFree, ?_⟩
    rintro value ⟨other, otherInside, key', hash, content, same⟩
    have isReached := ok.reached other otherInside key' value hash content
    refine noMatch other ?_ ((ok.matches_iff otherInside).mpr
      ⟨key', value, hash, content, same⟩)
    rw [← ok.lawful.hash key' key same, ← isReached.1]
    exact isReached.2

omit [DecidableEq Key] in
theorem Ok.value_unique (ok : map.Ok) {value value' : Value}
    (holds : map.Holds key value) (holds' : map.Holds key value') :
    value = value' := by
  obtain ⟨slot, inside, key', hash, content, same⟩ := holds
  obtain ⟨other, inside', key'', hash', content', same'⟩ := holds'
  have equal := ok.unique slot inside other inside' _ _ _ _ _ _ content content'
    (ok.lawful.trans _ _ _ same (ok.lawful.symm _ _ same'))
  subst equal
  rw [content] at content'
  cases content'
  rfl

/-- `hash_get`. -/
theorem Ok.hashGet (ok : map.Ok) (room : map.Room) (key : Key)
    (default : Value) :
    (∀ value, map.Holds key value →
      map.hashGet key default = some value) ∧
    ((∀ value, ¬ map.Holds key value) →
      map.hashGet key default = some default) := by
  obtain ⟨slot, inside, found, -, outcome⟩ := ok.hashLookup room key
  unfold HashTable.hashGet
  rw [found]
  rcases outcome with ⟨key', value, hash, content, same⟩ | ⟨isFree, absent⟩
  · have holds : map.Holds key value :=
      ⟨slot, inside, key', hash, content, same⟩
    constructor
    · intro value' holds'
      simp [content, ok.value_unique holds holds']
    · intro absent
      exact absurd holds (absent value)
  · constructor
    · intro value holds
      exact absurd holds (absent value)
    · intro _
      rcases isFree with content | content <;> simp [content]

/-- `hash_isset`. -/
theorem Ok.hashIsset (ok : map.Ok) (room : map.Room) (key : Key) :
    (∀ value, map.Holds key value → map.hashIsset key = some true) ∧
    ((∀ value, ¬ map.Holds key value) → map.hashIsset key = some false) := by
  obtain ⟨slot, inside, found, -, outcome⟩ := ok.hashLookup room key
  unfold HashTable.hashIsset
  rw [found]
  rcases outcome with ⟨key', value, hash, content, same⟩ | ⟨isFree, absent⟩
  · constructor
    · intro _ _
      simp [content]
    · intro absent
      exact absurd ⟨slot, inside, key', hash, content, same⟩ (absent value)
  · constructor
    · intro value holds
      exact absurd holds (absent value)
    · intro _
      rcases isFree with content | content <;> simp [content]

end Searching

/-! ## Changing one slot -/

section Changing

variable {map map' : HashTable Key Value} {slot : Nat}
variable {content : Slot Key Value}

/-- The numbers of slots with a property before and after a change. -/
theorem tally_update (property : Slot Key Value → Bool)
    (sameMask : map'.mask = map.mask) (inside : slot ≤ map.mask)
    (changed : map'.table = Function.update map.table slot content) :
    map'.tally property + (if property (map.table slot) then 1 else 0) =
      map.tally property + if property content then 1 else 0 := by
  have member : slot ∈ List.range (map.mask + 1) := by
    simpa [Nat.lt_succ_iff] using inside
  have split := List.perm_cons_erase member
  have rest : ((List.range (map.mask + 1)).erase slot).countP
        (fun other => property (map'.table other)) =
      ((List.range (map.mask + 1)).erase slot).countP
        (fun other => property (map.table other)) := by
    apply List.countP_congr
    intro other stays
    have distinct := ((List.nodup_range.mem_erase_iff).mp stays).1
    rw [changed, Function.update_of_ne distinct]
  unfold tally
  rw [sameMask, split.countP_eq, split.countP_eq, List.countP_cons,
    List.countP_cons, rest, changed, Function.update_self]
  omega

theorem ReachedBy.mono {hash other : Nat} (reached : map.ReachedBy hash other)
    (sameMask : map'.mask = map.mask)
    (used : ∀ s, map.table s ≠ .empty → map'.table s ≠ .empty) :
    map'.ReachedBy hash other := by
  obtain ⟨n, isSlot, before⟩ := reached
  refine ⟨n, sameMask ▸ isSlot, ?_⟩
  intro m early
  rw [sameMask]
  exact used _ (before m early)

/-- A used slot stays used when one slot gets a content that is not empty. -/
theorem used_update (changed : map'.table = Function.update map.table slot
    content) (notEmpty : content ≠ .empty) (s : Nat)
    (used : map.table s ≠ .empty) : map'.table s ≠ .empty := by
  rw [changed]
  by_cases same : s = slot
  · subst same
    rwa [Function.update_self]
  · rwa [Function.update_of_ne same]

theorem Lawful.congr (lawful : map.Lawful) (sameHash : map'.hfunc = map.hfunc)
    (sameCmp : map'.cmp = map.cmp) : map'.Lawful := by
  constructor
  · rw [sameCmp]
    exact lawful.refl
  · rw [sameCmp]
    exact lawful.symm
  · rw [sameCmp]
    exact lawful.trans
  · rw [sameCmp, sameHash]
    exact lawful.hash
  · rw [sameHash]
    exact lawful.small

/-- The tables differ in their slots and counters only. -/
structure SameShape (map map' : HashTable Key Value) : Prop where
  mask : map'.mask = map.mask
  hfunc : map'.hfunc = map.hfunc
  cmp : map'.cmp = map.cmp

variable {key : Key} {value : Value}

/-- What a slot holds after the change of one slot. -/
theorem active_update {s : Nat} {key' : Key} {value' : Value} {hash' : Nat}
    (changed : map'.table = Function.update map.table slot content)
    (active : map'.table s = .active key' value' hash') :
    s = slot ∧ content = .active key' value' hash' ∨
      s ≠ slot ∧ map.table s = .active key' value' hash' := by
  rw [changed] at active
  by_cases same : s = slot
  · subst same
    rw [Function.update_self] at active
    exact .inl ⟨rfl, active⟩
  · rw [Function.update_of_ne same] at active
    exact .inr ⟨same, active⟩

/-- A pair for a new key is written to a slot that a search gets to. -/
theorem Ok.put (ok : map.Ok) (shape : map.SameShape map')
    (inside : slot ≤ map.mask)
    (isFree : map.table slot = .empty ∨ map.table slot = .deleted)
    (reached : map.ReachedBy (map.hfunc key) slot)
    (absent : ∀ value, ¬ map.Holds key value)
    (changed : map'.table = Function.update map.table slot
      (.active key value (map.hfunc key)))
    (count : map'.count = map.count + 1)
    (fill : map'.fill = map.fill + if (map.table slot).Used then 0 else 1) :
    map'.Ok := by
  have used := used_update changed (by simp)
  have tallied := tally_update Slot.Used shape.mask inside changed
  have actives := tally_update Slot.Active shape.mask inside changed
  have alone (s : Nat) (key' : Key) (value' : Value) (hash' : Nat)
      (sInside : s ≤ map.mask)
      (active : map.table s = .active key' value' hash') :
      map.cmp key' key ≠ true := fun same =>
    absent value' ⟨s, sInside, key', hash', active, same⟩
  constructor
  · exact ok.lawful.congr shape.hfunc shape.cmp
  · rw [shape.mask]
    exact ok.size
  · intro s sInside key' value' hash' active
    rw [shape.mask] at sInside
    rw [shape.hfunc]
    rcases active_update changed active with ⟨rfl, isNew⟩ | ⟨-, before⟩
    · cases isNew
      exact ⟨rfl, reached.mono shape.mask used⟩
    · obtain ⟨isHash, isReached⟩ := ok.reached s sInside _ _ _ before
      exact ⟨isHash, isReached.mono shape.mask used⟩
  · intro s sInside t tInside k v h k' v' h' active active' same
    rw [shape.mask] at sInside tInside
    rw [shape.cmp] at same
    rcases active_update changed active with ⟨rfl, isNew⟩ | ⟨-, before⟩ <;>
      rcases active_update changed active' with ⟨rfl, isNew'⟩ | ⟨-, before'⟩
    · rfl
    · cases isNew
      exact absurd (ok.lawful.symm _ _ same) (alone t k' v' h' tInside before')
    · cases isNew'
      exact absurd same (alone s k v h sInside before)
    · exact ok.unique s sInside t tInside _ _ _ _ _ _ before before' same
  · have notActive : (map.table slot).Active = false := by
      rcases isFree with content | content <;> rw [content] <;> rfl
    rw [notActive] at actives
    simp only [Slot.Active, Bool.false_eq_true, if_false, if_true] at actives
    rw [count, ok.count]
    omega
  · rw [fill, ok.fill]
    rcases isFree with content | content <;> rw [content] at tallied ⊢ <;>
      simp only [Slot.Used, Bool.false_eq_true, if_false, if_true] at tallied ⊢ <;>
      omega

/-- The pairs after a pair for a new key has been written. -/
theorem holds_put (lawful : map.Lawful) (shape : map.SameShape map')
    (inside : slot ≤ map.mask)
    (isFree : map.table slot = .empty ∨ map.table slot = .deleted)
    (absent : ∀ value, ¬ map.Holds key value) {hash : Nat}
    (changed : map'.table = Function.update map.table slot
      (.active key value hash)) (key' : Key) (value' : Value) :
    map'.Holds key' value' ↔
      map.cmp key key' = true ∧ value' = value ∨
        map.cmp key key' = false ∧ map.Holds key' value' := by
  have notActive : ∀ k v h, map.table slot ≠ .active k v h := by
    rcases isFree with content | content <;> simp [content]
  constructor
  · rintro ⟨s, sInside, k, h, active, same⟩
    rw [shape.mask] at sInside
    rw [shape.cmp] at same
    rcases active_update changed active with ⟨-, isNew⟩ | ⟨-, before⟩
    · cases isNew
      exact .inl ⟨same, rfl⟩
    · refine .inr ⟨?_, s, sInside, k, h, before, same⟩
      rw [Bool.eq_false_iff]
      intro alike
      exact absent value' ⟨s, sInside, k, h, before,
        lawful.trans _ _ _ same (lawful.symm _ _ alike)⟩
  · rintro (⟨same, rfl⟩ | ⟨-, s, sInside, k, h, before, same⟩)
    · refine ⟨slot, shape.mask ▸ inside, key, hash, ?_, shape.cmp ▸ same⟩
      rw [changed, Function.update_self]
    · refine ⟨s, shape.mask ▸ sInside, k, h, ?_, shape.cmp ▸ same⟩
      have distinct : s ≠ slot := by
        rintro rfl
        exact notActive k value' h before
      rw [changed, Function.update_of_ne distinct, before]

/-- The value of a pair is replaced. -/
theorem Ok.overwrite (ok : map.Ok) (shape : map.SameShape map')
    (inside : slot ≤ map.mask) {before : Value} {hash : Nat}
    (active : map.table slot = .active key before hash)
    (changed : map'.table = Function.update map.table slot
      (.active key value hash))
    (count : map'.count = map.count) (fill : map'.fill = map.fill) :
    map'.Ok := by
  have used := used_update changed (by simp)
  have tallied := tally_update Slot.Used shape.mask inside changed
  have actives := tally_update Slot.Active shape.mask inside changed
  have earlier {s : Nat} {k : Key} {v : Value} {h : Nat}
      (holds : map'.table s = .active k v h) :
      ∃ v', map.table s = .active k v' h := by
    rcases active_update changed holds with ⟨rfl, isNew⟩ | ⟨-, same⟩
    · cases isNew
      exact ⟨before, active⟩
    · exact ⟨v, same⟩
  rw [active] at tallied actives
  constructor
  · exact ok.lawful.congr shape.hfunc shape.cmp
  · rw [shape.mask]
    exact ok.size
  · intro s sInside k v h holds
    rw [shape.mask] at sInside
    rw [shape.hfunc]
    obtain ⟨v', same⟩ := earlier holds
    obtain ⟨isHash, isReached⟩ := ok.reached s sInside _ _ _ same
    exact ⟨isHash, isReached.mono shape.mask used⟩
  · intro s sInside t tInside k v h k' v' h' holds holds' same
    rw [shape.mask] at sInside tInside
    rw [shape.cmp] at same
    obtain ⟨w, isSlot⟩ := earlier holds
    obtain ⟨w', isOther⟩ := earlier holds'
    exact ok.unique s sInside t tInside _ _ _ _ _ _ isSlot isOther same
  · rw [count, ok.count]
    exact Nat.add_right_cancel actives.symm
  · rw [fill, ok.fill]
    exact Nat.add_right_cancel tallied.symm

theorem Ok.holds_overwrite (ok : map.Ok) (shape : map.SameShape map')
    (inside : slot ≤ map.mask) {before : Value} {hash : Nat}
    (active : map.table slot = .active key before hash)
    (changed : map'.table = Function.update map.table slot
      (.active key value hash)) (key' : Key) (value' : Value) :
    map'.Holds key' value' ↔
      map.cmp key key' = true ∧ value' = value ∨
        map.cmp key key' = false ∧ map.Holds key' value' := by
  constructor
  · rintro ⟨s, sInside, k, h, holds, same⟩
    rw [shape.mask] at sInside
    rw [shape.cmp] at same
    rcases active_update changed holds with ⟨-, isNew⟩ | ⟨distinct, same'⟩
    · cases isNew
      exact .inl ⟨same, rfl⟩
    · refine .inr ⟨?_, s, sInside, k, h, same', same⟩
      rw [Bool.eq_false_iff]
      intro alike
      exact distinct (ok.unique s sInside slot inside _ _ _ _ _ _ same' active
        (ok.lawful.trans _ _ _ same (ok.lawful.symm _ _ alike)))
  · rintro (⟨same, rfl⟩ | ⟨unlike, s, sInside, k, h, holds, same⟩)
    · refine ⟨slot, shape.mask ▸ inside, key, hash, ?_, shape.cmp ▸ same⟩
      rw [changed, Function.update_self]
    · refine ⟨s, shape.mask ▸ sInside, k, h, ?_, shape.cmp ▸ same⟩
      have distinct : s ≠ slot := by
        rintro rfl
        rw [active] at holds
        cases holds
        rw [same] at unlike
        cases unlike
      rw [changed, Function.update_of_ne distinct, holds]

/-- A pair is removed. -/
theorem Ok.erase (ok : map.Ok) (shape : map.SameShape map')
    (inside : slot ≤ map.mask) {hash : Nat}
    (active : map.table slot = .active key value hash)
    (changed : map'.table = Function.update map.table slot .deleted)
    (count : map'.count = map.count - 1) (fill : map'.fill = map.fill) :
    map'.Ok := by
  have used := used_update changed (by simp)
  have tallied := tally_update Slot.Used shape.mask inside changed
  have actives := tally_update Slot.Active shape.mask inside changed
  have before {s : Nat} {k : Key} {v : Value} {h : Nat}
      (holds : map'.table s = .active k v h) : map.table s = .active k v h := by
    rcases active_update changed holds with ⟨-, isNew⟩ | ⟨-, before⟩
    · cases isNew
    · exact before
  constructor
  · exact ok.lawful.congr shape.hfunc shape.cmp
  · rw [shape.mask]
    exact ok.size
  · intro s sInside k v h holds
    rw [shape.mask] at sInside
    rw [shape.hfunc]
    obtain ⟨isHash, isReached⟩ := ok.reached s sInside _ _ _ (before holds)
    exact ⟨isHash, isReached.mono shape.mask used⟩
  · intro s sInside t tInside k v h k' v' h' holds holds' same
    rw [shape.mask] at sInside tInside
    rw [shape.cmp] at same
    exact ok.unique s sInside t tInside _ _ _ _ _ _ (before holds)
      (before holds') same
  · rw [active] at actives
    simp only [Slot.Active, Bool.false_eq_true, if_false, if_true] at actives
    rw [count, ok.count]
    omega
  · rw [active] at tallied
    simp only [Slot.Used, if_true] at tallied
    rw [fill, ok.fill]
    omega

/-- The pairs after a pair has been removed. -/
theorem Ok.holds_erase (ok : map.Ok) (shape : map.SameShape map')
    (inside : slot ≤ map.mask) {hash : Nat}
    (active : map.table slot = .active key value hash)
    (changed : map'.table = Function.update map.table slot .deleted)
    (key' : Key) (value' : Value) :
    map'.Holds key' value' ↔
      map.cmp key key' = false ∧ map.Holds key' value' := by
  constructor
  · rintro ⟨s, sInside, k, h, holds, same⟩
    rw [shape.mask] at sInside
    rw [shape.cmp] at same
    rcases active_update changed holds with ⟨-, isNew⟩ | ⟨distinct, before⟩
    · cases isNew
    · refine ⟨?_, s, sInside, k, h, before, same⟩
      rw [Bool.eq_false_iff]
      intro alike
      exact distinct (ok.unique s sInside slot inside _ _ _ _ _ _ before active
        (ok.lawful.trans _ _ _ same (ok.lawful.symm _ _ alike)))
  · rintro ⟨other, s, sInside, k, h, before, same⟩
    refine ⟨s, shape.mask ▸ sInside, k, h, ?_, shape.cmp ▸ same⟩
    have distinct : s ≠ slot := by
      rintro rfl
      rw [active] at before
      cases before
      rw [same] at other
      cases other
    rw [changed, Function.update_of_ne distinct, before]

end Changing

/-! ## What `hash_set` and `hash_del` do at the slot they find -/

section Slots

variable [DecidableEq Key] {map : HashTable Key Value} {key : Key} {slot : Nat}

theorem hashSet_of_active {key' : Key} {value' : Value} {hash' : Nat}
    (found : map.hashLookup key (map.hfunc key) = some slot)
    (content : map.table slot = .active key' value' hash') (value : Value)
    (allocated : Bool) :
    map.hashSet key value allocated = some (0, { map with
      table := Function.update map.table slot
        (.active key' value hash') }) := by
  simp [HashTable.hashSet, found, content]

theorem hashSet_of_empty
    (found : map.hashLookup key (map.hfunc key) = some slot)
    (content : map.table slot = .empty) (value : Value) (allocated : Bool) :
    map.hashSet key value allocated = hashUpdate { map with
      count := map.count + 1
      fill := map.fill + 1
      table := Function.update map.table slot
        (.active key value (map.hfunc key)) } allocated := by
  simp [HashTable.hashSet, found, content]

theorem hashSet_of_deleted
    (found : map.hashLookup key (map.hfunc key) = some slot)
    (content : map.table slot = .deleted) (value : Value) (allocated : Bool) :
    map.hashSet key value allocated = hashUpdate { map with
      count := map.count + 1
      table := Function.update map.table slot
        (.active key value (map.hfunc key)) } allocated := by
  simp [HashTable.hashSet, found, content]

theorem hashDel_of_active {key' : Key} {value' : Value} {hash' : Nat}
    (found : map.hashLookup key (map.hfunc key) = some slot)
    (content : map.table slot = .active key' value' hash')
    (allocated : Bool) :
    map.hashDel key allocated = hashUpdate { map with
      count := map.count - 1
      table := Function.update map.table slot .deleted } allocated := by
  simp [HashTable.hashDel, found, content]

theorem hashDel_of_not_active
    (found : map.hashLookup key (map.hfunc key) = some slot)
    (notActive : (map.table slot).Active = false) (allocated : Bool) :
    map.hashDel key allocated = some (0, map) := by
  cases content : map.table slot with
  | active => simp [content, Slot.Active] at notActive
  | empty | deleted => simp [HashTable.hashDel, found, content]

end Slots

/-! ## Growing and shrinking -/

section Resizing

variable {old map : HashTable Key Value} {newMask : Nat}

/-- `map` is the new table after `hash_copy` has visited some slots of the old
one. -/
structure Copied (old : HashTable Key Value) (newMask : Nat)
    (done : List Nat) (map : HashTable Key Value) : Prop where
  ok : map.Ok
  mask : map.mask = newMask
  hfunc : map.hfunc = old.hfunc
  cmp : map.cmp = old.cmp
  clean : ∀ slot, map.table slot ≠ .deleted
  fill : map.fill = map.count
  count : map.count = done.countP fun slot => (old.table slot).Active
  holds : ∀ key value, map.Holds key value ↔
    ∃ slot ∈ done, ∃ key' hash, old.table slot = .active key' value hash ∧
      old.cmp key' key = true

theorem tally_eq_zero (empty : ∀ slot, map.table slot = .empty)
    (property : Slot Key Value → Bool)
    (unmet : property .empty = false) : map.tally property = 0 := by
  apply List.countP_eq_zero.mpr
  intro slot _
  simp [empty, unmet]

/-- The new table before any slot is copied. -/
theorem Copied.start {k : Nat} (lawful : old.Lawful) (low : 3 ≤ k)
    (high : k ≤ 31) :
    Copied old (2 ^ k - 1) [] (old.hashInitialize (2 ^ k)) := by
  have positive := Nat.two_pow_pos k
  constructor
  · constructor
    · exact lawful.congr rfl rfl
    · exact ⟨k, low, high, Nat.sub_add_cancel positive⟩
    · intro slot _ key value hash active
      cases active
    · intro slot _ other _ key value hash key' value' hash' active
      cases active
    · exact (tally_eq_zero (fun _ => rfl) _ rfl).symm
    · exact (tally_eq_zero (fun _ => rfl) _ rfl).symm
  · rfl
  · rfl
  · rfl
  · intro slot deleted
    cases deleted
  · rfl
  · rfl
  · intro key value
    constructor
    · rintro ⟨slot, -, key', hash, active, -⟩
      cases active
    · rintro ⟨slot, member, -⟩
      cases member

variable [DecidableEq Key]

/-- One turn of `hash_copy`. -/
theorem Copied.turn {done : List Nat} (copied : Copied old newMask done map)
    (ok : old.Ok) (inside : ∀ slot ∈ done, slot ≤ old.mask) {i : Nat}
    (iInside : i ≤ old.mask) (isNew : i ∉ done)
    (room : (old.table i).Active = true → map.count ≤ newMask) :
    ∃ map', map.copySlot (old.table i) = some map' ∧
      Copied old newMask (done ++ [i]) map' := by
  cases content : old.table i with
  | empty | deleted =>
      refine ⟨map, rfl, copied.ok, copied.mask, copied.hfunc, copied.cmp,
        copied.clean, copied.fill, ?_, ?_⟩
      · rw [copied.count, List.countP_append]
        simp [content, Slot.Active]
      · intro key value
        rw [copied.holds]
        simp [content]
  | active key value hash =>
      have isHash := (ok.reached i iInside key value hash content).1
      have isRoom : map.Room := by
        have bound := room (by rw [content]; rfl)
        unfold Room
        rw [copied.fill, copied.mask]
        exact bound
      have absent : ∀ v, ¬ map.Holds key v := by
        intro v holds
        obtain ⟨slot, member, key', hash', active, same⟩ :=
          (copied.holds key v).mp holds
        have equal := ok.unique slot (inside slot member) i iInside _ _ _ _ _ _
          active content same
        exact isNew (equal ▸ member)
      obtain ⟨slot, slotInside, found, reached, outcome⟩ :=
        copied.ok.hashLookup isRoom key
      have isFree : map.table slot = .empty := by
        rcases outcome with ⟨key', v, hash', active, same⟩ |
          ⟨isEmpty | deleted, -⟩
        · exact absurd ⟨slot, slotInside, key', hash', active, same⟩ (absent v)
        · exact isEmpty
        · exact absurd deleted (copied.clean slot)
      have sameHash : hash = map.hfunc key := by
        rw [copied.hfunc]
        exact isHash
      refine ⟨{ map with
        table := Function.update map.table slot (.active key value hash)
        fill := map.fill + 1
        count := map.count + 1 }, ?_, ?_⟩
      · simp [copySlot, found]
      have shape : map.SameShape { map with
          table := Function.update map.table slot (.active key value hash)
          fill := map.fill + 1
          count := map.count + 1 } := ⟨rfl, rfl, rfl⟩
      constructor
      · refine copied.ok.put shape slotInside (.inl isFree) reached absent
          (by rw [sameHash]) rfl ?_
        simp [isFree, Slot.Used]
      · exact copied.mask
      · exact copied.hfunc
      · exact copied.cmp
      · intro s deleted
        by_cases same : s = slot
        · subst same
          simp at deleted
        · simp only [Function.update_of_ne same] at deleted
          exact copied.clean s deleted
      · exact congrArg Nat.succ copied.fill
      · rw [List.countP_append]
        simp [content, Slot.Active, copied.count]
      · intro key' value'
        rw [holds_put copied.ok.lawful shape slotInside (.inl isFree) absent rfl,
          copied.holds, copied.cmp]
        constructor
        · rintro (⟨same, rfl⟩ | ⟨-, s, member, k, h, active, same⟩)
          · exact ⟨i, by simp, key, hash, content, same⟩
          · exact ⟨s, by simp [member], k, h, active, same⟩
        · rintro ⟨s, member, k, h, active, same⟩
          rcases List.mem_append.mp member with isOld | isLast
          · right
            refine ⟨?_, s, isOld, k, h, active, same⟩
            rw [Bool.eq_false_iff]
            intro alike
            have equal := ok.unique s (inside s isOld) i iInside _ _ _ _ _ _
              active content (ok.lawful.trans _ _ _ same
                (ok.lawful.symm _ _ alike))
            exact isNew (equal ▸ isOld)
          · left
            have isI : s = i := by simpa using isLast
            subst isI
            rw [content] at active
            cases active
            exact ⟨same, rfl⟩

/-- `hash_copy`. -/
theorem Copied.hashCopy {done : List Nat} (ok : old.Ok)
    (enough : old.count ≤ newMask) (rest : List Nat)
    (copied : Copied old newMask done map)
    (whole : done ++ rest = List.range (old.mask + 1)) :
    ∃ map', hashCopy old.table rest map = some map' ∧
      Copied old newMask (List.range (old.mask + 1)) map' := by
  induction rest generalizing done map with
  | nil =>
      rw [List.append_nil] at whole
      exact ⟨map, rfl, whole ▸ copied⟩
  | cons i rest ih =>
      have member (s : Nat) (isIn : s ∈ done ++ i :: rest) : s ≤ old.mask := by
        rw [whole] at isIn
        exact Nat.lt_succ_iff.mp (List.mem_range.mp isIn)
      have isNew : i ∉ done := by
        have distinct : (done ++ i :: rest).Nodup := whole ▸ List.nodup_range
        intro again
        exact (List.nodup_append.mp distinct).2.2 i again i (by simp) rfl
      have room : (old.table i).Active = true → map.count ≤ newMask := by
        intro active
        have total := ok.count
        unfold tally at total
        rw [← whole, List.countP_append, List.countP_cons, active] at total
        have counted := copied.count
        simp only [if_true] at total
        omega
      obtain ⟨map', turned, copied'⟩ := copied.turn ok
        (fun s isIn => member s (by simp [isIn])) (member i (by simp)) isNew room
      obtain ⟨final, rested, isCopied⟩ := ih copied'
        (by rw [List.append_assoc]; exact whole)
      refine ⟨final, ?_, isCopied⟩
      rw [HashTable.hashCopy, turned]
      exact rested

/-- `map'` holds the pairs of `map`. -/
structure SamePairs (map map' : HashTable Key Value) : Prop where
  hfunc : map'.hfunc = map.hfunc
  cmp : map'.cmp = map.cmp
  count : map'.count = map.count
  holds : ∀ key value, map'.Holds key value ↔ map.Holds key value

theorem Ok.resize {k : Nat} (ok : map.Ok) (low : 3 ≤ k) (high : k ≤ 31)
    (enough : map.count ≤ 2 ^ k - 1) :
    ∃ map', map.resize (2 ^ k) true = some (0, map') ∧ map'.Ok ∧
      map'.mask + 1 = 2 ^ k ∧ map'.fill = map.count ∧
      map.SamePairs map' := by
  obtain ⟨map', copies, copied⟩ := (Copied.start ok.lawful low high).hashCopy ok
    enough (List.range (map.mask + 1)) rfl
  have count : map'.count = map.count := copied.count.trans ok.count.symm
  refine ⟨map', ?_, copied.ok, ?_, copied.fill.trans count, copied.hfunc,
    copied.cmp, count, ?_⟩
  · simp [HashTable.resize, copies]
  · rw [copied.mask]
    exact Nat.sub_add_cancel (Nat.two_pow_pos k)
  · intro key value
    rw [copied.holds]
    constructor
    · rintro ⟨slot, member, key', hash, active, same⟩
      exact ⟨slot, Nat.lt_succ_iff.mp (List.mem_range.mp member), key', hash,
        active, same⟩
    · rintro ⟨slot, inside, key', hash, active, same⟩
      exact ⟨slot, List.mem_range.mpr (Nat.lt_succ_iff.mpr inside), key', hash,
        active, same⟩

/-- A third of the slots is empty. -/
def Sparse (map : HashTable Key Value) : Prop :=
  3 * map.fill < 2 * (map.mask + 1)

/-- The table is not much larger than its pairs need: it is as small as tables
get, a quarter of its slots is active, or it has just been rebuilt. -/
def Compact (map : HashTable Key Value) : Prop :=
  map.mask + 1 ≤ hashMinSize ∨ map.mask + 1 < 4 * map.count ∨
    map.fill = map.count ∧
      (map.mask + 1 ≤ 16 ∨ map.mask + 1 < 8 * map.count)

/-- The tables between two calls. -/
structure Settled (map : HashTable Key Value) : Prop where
  ok : map.Ok
  sparse : map.Sparse
  compact : map.Compact

omit [DecidableEq Key] in
theorem Settled.room (settled : map.Settled) : map.Room := by
  have sparse := settled.sparse
  unfold Sparse at sparse
  unfold Room
  omega

omit [DecidableEq Key] in
/-- The size of a table that holds few pairs. -/
theorem Settled.size_le (settled : map.Settled) :
    map.mask + 1 ≤ 8 * map.count + 16 := by
  have compact := settled.compact
  unfold Compact hashMinSize at compact
  omega

omit [DecidableEq Key] in
theorem Ok.count_le_fill (ok : map.Ok) : map.count ≤ map.fill := by
  rw [ok.count, ok.fill]
  apply List.countP_mono_left
  intro slot _ active
  cases content : map.table slot with
  | active => rfl
  | empty | deleted =>
      rw [content] at active
      cases active

omit [DecidableEq Key] in
theorem Ok.le_size (ok : map.Ok) : hashMinSize ≤ map.mask + 1 := by
  obtain ⟨k, low, -, size⟩ := ok.size
  rw [size]
  exact Nat.pow_le_pow_right (n := 2) Nat.two_pos low

/-- The sizes `hash_update` chooses are powers of two. -/
theorem hashUpdate_cases {k : Nat} (low : 3 ≤ k) (high : k ≤ 31)
    (size : map.mask + 1 = 2 ^ k) (small : map.mask + 1 < 0x40000000)
    (allocated : Bool) :
    (2 * (map.mask + 1) ≤ 3 * map.fill ∧
        ∃ j, 3 ≤ j ∧ j ≤ 31 ∧ 2 ^ j = 2 * (map.mask + 1) ∧
          map.hashUpdate allocated = map.resize (2 ^ j) allocated) ∨
      (hashMinSize < map.mask + 1 ∧ 4 * map.count ≤ map.mask + 1 ∧
        map.Sparse ∧ ∃ j, 3 ≤ j ∧ j ≤ 31 ∧ 2 ^ j = (map.mask + 1) / 2 ∧
          map.hashUpdate allocated = map.resize (2 ^ j) allocated) ∨
      map.Sparse ∧ ¬ (hashMinSize < map.mask + 1 ∧
          4 * map.count ≤ map.mask + 1) ∧
        map.hashUpdate allocated = some (0, map) := by
  unfold HashTable.hashUpdate
  by_cases grows : 3 * map.fill ≥ 2 * (map.mask + 1)
  · have double : 2 * (map.mask + 1) = 2 ^ (k + 1) := by
      rw [size, pow_succ]
      omega
    have narrow : k + 1 ≤ 31 := by
      by_contra wide
      have isMax : k = 31 := by omega
      subst isMax
      omega
    refine .inl ⟨grows, k + 1, by omega, narrow, double.symm, ?_⟩
    simp only [if_pos grows]
    rw [if_neg (by omega), double]
  right
  have sparse : map.Sparse := by
    unfold Sparse
    omega
  by_cases shrinks : map.mask + 1 > hashMinSize ∧
      4 * map.count ≤ map.mask + 1
  · obtain ⟨j, rfl⟩ := Nat.exists_eq_succ_of_ne_zero (show k ≠ 0 by omega)
    rw [Nat.succ_eq_add_one, pow_succ] at size
    have half : (map.mask + 1) / 2 = 2 ^ j := by omega
    have notMin : 3 ≤ j := by
      by_contra less
      have isTwo : j = 2 := by omega
      subst isTwo
      unfold hashMinSize at shrinks
      omega
    refine .inl ⟨shrinks.1, shrinks.2, sparse, j, notMin, by omega, half.symm, ?_⟩
    simp only [if_neg grows, if_pos shrinks, half]
  · refine .inr ⟨sparse, shrinks, ?_⟩
    simp only [if_neg grows, if_neg shrinks]
    rfl

/-- How `hash_update` chooses the new size. -/
theorem Ok.hashUpdate (ok : map.Ok)
    (bound : 3 * map.fill < 2 * (map.mask + 1) + 3)
    (small : map.mask + 1 < 0x40000000) :
    ∃ map', map.hashUpdate true = some (0, map') ∧ map'.Ok ∧
      map.SamePairs map' ∧
      (2 * (map.mask + 1) ≤ 3 * map.fill ∧
          map'.mask + 1 = 2 * (map.mask + 1) ∧ map'.fill = map.count ∨
        hashMinSize < map.mask + 1 ∧ 4 * map.count ≤ map.mask + 1 ∧
          map'.mask + 1 = (map.mask + 1) / 2 ∧ map'.fill = map.count ∨
        map.Sparse ∧ ¬ (hashMinSize < map.mask + 1 ∧
          4 * map.count ≤ map.mask + 1) ∧ map' = map) := by
  obtain ⟨k, low, high, size⟩ := ok.size
  have fewer := ok.count_le_fill
  rcases hashUpdate_cases low high size small true with
    ⟨grows, j, lowJ, highJ, double, updates⟩ |
      ⟨large, few, -, j, lowJ, highJ, half, updates⟩ |
      ⟨sparse, kept, updates⟩
  · obtain ⟨map', resized, ok', size', fill', pairs⟩ :=
      ok.resize lowJ highJ (by omega)
    exact ⟨map', updates.trans resized, ok', pairs,
      .inl ⟨grows, size'.trans double, fill'⟩⟩
  · obtain ⟨map', resized, ok', size', fill', pairs⟩ :=
      ok.resize lowJ highJ (by omega)
    exact ⟨map', updates.trans resized, ok', pairs,
      .inr (.inl ⟨large, few, size'.trans half, fill'⟩)⟩
  · exact ⟨map, updates, ok, ⟨rfl, rfl, rfl, fun _ _ => Iff.rfl⟩,
      .inr (.inr ⟨sparse, kept, rfl⟩)⟩

/-- A table that was settled before one slot changed is settled again after
`hash_update`. -/
theorem Ok.settle (ok : map.Ok)
    (bound : 3 * map.fill < 2 * (map.mask + 1) + 3)
    (small : map.mask + 1 < 0x40000000)
    (compact : map.mask + 1 ≤ 16 ∨ map.mask + 1 < 8 * map.count + 8)
    (filled : 2 * (map.mask + 1) ≤ 3 * map.fill →
      map.mask + 1 ≤ hashMinSize ∨ map.mask + 1 < 4 * map.count) :
    ∃ map', map.hashUpdate true = some (0, map') ∧ map'.Settled ∧
      map.SamePairs map' := by
  obtain ⟨map', updated, ok', pairs, resized⟩ := ok.hashUpdate bound small
  have large := ok.le_size
  unfold hashMinSize at filled large
  have count' := pairs.count
  have fewer := ok.count_le_fill
  refine ⟨map', updated, ⟨ok', ?_, ?_⟩, pairs⟩
  · unfold Sparse
    unfold hashMinSize at resized
    rcases resized with ⟨grew, size, isFill⟩ | ⟨large, few, size, isFill⟩ |
      ⟨isSparse, -, rfl⟩
    · omega
    · omega
    · exact isSparse
  · unfold Compact hashMinSize
    unfold hashMinSize at resized
    rcases resized with ⟨grew, size, isFill⟩ | ⟨large, few, size, isFill⟩ |
      ⟨-, kept, rfl⟩ <;> omega

/-- `hash_set` on a key that the table does not hold. -/
theorem Settled.hashSet (settled : map.Settled)
    (small : map.mask + 1 < 0x40000000) (key : Key) (value : Value)
    (absent : ∀ value, ¬ map.Holds key value) :
    ∃ map', map.hashSet key value true = some (0, map') ∧ map'.Settled ∧
      map'.hfunc = map.hfunc ∧ map'.cmp = map.cmp ∧
      map'.count = map.count + 1 ∧
      ∀ key' value', map'.Holds key' value' ↔
        map.cmp key key' = true ∧ value' = value ∨
          map.cmp key key' = false ∧ map.Holds key' value' := by
  have ok := settled.ok
  obtain ⟨slot, inside, found, reached, outcome⟩ :=
    ok.hashLookup settled.room key
  have isFree : map.table slot = .empty ∨ map.table slot = .deleted := by
    rcases outcome with ⟨key', v, hash, active, same⟩ | ⟨isFree, -⟩
    · exact absurd ⟨slot, inside, key', hash, active, same⟩ (absent v)
    · exact isFree
  generalize isSet : { map with
    count := map.count + 1
    fill := map.fill + if (map.table slot).Used then 0 else 1
    table := Function.update map.table slot
      (.active key value (map.hfunc key)) } = written
  have shape : map.SameShape written := by
    rw [← isSet]
    exact ⟨rfl, rfl, rfl⟩
  have changed : written.table = Function.update map.table slot
      (.active key value (map.hfunc key)) := by
    rw [← isSet]
  have count : written.count = map.count + 1 := by
    rw [← isSet]
  have fill : written.fill =
      map.fill + if (map.table slot).Used then 0 else 1 := by
    rw [← isSet]
  have written_ok : written.Ok :=
    ok.put shape inside isFree reached absent changed count fill
  have updates : map.hashSet key value true = written.hashUpdate true := by
    rw [← isSet]
    rcases isFree with content | content
    · rw [hashSet_of_empty found content]
      simp [content, Slot.Used]
    · rw [hashSet_of_deleted found content]
      simp [content, Slot.Used]
  have more : written.fill ≤ map.fill + 1 := by
    rw [fill]
    split <;> omega
  have sparse := settled.sparse
  have compact := settled.compact
  have sameMask := shape.mask
  unfold Sparse at sparse
  unfold Compact hashMinSize at compact
  obtain ⟨map', updated, settled', pairs⟩ := written_ok.settle (by omega)
    (by omega) (by omega) (by unfold hashMinSize; omega)
  refine ⟨map', updates.trans updated, settled',
    pairs.hfunc.trans shape.hfunc, pairs.cmp.trans shape.cmp,
    pairs.count.trans count, ?_⟩
  intro key' value'
  rw [pairs.holds, holds_put ok.lawful shape inside isFree absent changed]

/-- `hash_set` on a key that the table holds. -/
theorem Settled.hashSet_present (settled : map.Settled) (key : Key)
    (value : Value) {before : Value} (present : map.Holds key before) :
    ∃ map', map.hashSet key value true = some (0, map') ∧ map'.Settled ∧
      map'.hfunc = map.hfunc ∧ map'.cmp = map.cmp ∧
      ∀ key' value', map'.Holds key' value' ↔
        map.cmp key key' = true ∧ value' = value ∨
          map.cmp key key' = false ∧ map.Holds key' value' := by
  have ok := settled.ok
  obtain ⟨slot, inside, found, -, outcome⟩ := ok.hashLookup settled.room key
  obtain ⟨key₁, value₁, hash₁, active, same⟩ :=
    outcome.resolve_right fun free => free.2 before present
  generalize isSet : { map with
    table := Function.update map.table slot (.active key₁ value hash₁) } =
      written
  have shape : map.SameShape written := by
    rw [← isSet]
    exact ⟨rfl, rfl, rfl⟩
  have changed : written.table = Function.update map.table slot
      (.active key₁ value hash₁) := by
    rw [← isSet]
  have count : written.count = map.count := by
    rw [← isSet]
  have fill : written.fill = map.fill := by
    rw [← isSet]
  refine ⟨written, (hashSet_of_active found active value true).trans
    (by rw [isSet]), ⟨ok.overwrite shape inside active changed count fill, ?_, ?_⟩,
    shape.hfunc, shape.cmp, ?_⟩
  · unfold Sparse
    rw [fill, shape.mask]
    exact settled.sparse
  · unfold Compact
    rw [fill, count, shape.mask]
    exact settled.compact
  · intro key' value'
    rw [ok.holds_overwrite shape inside active changed]
    rw [ok.lawful.cmp_congr same]

/-- `hash_del`. -/
theorem Settled.hashDel (settled : map.Settled)
    (small : map.mask + 1 < 0x40000000) (key : Key) :
    ∃ map', map.hashDel key true = some (0, map') ∧ map'.Settled ∧
      map'.hfunc = map.hfunc ∧ map'.cmp = map.cmp ∧
      map'.count ≤ map.count ∧
      ∀ key' value', map'.Holds key' value' ↔
        map.cmp key key' = false ∧ map.Holds key' value' := by
  have ok := settled.ok
  obtain ⟨slot, inside, found, -, outcome⟩ := ok.hashLookup settled.room key
  rcases outcome with ⟨key₁, value₁, hash₁, active, same⟩ | ⟨isFree, absent⟩
  · generalize isErased : { map with
      count := map.count - 1
      table := Function.update map.table slot .deleted } = erased
    have shape : map.SameShape erased := by
      rw [← isErased]
      exact ⟨rfl, rfl, rfl⟩
    have changed : erased.table = Function.update map.table slot .deleted := by
      rw [← isErased]
    have count : erased.count = map.count - 1 := by
      rw [← isErased]
    have fill : erased.fill = map.fill := by
      rw [← isErased]
    have erased_ok := ok.erase shape inside active changed count fill
    have updates : map.hashDel key true = erased.hashUpdate true := by
      rw [hashDel_of_active found active, isErased]
    have sparse := settled.sparse
    have compact := settled.compact
    have sameMask := shape.mask
    unfold Sparse at sparse
    unfold Compact hashMinSize at compact
    obtain ⟨map', updated, settled', pairs⟩ := erased_ok.settle (by omega)
      (by omega) (by omega) (by omega)
    have count' := pairs.count
    refine ⟨map', updates.trans updated, settled',
      pairs.hfunc.trans shape.hfunc, pairs.cmp.trans shape.cmp, by omega, ?_⟩
    · intro key' value'
      rw [pairs.holds, ok.holds_erase shape inside active changed]
      rw [ok.lawful.cmp_congr same]
  · have notActive : (map.table slot).Active = false := by
      rcases isFree with content | content <;> rw [content] <;> rfl
    refine ⟨map, hashDel_of_not_active found notActive true, settled, rfl, rfl,
      le_rfl, ?_⟩
    · intro key' value'
      constructor
      · intro holds
        refine ⟨?_, holds⟩
        rw [Bool.eq_false_iff]
        intro alike
        obtain ⟨s, sInside, k, h, content, same⟩ := holds
        exact absent value' ⟨s, sInside, k, h, content,
          ok.lawful.trans _ _ _ same (ok.lawful.symm _ _ alike)⟩
      · exact fun holds => holds.2

end Resizing

end HashTable

end Nebulea
