import Nebulea.HashTableLaws

/-!
# The search loop always ends

Whatever the hash function and the comparator are, the counters of a table are
not below the numbers of its used and active slots, and `hash_update` keeps a
third of the slots empty as long as its allocations succeed.  So every search in
a table that `hash_set` and `hash_del` have made meets an empty slot.
-/

namespace Nebulea

namespace HashTable

variable {Key Value : Type}

/-- The slots lie in memory, at 16 bytes each.  `mem_alloc` finds no room for
more. -/
def Fits (map : HashTable Key Value) : Prop :=
  16 * (map.mask + 1) < 0x100000000

theorem Fits.small {map : HashTable Key Value} (fits : map.Fits) :
    map.mask + 1 < 0x40000000 := by
  unfold Fits at fits
  omega

/-- The counters count at least the slots they stand for. -/
structure Bounded (map : HashTable Key Value) : Prop where
  size : ∃ k, 3 ≤ k ∧ k ≤ 31 ∧ map.mask + 1 = 2 ^ k
  hashes : ∀ key, map.hfunc key < 0x100000000
  used : map.tally Slot.Used ≤ map.fill
  active : map.tally Slot.Active ≤ map.count

section Bounds

variable {map map' : HashTable Key Value} {slot : Nat}
variable {content : Slot Key Value}

/-- A slot is written, and the counters grow at least as much as what they
count. -/
theorem Bounded.write (bounded : map.Bounded) (shape : map.SameShape map')
    (inside : slot ≤ map.mask)
    (changed : map'.table = Function.update map.table slot content)
    (fill : map.fill + (if content.Used then 1 else 0) ≤
      map'.fill + if (map.table slot).Used then 1 else 0)
    (count : map.count + (if content.Active then 1 else 0) ≤
      map'.count + if (map.table slot).Active then 1 else 0) :
    map'.Bounded := by
  have useds := tally_update Slot.Used shape.mask inside changed
  have actives := tally_update Slot.Active shape.mask inside changed
  have used := bounded.used
  have active := bounded.active
  constructor
  · rw [shape.mask]
    exact bounded.size
  · rw [shape.hfunc]
    exact bounded.hashes
  · omega
  · omega

theorem Bounded.tally_le (map : HashTable Key Value)
    (property : Slot Key Value → Bool) :
    map.tally property ≤ map.mask + 1 := by
  have bound := List.countP_le_length
    (p := fun slot => property (map.table slot))
    (l := List.range (map.mask + 1))
  rwa [List.length_range] at bound

variable [DecidableEq Key]

/-- Every search ends in a table whose fill counter leaves room. -/
theorem Bounded.hashLookup (bounded : map.Bounded) (room : map.Room)
    (key : Key) {hash : Nat} (small : hash < 0x100000000) :
    ∃ slot ≤ map.mask, map.hashLookup key hash = some slot := by
  obtain ⟨k, -, width, size⟩ := bounded.size
  obtain ⟨free, inside, isEmpty⟩ :=
    exists_empty_of_tally (bounded.used.trans room)
  obtain ⟨n, inTime, visits⟩ :=
    slotAt_visits small (width.trans (by decide)) size inside
  rw [← visits] at isEmpty
  obtain ⟨slot, found, ⟨m, rfl, -⟩, -⟩ := hashLookup_cases key inTime isEmpty
  exact ⟨_, slotAt_le size m, found⟩

/-- `hash_copy` into a table with room for all the pairs. -/
theorem Bounded.hashCopy (oldtable : Nat → Slot Key Value) (rest : List Nat)
    (bounded : map.Bounded)
    (room : map.fill + rest.countP (fun slot => (oldtable slot).Active) ≤
      map.mask) :
    ∃ map', hashCopy oldtable rest map = some map' ∧ map'.Bounded ∧
      map'.mask = map.mask ∧ map'.hfunc = map.hfunc ∧ map'.cmp = map.cmp ∧
      map'.fill =
        map.fill + rest.countP fun slot => (oldtable slot).Active := by
  induction rest generalizing map with
  | nil => exact ⟨map, rfl, bounded, rfl, rfl, rfl, rfl⟩
  | cons i rest ih =>
      rw [List.countP_cons] at room ⊢
      obtain ⟨slot, content⟩ : ∃ slot, oldtable i = slot := ⟨_, rfl⟩
      cases slot with
      | empty | deleted =>
          have idle : (oldtable i).Active = false := by
            rw [content]
            rfl
          rw [idle, if_neg Bool.false_ne_true, Nat.add_zero] at room ⊢
          obtain ⟨map', copies, rest⟩ := ih bounded room
          exact ⟨map', by simpa [HashTable.hashCopy, copySlot, content] using
            copies, rest⟩
      | active key value hash =>
          have isActive : (oldtable i).Active = true := by
            rw [content]
            rfl
          rw [isActive, if_pos rfl] at room ⊢
          obtain ⟨slot, inside, found⟩ := bounded.hashLookup
            (show map.fill ≤ map.mask by omega) key (bounded.hashes key)
          generalize isTurned : { map with
            table := Function.update map.table slot (.active key value hash)
            fill := map.fill + 1
            count := map.count + 1 } = turned
          have shape : map.SameShape turned := by
            rw [← isTurned]
            exact ⟨rfl, rfl, rfl⟩
          have fill : turned.fill = map.fill + 1 := by
            rw [← isTurned]
          have count : turned.count = map.count + 1 := by
            rw [← isTurned]
          have bounded' : turned.Bounded := by
            refine bounded.write shape inside
              (show turned.table = Function.update map.table slot
                (.active key value hash) from ?_) ?_ ?_
            · rw [← isTurned]
            · simp [fill, Slot.Used]
            · simp [count, Slot.Active]
          obtain ⟨map', copies, final, mask, hfunc, cmp, fill'⟩ := ih bounded'
            (by rw [fill, shape.mask]; omega)
          refine ⟨map', ?_, final, mask.trans shape.mask,
            hfunc.trans shape.hfunc, cmp.trans shape.cmp, by omega⟩
          simpa [HashTable.hashCopy, copySlot, content, found, isTurned]
            using copies

omit [DecidableEq Key] in
/-- The new table before any slot is copied. -/
theorem Bounded.start {k : Nat} (hashes : ∀ key, map.hfunc key < 0x100000000)
    (low : 3 ≤ k) (high : k ≤ 31) :
    (map.hashInitialize (2 ^ k)).Bounded where
  size := ⟨k, low, high, Nat.sub_add_cancel (Nat.two_pow_pos k)⟩
  hashes := hashes
  used := (tally_eq_zero (fun _ => rfl) _ rfl).le
  active := (tally_eq_zero (fun _ => rfl) _ rfl).le

/-- The new table has as many pairs as the old one has active slots. -/
theorem Bounded.resize {k : Nat} (bounded : map.Bounded) (low : 3 ≤ k)
    (high : k ≤ 31) (enough : map.tally Slot.Active ≤ 2 ^ k - 1) :
    ∃ map', map.resize (2 ^ k) true = some (0, map') ∧ map'.Bounded ∧
      map'.mask + 1 = 2 ^ k ∧ map'.hfunc = map.hfunc ∧ map'.cmp = map.cmp ∧
      map'.fill = map.tally Slot.Active := by
  obtain ⟨map', copies, bounded', mask, hfunc, cmp, fill⟩ :=
    (Bounded.start bounded.hashes low high).hashCopy map.table
      (List.range (map.mask + 1)) (by
        rw [hashInitialize, Nat.zero_add]
        exact enough)
  refine ⟨map', ?_, bounded', ?_, hfunc, cmp, ?_⟩
  · simp [HashTable.resize, copies]
  · rw [mask]
    exact Nat.sub_add_cancel (Nat.two_pow_pos k)
  · rw [fill, hashInitialize, Nat.zero_add]
    rfl

/-- What `hash_set` and `hash_del` leave. -/
structure Loaded (map map' : HashTable Key Value) : Prop where
  bounded : map'.Bounded
  sparse : map'.Sparse
  hfunc : map'.hfunc = map.hfunc
  cmp : map'.cmp = map.cmp

/-- `hash_update` keeps a third of the slots empty. -/
theorem Bounded.hashUpdate (bounded : map.Bounded)
    (small : map.mask + 1 < 0x40000000) :
    ∃ map', map.hashUpdate true = some (0, map') ∧ map.Loaded map' := by
  obtain ⟨k, low, high, size⟩ := bounded.size
  have actives := Bounded.tally_le map Slot.Active
  have counted := bounded.active
  rcases hashUpdate_cases low high size small true with
    ⟨grows, j, lowJ, highJ, double, updates⟩ |
      ⟨large, few, sparse, j, lowJ, highJ, half, updates⟩ |
      ⟨sparse, -, updates⟩
  · obtain ⟨map', resized, bounded', size', hfunc, cmp, fill'⟩ :=
      bounded.resize lowJ highJ (by omega)
    refine ⟨map', updates.trans resized, bounded', ?_, hfunc, cmp⟩
    unfold Sparse
    omega
  · obtain ⟨map', resized, bounded', size', hfunc, cmp, fill'⟩ :=
      bounded.resize lowJ highJ (by omega)
    refine ⟨map', updates.trans resized, bounded', ?_, hfunc, cmp⟩
    unfold Sparse
    omega
  · exact ⟨map, updates, bounded, sparse, rfl, rfl⟩

omit [DecidableEq Key] in
theorem Sparse.room (sparse : map.Sparse) : map.Room := by
  unfold Sparse at sparse
  unfold Room
  omega

omit [DecidableEq Key] in
/-- The calls write one slot before they call `hash_update`. -/
theorem Loaded.trans {written : HashTable Key Value}
    (loaded : written.Loaded map') (shape : map.SameShape written) :
    map.Loaded map' :=
  ⟨loaded.bounded, loaded.sparse, loaded.hfunc.trans shape.hfunc,
    loaded.cmp.trans shape.cmp⟩

theorem Bounded.hashSet (bounded : map.Bounded) (sparse : map.Sparse)
    (small : map.mask + 1 < 0x40000000) (key : Key) (value : Value) :
    ∃ map', map.hashSet key value true = some (0, map') ∧
      map.Loaded map' := by
  obtain ⟨slot, inside, found⟩ :=
    bounded.hashLookup sparse.room key (bounded.hashes key)
  cases content : map.table slot with
  | active key' value' hash' =>
      have written : HashTable.Bounded { map with
          table := Function.update map.table slot (.active key' value hash') } :=
        bounded.write ⟨rfl, rfl, rfl⟩ inside rfl (by simp [content, Slot.Used])
        (by simp [content, Slot.Active])
      exact ⟨_, hashSet_of_active found content value true, written, sparse,
        rfl, rfl⟩
  | empty =>
      have written : HashTable.Bounded { map with
          count := map.count + 1
          fill := map.fill + 1
          table := Function.update map.table slot
            (.active key value (map.hfunc key)) } :=
        bounded.write ⟨rfl, rfl, rfl⟩ inside rfl (by simp [content, Slot.Used])
        (by simp [content, Slot.Active])
      obtain ⟨map', updated, loaded⟩ := written.hashUpdate small
      exact ⟨map', (hashSet_of_empty found content value true).trans updated,
        loaded.trans ⟨rfl, rfl, rfl⟩⟩
  | deleted =>
      have written : HashTable.Bounded { map with
          count := map.count + 1
          table := Function.update map.table slot
            (.active key value (map.hfunc key)) } :=
        bounded.write ⟨rfl, rfl, rfl⟩ inside rfl (by simp [content, Slot.Used])
        (by simp [content, Slot.Active])
      obtain ⟨map', updated, loaded⟩ := written.hashUpdate small
      exact ⟨map', (hashSet_of_deleted found content value true).trans updated,
        loaded.trans ⟨rfl, rfl, rfl⟩⟩

theorem Bounded.hashDel (bounded : map.Bounded) (sparse : map.Sparse)
    (small : map.mask + 1 < 0x40000000) (key : Key) :
    ∃ map', map.hashDel key true = some (0, map') ∧ map.Loaded map' := by
  obtain ⟨slot, inside, found⟩ :=
    bounded.hashLookup sparse.room key (bounded.hashes key)
  cases content : map.table slot with
  | active key' value' hash' =>
      have written : HashTable.Bounded { map with
          count := map.count - 1
          table := Function.update map.table slot .deleted } :=
        bounded.write ⟨rfl, rfl, rfl⟩ inside rfl (by simp [content, Slot.Used])
        (by simp [content, Slot.Active]; omega)
      obtain ⟨map', updated, loaded⟩ := written.hashUpdate small
      exact ⟨map', (hashDel_of_active found content true).trans updated,
        loaded.trans ⟨rfl, rfl, rfl⟩⟩
  | empty | deleted =>
      have notActive : (map.table slot).Active = false := by
        rw [content]
        rfl
      exact ⟨map, hashDel_of_not_active found notActive true, bounded, sparse,
        rfl, rfl⟩

end Bounds

/-! ## Every table that calls make -/

section Reaching

variable [DecidableEq Key] {hfunc : Key → BitVec 32} {cmp : Key → Key → Bool}
variable {map map' : HashTable Key Value}

/-- The table is made by `hash_init` and calls of `hash_set` and `hash_del` all
of whose allocations succeed. -/
inductive Reaches (hfunc : Key → BitVec 32) (cmp : Key → Key → Bool) :
    HashTable Key Value → Prop
  | init : Reaches hfunc cmp (hashInit (fun key => (hfunc key).toNat) cmp)
  | set {map map' : HashTable Key Value} {status : Int} (front : Reaches hfunc cmp map)
      (key : Key) (value : Value)
      (done : map.hashSet key value true = some (status, map'))
      (fits : map'.Fits) : Reaches hfunc cmp map'
  | del {map map' : HashTable Key Value} {status : Int} (front : Reaches hfunc cmp map)
      (key : Key) (done : map.hashDel key true = some (status, map'))
      (fits : map'.Fits) : Reaches hfunc cmp map'

theorem Reaches.loaded (reaches : Reaches hfunc cmp map) :
    map.Bounded ∧ map.Sparse ∧ map.Fits := by
  induction reaches with
  | init =>
      have bounded : (hashInit (fun key => (hfunc key).toNat) cmp :
          HashTable Key Value).Bounded := by
        change (hashInitialize (hashInit (fun key => (hfunc key).toNat) cmp)
          (2 ^ 3)).Bounded
        exact Bounded.start (fun key => (hfunc key).isLt) (Nat.le_refl 3)
          (by decide)
      exact ⟨bounded, by simp [Sparse, hashInit, hashMinSize],
        by simp [Fits, hashInit, hashMinSize]⟩
  | set front key value done fits ih =>
      obtain ⟨bounded, sparse, fits'⟩ := ih
      obtain ⟨map', set, loaded⟩ := bounded.hashSet sparse fits'.small key value
      cases done.symm.trans set
      exact ⟨loaded.bounded, loaded.sparse, fits⟩
  | del front key done fits ih =>
      obtain ⟨bounded, sparse, fits'⟩ := ih
      obtain ⟨map', deleted, loaded⟩ := bounded.hashDel sparse fits'.small key
      cases done.symm.trans deleted
      exact ⟨loaded.bounded, loaded.sparse, fits⟩

/-- In every table that `hash_set` and `hash_del` make as long as their
allocations succeed, a third of the slots is empty, the search visits every
slot, and so it ends for every key and hash code. -/
theorem search_ends (reaches : Reaches hfunc cmp map) :
    3 * map.fill < 2 * (map.mask + 1) ∧
      (∃ slot ≤ map.mask, map.table slot = .empty) ∧
      (∃ k, map.mask + 1 = 2 ^ k) ∧
      ∀ hash < 0x100000000,
        (∀ slot ≤ map.mask, ∃ n, slotAt map.mask hash n = slot) ∧
        ∀ key, ∃ slot ≤ map.mask, map.hashLookup key hash = some slot := by
  obtain ⟨bounded, sparse, -⟩ := reaches.loaded
  obtain ⟨k, -, width, size⟩ := bounded.size
  refine ⟨sparse, exists_empty_of_tally (bounded.used.trans sparse.room),
    ⟨k, size⟩, ?_⟩
  intro hash small
  refine ⟨?_, fun key => bounded.hashLookup sparse.room key small⟩
  intro slot inside
  obtain ⟨n, -, visits⟩ :=
    slotAt_visits small (width.trans (by decide)) size inside
  exact ⟨n, visits⟩

/-- A table with one pair, whose hash code is the key itself. -/
theorem search_ends_after_set :
    ∃ map : HashTable (BitVec 32) Nat, map.count = 1 ∧
      ∃ slot ≤ map.mask, map.hashLookup 21 21 = some slot := by
  have fresh : @Reaches (BitVec 32) Nat _ id (fun key key' => key == key') _ :=
    .init
  have reaches := fresh.set 5 40 rfl (by unfold Fits; decide)
  exact ⟨_, rfl, ((search_ends reaches).2.2.2 21 (by decide)).2 21⟩

end Reaching

end HashTable

end Nebulea
