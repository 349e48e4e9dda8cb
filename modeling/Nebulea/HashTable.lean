import Mathlib.Logic.Function.Basic
import Mathlib.Tactic.Common

/-!
# `hash.c`: a hash table with open addressing

A slot that never held a pair is empty and ends the search for a key; a slot
whose pair was removed does not.  The search loop has no bound of its own: it
is run here for a number of turns that is enough to visit every slot, and
`none` is a search that goes on beyond them.
-/

namespace Nebulea

/-- `hash_slot_t`.  Empty and deleted slots hold null pointers only. -/
inductive Slot (Key Value : Type) where
  | empty
  | active (key : Key) (value : Value) (hash : Nat)
  | deleted

/-- `hash_t`.  The table has `mask + 1` slots.  Hash codes are `long` values
read as unsigned. -/
structure HashTable (Key Value : Type) where
  fill : Nat
  count : Nat
  mask : Nat
  table : Nat → Slot Key Value
  hfunc : Key → Nat
  cmp : Key → Key → Bool

/-- `HASH_MINSIZE`. -/
def hashMinSize : Nat := 8

namespace HashTable

variable {Key Value : Type}

/-- `hash_initialize`, when the allocation of the slots succeeds. -/
def hashInitialize (map : HashTable Key Value) (size : Nat) :
    HashTable Key Value :=
  { map with
    fill := 0
    count := 0
    mask := size - 1
    table := fun _ => .empty }

/-- `hash_init`, when the allocation succeeds. -/
def hashInit (hfunc : Key → Nat) (cmp : Key → Key → Bool) :
    HashTable Key Value where
  fill := 0
  count := 0
  mask := hashMinSize - 1
  table := fun _ => .empty
  hfunc := hfunc
  cmp := cmp

/-- The next `index` of the search loop, in unsigned arithmetic. -/
def nextIndex (index perturb : Nat) : Nat :=
  (5 * index + perturb + 1) % 0x100000000

variable [DecidableEq Key]

/-- The loop of `hash_lookup`, for at most so many turns: the position of the
slot it returns. -/
def lookupFrom (map : HashTable Key Value) (key : Key) (hash : Nat) :
    (turns index perturb : Nat) → (freeslot : Option Nat) → Option Nat
  | 0, _, _, _ => none
  | turns + 1, index, perturb, freeslot =>
      let slot := index &&& map.mask
      match map.table slot with
      | .empty => some (freeslot.getD slot)
      | .active key' _ hash' =>
          if key' = key ∨ hash' = hash ∧ map.cmp key' key = true then
            some slot
          else
            map.lookupFrom key hash turns (nextIndex index perturb)
              (perturb / 32) freeslot
      | .deleted =>
          map.lookupFrom key hash turns (nextIndex index perturb)
            (perturb / 32) (some (freeslot.getD slot))

/-- `hash_lookup`. -/
def hashLookup (map : HashTable Key Value) (key : Key) (hash : Nat) : Option Nat :=
  map.lookupFrom key hash (map.mask + 8) (hash &&& map.mask) hash none

/-- One turn of `hash_copy`. -/
def copySlot (map : HashTable Key Value) :
    Slot Key Value → Option (HashTable Key Value)
  | .active key value hash => do
      let new ← map.hashLookup key (map.hfunc key)
      pure { map with
        table := Function.update map.table new (.active key value hash)
        fill := map.fill + 1
        count := map.count + 1 }
  | _ => pure map

/-- `hash_copy`, over the listed slots of the old table. -/
def hashCopy (oldtable : Nat → Slot Key Value) :
    List Nat → HashTable Key Value → Option (HashTable Key Value)
  | [], map => pure map
  | i :: rest, map => do hashCopy oldtable rest (← map.copySlot (oldtable i))

/-- `hash_initialize` and `hash_copy` in `hash_update`; `allocated` tells
whether `mem_alloc` finds room for the new slots. -/
def resize (map : HashTable Key Value) (newSize : Nat) (allocated : Bool) :
    Option (Int × HashTable Key Value) :=
  if allocated then do
    let copied ← hashCopy map.table (List.range (map.mask + 1))
      (map.hashInitialize newSize)
    pure (0, copied)
  else
    pure (-1, map)

/-- `hash_update`. -/
def hashUpdate (map : HashTable Key Value) (allocated : Bool) :
    Option (Int × HashTable Key Value) :=
  let oldSize := map.mask + 1
  if 3 * map.fill ≥ 2 * oldSize then
    -- `new_size <<= 1` overflows a `long`
    if 2 * oldSize ≥ 0x80000000 then pure (-1, map)
    else map.resize (2 * oldSize) allocated
  else if oldSize > hashMinSize ∧ 4 * map.count ≤ oldSize then
    map.resize (oldSize / 2) allocated
  else
    pure (0, map)

/-- `hash_get`. -/
def hashGet (map : HashTable Key Value) (key : Key) (default : Value) :
    Option Value := do
  match map.table (← map.hashLookup key (map.hfunc key)) with
  | .active _ value _ => pure value
  | _ => pure default

/-- `hash_isset`. -/
def hashIsset (map : HashTable Key Value) (key : Key) : Option Bool := do
  match map.table (← map.hashLookup key (map.hfunc key)) with
  | .active _ _ _ => pure true
  | _ => pure false

/-- `hash_set`. -/
def hashSet (map : HashTable Key Value) (key : Key) (value : Value)
    (allocated : Bool) : Option (Int × HashTable Key Value) := do
  let hash := map.hfunc key
  let slot ← map.hashLookup key hash
  match map.table slot with
  | .active key' _ hash' =>
      pure (0, { map with
        table := Function.update map.table slot (.active key' value hash') })
  | .empty =>
      hashUpdate { map with
        count := map.count + 1
        fill := map.fill + 1
        table := Function.update map.table slot (.active key value hash) }
        allocated
  | .deleted =>
      hashUpdate { map with
        count := map.count + 1
        table := Function.update map.table slot (.active key value hash) }
        allocated

/-- `hash_del`. -/
def hashDel (map : HashTable Key Value) (key : Key) (allocated : Bool) :
    Option (Int × HashTable Key Value) := do
  let slot ← map.hashLookup key (map.hfunc key)
  match map.table slot with
  | .active _ _ _ =>
      hashUpdate { map with
        count := map.count - 1
        table := Function.update map.table slot .deleted } allocated
  | _ => pure (0, map)

end HashTable

end Nebulea
