import Nebulea.HashTableLoad
import Nebulea.LoggedRuns
import Mathlib.Data.Set.Card

/-!
# Runs of a hash table

The calls of `hash.h` are answered as by a finite map on the classes of keys
that the comparator takes for one key.
-/

namespace Nebulea

/-- A call on a hash table. -/
inductive HashCall (Key Value : Type) where
  | set (key : Key) (value : Value)
  | del (key : Key)
  | get (key : Key) (default : Value)
  | isset (key : Key)

/-- What a call returns. -/
inductive HashAnswer (Value : Type) where
  | status (result : Int)
  | value (result : Value)
  | found (result : Bool)

namespace HashTable

variable {Key Value : Type}

/-- One call; `allocated` tells whether `mem_alloc` finds room for new slots. -/
def answer [DecidableEq Key] (allocated : Bool) (map : HashTable Key Value) :
    HashCall Key Value → Option (HashAnswer Value × HashTable Key Value)
  | .set key value => do
      let (result, map') ← map.hashSet key value allocated
      pure (.status result, map')
  | .del key => do
      let (result, map') ← map.hashDel key allocated
      pure (.status result, map')
  | .get key default => do
      pure (.value (← map.hashGet key default), map)
  | .isset key => do
      pure (.found (← map.hashIsset key), map)

/-! ## Finite maps on classes of keys -/

section Reference

variable (s : Setoid Key)

open Classical in
/-- The same call on a map from classes of keys to values. -/
noncomputable def refer (contents : Quotient s → Option Value) :
    HashCall Key Value → HashAnswer Value × (Quotient s → Option Value)
  | .set key value =>
      (.status 0, Function.update contents (Quotient.mk s key) (some value))
  | .del key => (.status 0, Function.update contents (Quotient.mk s key) none)
  | .get key default =>
      (.value ((contents (Quotient.mk s key)).getD default), contents)
  | .isset key => (.found (contents (Quotient.mk s key)).isSome, contents)

/-- The keys that are present. -/
def keys (contents : Quotient s → Option Value) : Set (Quotient s) :=
  {key | (contents key).isSome}

end Reference

/-- The classes of a comparator. -/
def keyClasses {cmp : Key → Key → Bool}
    (equivalence : Equivalence fun key key' => cmp key key' = true) :
    Setoid Key :=
  ⟨_, equivalence⟩

section Representing

variable {cmp : Key → Key → Bool}
variable {equivalence : Equivalence fun key key' => cmp key key' = true}
variable {map map' : HashTable Key Value}
variable {contents : Quotient (keyClasses equivalence) → Option Value}

/-- The pairs of the table are those of the map. -/
structure Represents (map : HashTable Key Value)
    (contents : Quotient (keyClasses equivalence) → Option Value) : Prop where
  settled : map.Settled
  cmp : map.cmp = cmp
  holds : ∀ key value, map.Holds key value ↔
    contents (Quotient.mk (keyClasses equivalence) key) = some value

/-- A class is a given key's or another one. -/
theorem update_eq_some_iff [DecidableEq (Quotient (keyClasses equivalence))]
    {key key' : Key} {content : Option Value} {value : Value} :
    Function.update contents (Quotient.mk (keyClasses equivalence) key) content
        (Quotient.mk (keyClasses equivalence) key') = some value ↔
      cmp key key' = true ∧ content = some value ∨
        cmp key key' = false ∧
          contents (Quotient.mk (keyClasses equivalence) key') = some value := by
  cases same : cmp key key' with
  | true =>
      have alike : Quotient.mk (keyClasses equivalence) key' =
          Quotient.mk (keyClasses equivalence) key :=
        Quotient.sound (equivalence.symm same)
      rw [alike, Function.update_self]
      simp
  | false =>
      have distinct : Quotient.mk (keyClasses equivalence) key' ≠
          Quotient.mk (keyClasses equivalence) key := by
        intro alike
        have same' : cmp key key' = true :=
          equivalence.symm (Quotient.exact alike)
        rw [same] at same'
        cases same'
      rw [Function.update_of_ne distinct]
      simp

theorem Represents.absent (represents : map.Represents contents) {key : Key}
    (isNone : contents (Quotient.mk (keyClasses equivalence) key) = none)
    (value : Value) : ¬ map.Holds key value := by
  rw [represents.holds, isNone]
  exact nofun

variable [DecidableEq Key]

/-- `hash_set`, whether or not the key is present. -/
theorem Represents.hashSet (represents : map.Represents contents)
    (small : map.mask + 1 < 0x40000000) (key : Key) (value : Value) :
    ∃ map', map.hashSet key value true = some (0, map') ∧
      map'.Represents (refer _ contents (.set key value)).2 := by
  classical
  suffices ∃ map', map.hashSet key value true = some (0, map') ∧
      map'.Settled ∧ map'.hfunc = map.hfunc ∧ map'.cmp = map.cmp ∧
      ∀ key' value', map'.Holds key' value' ↔
        map.cmp key key' = true ∧ value' = value ∨
          map.cmp key key' = false ∧ map.Holds key' value' by
    obtain ⟨map', set, settled, -, sameCmp, holds⟩ := this
    refine ⟨map', set, settled, sameCmp.trans represents.cmp, ?_⟩
    intro key' value'
    rw [holds, represents.holds, represents.cmp]
    refine Iff.trans ?_ update_eq_some_iff.symm
    rw [Option.some_inj, eq_comm (a := value)]
  cases content : contents (Quotient.mk (keyClasses equivalence) key) with
  | none =>
      obtain ⟨map', set, settled, hfunc, sameCmp, -, holds⟩ :=
        represents.settled.hashSet small key value (represents.absent content)
      exact ⟨map', set, settled, hfunc, sameCmp, holds⟩
  | some before =>
      exact represents.settled.hashSet_present key value
        ((represents.holds key before).mpr content)

theorem Represents.hashDel (represents : map.Represents contents)
    (small : map.mask + 1 < 0x40000000) (key : Key) :
    ∃ map', map.hashDel key true = some (0, map') ∧
      map'.Represents (refer _ contents (.del key)).2 := by
  classical
  obtain ⟨map', deleted, settled, -, sameCmp, -, holds⟩ :=
    represents.settled.hashDel small key
  refine ⟨map', deleted, settled, sameCmp.trans represents.cmp, ?_⟩
  intro key' value'
  rw [holds, represents.holds, represents.cmp]
  refine Iff.trans ?_ update_eq_some_iff.symm
  simp

theorem Represents.hashGet (represents : map.Represents contents) (key : Key)
    (default : Value) :
    map.hashGet key default = some
      ((contents (Quotient.mk (keyClasses equivalence) key)).getD default) := by
  have settled := represents.settled
  obtain ⟨present, absent⟩ := settled.ok.hashGet settled.room key default
  cases content : contents (Quotient.mk (keyClasses equivalence) key) with
  | none => exact absent (represents.absent content)
  | some value => exact present value ((represents.holds key value).mpr content)

theorem Represents.hashIsset (represents : map.Represents contents)
    (key : Key) :
    map.hashIsset key = some
      (contents (Quotient.mk (keyClasses equivalence) key)).isSome := by
  have settled := represents.settled
  obtain ⟨present, absent⟩ := settled.ok.hashIsset settled.room key
  cases content : contents (Quotient.mk (keyClasses equivalence) key) with
  | none => exact absent (represents.absent content)
  | some value => exact present value ((represents.holds key value).mpr content)

/-- Every call is answered as by the map. -/
theorem Represents.answer (represents : map.Represents contents)
    (small : map.mask + 1 < 0x40000000) (call : HashCall Key Value) :
    ∃ map', map.answer true call =
        some ((refer _ contents call).1, map') ∧
      map'.Represents (refer _ contents call).2 := by
  cases call with
  | set key value =>
      obtain ⟨map', set, represents'⟩ := represents.hashSet small key value
      exact ⟨map', by simp [HashTable.answer, set, refer], represents'⟩
  | del key =>
      obtain ⟨map', deleted, represents'⟩ := represents.hashDel small key
      exact ⟨map', by simp [HashTable.answer, deleted, refer], represents'⟩
  | get key default =>
      exact ⟨map, by simp [HashTable.answer, represents.hashGet, refer],
        represents⟩
  | isset key =>
      exact ⟨map, by simp [HashTable.answer, represents.hashIsset, refer],
        represents⟩

/-! ## Counting keys -/

/-- The class of the key in a slot. -/
def keyOf (equivalence : Equivalence fun key key' => cmp key key' = true) :
    Slot Key Value → Option (Quotient (keyClasses equivalence))
  | .active key _ _ => some (Quotient.mk (keyClasses equivalence) key)
  | _ => none

/-- The active slots. -/
def activeSlots (map : HashTable Key Value) : Set Nat :=
  {slot | slot ≤ map.mask ∧ (map.table slot).Active = true}

omit [DecidableEq Key] in
theorem ncard_activeSlots (map : HashTable Key Value) :
    map.activeSlots.ncard = map.tally Slot.Active := by
  have isFilter : map.activeSlots =
      ((List.range (map.mask + 1)).filter fun slot =>
        (map.table slot).Active).toFinset := by
    ext slot
    simp [activeSlots]
  rw [isFilter, Set.ncard_coe_finset,
    List.toFinset_card_of_nodup (List.nodup_range.filter _), tally,
    List.countP_eq_length_filter]

omit [DecidableEq Key] in
theorem mem_activeSlots {slot : Nat} : slot ∈ map.activeSlots ↔
    slot ≤ map.mask ∧
      ∃ key value hash, map.table slot = .active key value hash := by
  unfold activeSlots
  cases content : map.table slot <;> simp [content, Slot.Active]

omit [DecidableEq Key] in
/-- Every class that is present has its slot. -/
theorem Represents.image_keyOf (represents : map.Represents contents) :
    (fun slot => keyOf equivalence (map.table slot)) '' map.activeSlots =
      some '' keys _ contents := by
  ext key
  constructor
  · rintro ⟨slot, member, rfl⟩
    obtain ⟨inside, key, value, hash, active⟩ := mem_activeSlots.mp member
    have present := (represents.holds key value).mp
      ⟨slot, inside, key, hash, active, by
        rw [represents.cmp]
        exact equivalence.refl key⟩
    refine ⟨Quotient.mk _ key, ?_, by simp [active, keyOf]⟩
    simp [keys, present]
  · rintro ⟨key, present, rfl⟩
    induction key using Quotient.inductionOn with
    | h key =>
        obtain ⟨value, isSome⟩ := Option.isSome_iff_exists.mp present
        obtain ⟨slot, inside, key', hash, active, same⟩ :=
          (represents.holds key value).mpr isSome
        rw [represents.cmp] at same
        refine ⟨slot, mem_activeSlots.mpr ⟨inside, key', value, hash, active⟩,
          ?_⟩
        simp only [active, keyOf, Option.some_inj]
        exact Quotient.sound same

omit [DecidableEq Key] in
theorem Represents.injOn_keyOf (represents : map.Represents contents) :
    Set.InjOn (fun slot => keyOf equivalence (map.table slot))
      map.activeSlots := by
  intro slot member other member' same
  obtain ⟨inside, key, value, hash, active⟩ := mem_activeSlots.mp member
  obtain ⟨inside', key', value', hash', active'⟩ := mem_activeSlots.mp member'
  simp only [active, active', keyOf, Option.some_inj] at same
  refine represents.settled.ok.unique slot inside other inside' _ _ _ _ _ _
    active active' ?_
  rw [represents.cmp]
  exact Quotient.exact same

omit [DecidableEq Key] in
/-- The counter counts the classes that are present. -/
theorem Represents.count (represents : map.Represents contents) :
    map.count = (keys _ contents).ncard := by
  rw [represents.settled.ok.count, ← ncard_activeSlots,
    ← represents.injOn_keyOf.ncard_image, represents.image_keyOf,
    Set.ncard_image_of_injective _ (Option.some_injective _)]

end Representing

/-! ## All runs -/

section Running

variable [DecidableEq Key] {hfunc : Key → BitVec 32} {cmp : Key → Key → Bool}
variable {map : HashTable Key Value}
variable {log : List (HashCall Key Value × HashAnswer Value)}

/-- The runs from `hash_init` all of whose allocations succeed. -/
def Serves (hfunc : Key → BitVec 32) (cmp : Key → Key → Bool) :
    List (HashCall Key Value × HashAnswer Value) → HashTable Key Value →
      Prop :=
  Logged.Runs (fun call map => map.answer true call) Fits
    (hashInit (fun key => (hfunc key).toNat) cmp)

/-- The logs of the finite map that starts empty. -/
def MapServes (s : Setoid Key) :
    List (HashCall Key Value × HashAnswer Value) →
      (Quotient s → Option Value) → Prop :=
  Logged.Runs (fun call contents => some (refer s contents call))
    (fun _ => True) fun _ => none

omit [DecidableEq Key] in
theorem represents_init
    (equivalence : Equivalence fun key key' => cmp key key' = true)
    (respects : ∀ key key', cmp key key' = true → hfunc key = hfunc key') :
    (hashInit (fun key => (hfunc key).toNat) cmp : HashTable Key Value).Represents
      fun _ : Quotient (keyClasses equivalence) => none := by
  have lawful : (hashInit (fun key => (hfunc key).toNat) cmp :
      HashTable Key Value).Lawful := by
    constructor
    · exact equivalence.refl
    · exact fun _ _ same => equivalence.symm same
    · exact fun _ _ _ same same' => equivalence.trans same same'
    · intro key key' same
      exact congrArg BitVec.toNat (respects key key' same)
    · exact fun key => (hfunc key).isLt
  have fresh := Copied.start lawful (Nat.le_refl 3) (by decide)
  refine ⟨⟨fresh.ok, ?_, ?_⟩, rfl, ?_⟩
  · simp [Sparse, hashInit, hashMinSize]
  · exact .inl (Nat.le_refl 8)
  · intro key value
    constructor
    · rintro ⟨slot, -, key', hash, active, -⟩
      cases active
    · intro isSome
      cases isSome

/-- Every run is one of the finite map. -/
theorem Serves.represents
    (equivalence : Equivalence fun key key' => cmp key key' = true)
    (respects : ∀ key key', cmp key key' = true → hfunc key = hfunc key')
    (serves : Serves hfunc cmp log map) :
    ∃ contents, MapServes (keyClasses equivalence) log contents ∧
      map.Represents contents ∧ map.Fits := by
  apply serves.simulated (R := fun map
    (contents : Quotient (keyClasses equivalence) → Option Value) =>
      map.Represents contents ∧ map.Fits)
  · exact ⟨represents_init equivalence respects, by
      simp [Fits, hashInit, hashMinSize]⟩
  · rintro call answer before after contents ⟨represents, fits⟩ answers fits'
    obtain ⟨map', same, represents'⟩ := represents.answer fits.small call
    cases answers.symm.trans same
    exact ⟨_, rfl, represents', fits'⟩

/-- Whatever is called, the answers are those of a finite map on the classes of
keys.  The counters count its keys and the slots that are not empty, a class
has one slot at most, and the next call is answered as well. -/
theorem serves_as_map
    (equivalence : Equivalence fun key key' => cmp key key' = true)
    (respects : ∀ key key', cmp key key' = true → hfunc key = hfunc key')
    (serves : Serves hfunc cmp log map) :
    (∃ contents, MapServes (keyClasses equivalence) log contents ∧
      map.count = (keys _ contents).ncard ∧
      ∀ call, ∃ map',
        map.answer true call = some ((refer _ contents call).1, map')) ∧
    (∀ slot ≤ map.mask, ∀ other ≤ map.mask,
      ∀ key value hash key' value' hash',
        map.table slot = .active key value hash →
        map.table other = .active key' value' hash' →
          cmp key key' = true → slot = other) ∧
    map.fill = map.tally Slot.Used ∧
    ∃ k, 3 ≤ k ∧ map.mask + 1 = 2 ^ k := by
  obtain ⟨contents, mapServes, represents, fits⟩ :=
    serves.represents equivalence respects
  have ok := represents.settled.ok
  obtain ⟨k, low, -, size⟩ := ok.size
  refine ⟨⟨contents, mapServes, represents.count, ?_⟩, ?_, ok.fill, k, low,
    size⟩
  · intro call
    obtain ⟨map', answers, -⟩ := represents.answer fits.small call
    exact ⟨map', answers⟩
  · intro slot inside other inside' key value hash key' value' hash' active
      active' same
    refine ok.unique slot inside other inside' _ _ _ _ _ _ active active' ?_
    rw [represents.cmp]
    exact same

/-- A comparator by hash codes. -/
def sameHash (hfunc : Key → BitVec 32) (key key' : Key) : Bool :=
  hfunc key == hfunc key'

omit [DecidableEq Key] in
theorem sameHash_equivalence (hfunc : Key → BitVec 32) :
    Equivalence fun key key' => sameHash hfunc key key' = true where
  refl _ := beq_self_eq_true _
  symm same := beq_iff_eq.mpr (beq_iff_eq.mp same).symm
  trans same same' :=
    beq_iff_eq.mpr ((beq_iff_eq.mp same).trans (beq_iff_eq.mp same'))

/-- Keys with the same low byte are one key. -/
theorem serves_as_map_of_two :
    ∃ (map : HashTable (BitVec 32) Nat)
      (contents : Quotient (keyClasses (sameHash_equivalence (· &&& 255))) →
        Option Nat),
      MapServes _ [(.set 5 40, .status 0), (.set 261 41, .status 0),
        (.get 5 0, .value 41)] contents ∧
      map.count = (keys _ contents).ncard ∧ map.fill = 1 := by
  have fresh : @Serves (BitVec 32) Nat _ (· &&& 255) (sameHash (· &&& 255))
      [] _ :=
    .nothing
  have one := fresh.call (.set 5 40) rfl (by unfold Fits; decide)
  have two := one.call (.set 261 41) rfl (by unfold Fits; decide)
  have three := two.call (.get 5 0) rfl (by unfold Fits; decide)
  obtain ⟨⟨contents, mapServes, count, -⟩, -⟩ :=
    serves_as_map (sameHash_equivalence (· &&& 255))
      (fun _ _ same => beq_iff_eq.mp same) three
  exact ⟨_, contents, mapServes, count, rfl⟩

end Running

end HashTable

end Nebulea
