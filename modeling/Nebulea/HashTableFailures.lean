import Nebulea.HashTableRuns

/-!
# Allocations that fail

`hash_update` looks for room after the slot has been written.  A call whose
allocation fails returns -1 with its change made, and the limit on the used
slots is gone.  As long as no call asks for room that is not there, every
search ends and no call fails.
-/

namespace Nebulea

namespace HashTable

variable {Key Value : Type}

/-- `hash_update` asks for a new table at these counters. -/
def Outgrown (mask fill count : Nat) : Prop :=
  3 * fill ≥ 2 * (mask + 1) ∨
    mask + 1 > hashMinSize ∧ 4 * count ≤ mask + 1

section Refusing

variable [DecidableEq Key]

/-- The counters after the call are those of another size of table. -/
def Resizes (map : HashTable Key Value) : HashCall Key Value → Prop
  | .set key _ => ∃ slot, map.hashLookup key (map.hfunc key) = some slot ∧
      (map.table slot = .empty ∧
          Outgrown map.mask (map.fill + 1) (map.count + 1) ∨
        map.table slot = .deleted ∧
          Outgrown map.mask map.fill (map.count + 1))
  | .del key => ∃ slot, map.hashLookup key (map.hfunc key) = some slot ∧
      (map.table slot).Active = true ∧
        Outgrown map.mask map.fill (map.count - 1)
  | _ => False

/-- The runs from `hash_init`; each call comes with whether `mem_alloc` finds
room in it. -/
def Tries (hfunc : Key → BitVec 32) (cmp : Key → Key → Bool) :
    List ((HashCall Key Value × Bool) × HashAnswer Value) →
      HashTable Key Value → Prop :=
  Logged.Runs (fun call map => map.answer call.2 call.1) Fits
    (hashInit (fun key => (hfunc key).toNat) cmp)

/-- Keys have the same values in both tables. -/
structure SameAnswers (map map' : HashTable Key Value) : Prop where
  isset : ∀ key, map'.hashIsset key = map.hashIsset key
  get : ∀ key default, map'.hashGet key default = map.hashGet key default

/-- A call that fails changes no key, and every search ends. -/
structure FailsSafely (hfunc : Key → BitVec 32) (cmp : Key → Key → Bool)
    (log : List ((HashCall Key Value × Bool) × HashAnswer Value)) :
    Prop where
  unchanged : ∀ front call allocated back before after,
    log = front ++ ((call, allocated), .status (-1)) :: back →
      Tries hfunc cmp front before →
      before.answer allocated call = some (.status (-1), after) →
        before.SameAnswers after
  ends : ∀ front back map, log = front ++ back → Tries hfunc cmp front map →
    ∀ key, ∃ slot, map.hashLookup key (map.hfunc key) = some slot

/-- No call that asks for a new table fails to get one. -/
def Unrefused (hfunc : Key → BitVec 32) (cmp : Key → Key → Bool)
    (log : List ((HashCall Key Value × Bool) × HashAnswer Value)) : Prop :=
  ∀ front call answer back before,
    log = front ++ ((call, false), answer) :: back →
      Tries hfunc cmp front before → ¬ before.Resizes call

variable {map map' : HashTable Key Value}

/-! ## Calls that need no room -/

theorem hashUpdate_of_not_outgrown
    (fits : ¬ Outgrown map.mask map.fill map.count) (allocated : Bool) :
    map.hashUpdate allocated = some (0, map) := by
  unfold Outgrown at fits
  rw [not_or] at fits
  unfold hashUpdate
  simp only [if_neg fits.1, if_neg fits.2]
  rfl

theorem hashSet_of_not_resizes {key : Key} {value : Value}
    (stays : ¬ map.Resizes (.set key value)) :
    map.hashSet key value false = map.hashSet key value true := by
  cases found : map.hashLookup key (map.hfunc key) with
  | none => simp [HashTable.hashSet, found]
  | some slot =>
      cases content : map.table slot with
      | active =>
          rw [hashSet_of_active found content, hashSet_of_active found content]
      | empty =>
          rw [hashSet_of_empty found content, hashSet_of_empty found content,
            hashUpdate_of_not_outgrown, hashUpdate_of_not_outgrown] <;>
          exact fun outgrown =>
            stays ⟨slot, found, .inl ⟨content, outgrown⟩⟩
      | deleted =>
          rw [hashSet_of_deleted found content,
            hashSet_of_deleted found content, hashUpdate_of_not_outgrown,
            hashUpdate_of_not_outgrown] <;>
          exact fun outgrown =>
            stays ⟨slot, found, .inr ⟨content, outgrown⟩⟩

theorem hashDel_of_not_resizes {key : Key}
    (stays : ¬ map.Resizes (.del key)) :
    map.hashDel key false = map.hashDel key true := by
  cases found : map.hashLookup key (map.hfunc key) with
  | none => simp [HashTable.hashDel, found]
  | some slot =>
      cases content : map.table slot with
      | empty | deleted =>
          have notActive : (map.table slot).Active = false := by
            rw [content]
            rfl
          rw [hashDel_of_not_active found notActive,
            hashDel_of_not_active found notActive]
      | active =>
          rw [hashDel_of_active found content, hashDel_of_active found content,
            hashUpdate_of_not_outgrown, hashUpdate_of_not_outgrown] <;>
          exact fun outgrown =>
            stays ⟨slot, found, by rw [content]; rfl, outgrown⟩

/-- A call that asks for no new table does not depend on the allocation. -/
theorem answer_of_not_resizes {call : HashCall Key Value}
    (stays : ¬ map.Resizes call) :
    map.answer false call = map.answer true call := by
  cases call with
  | get | isset => rfl
  | set key value => simp only [answer, hashSet_of_not_resizes stays]
  | del key => simp only [answer, hashDel_of_not_resizes stays]

/-! ## Runs without refusals -/

variable {hfunc : Key → BitVec 32} {cmp : Key → Key → Bool}
variable {log : List ((HashCall Key Value × Bool) × HashAnswer Value)}

/-- The calls with their answers only. -/
def calls (log : List ((HashCall Key Value × Bool) × HashAnswer Value)) :
    List (HashCall Key Value × HashAnswer Value) :=
  log.map fun entry => (entry.1.1, entry.2)

theorem Unrefused.front
    {front back : List ((HashCall Key Value × Bool) × HashAnswer Value)}
    (unrefused : Unrefused hfunc cmp (front ++ back)) :
    Unrefused hfunc cmp front := by
  rintro front' call answer back' before rfl tries
  exact unrefused front' call answer (back' ++ back) before (by simp) tries

/-- Such a run is one all of whose allocations succeed. -/
theorem Tries.serves (tries : Tries hfunc cmp log map)
    (unrefused : Unrefused hfunc cmp log) :
    Serves hfunc cmp (calls log) map := by
  induction tries with
  | nothing => exact .nothing
  | @call log before after answer front call answers fits ih =>
      have whole : before.answer true call.1 = some (answer, after) := by
        obtain ⟨call, allocated⟩ := call
        cases allocated with
        | true => exact answers
        | false =>
            rw [← answer_of_not_resizes
              (unrefused log call answer [] before rfl front)]
            exact answers
      have served := Logged.Runs.call (ih unrefused.front) call.1 whole fits
      rw [calls, List.map_append]
      exact served

/-- Every call is answered without a failure. -/
theorem Bounded.answer (bounded : map.Bounded) (sparse : map.Sparse)
    (fits : map.Fits) (call : HashCall Key Value) :
    ∃ answer map', map.answer true call = some (answer, map') ∧
      answer ≠ .status (-1) ∧ map'.Bounded ∧ map'.Sparse := by
  cases call with
  | set key value =>
      obtain ⟨map', set, loaded⟩ := bounded.hashSet sparse fits.small key value
      exact ⟨.status 0, map', by simp [HashTable.answer, set], by simp,
        loaded.bounded, loaded.sparse⟩
  | del key =>
      obtain ⟨map', deleted, loaded⟩ := bounded.hashDel sparse fits.small key
      exact ⟨.status 0, map', by simp [HashTable.answer, deleted], by simp,
        loaded.bounded, loaded.sparse⟩
  | get key default =>
      obtain ⟨slot, -, found⟩ :=
        bounded.hashLookup sparse.room key (bounded.hashes key)
      cases content : map.table slot <;>
        exact ⟨_, map, by simp [HashTable.answer, HashTable.hashGet, found, content]; rfl,
          by simp, bounded, sparse⟩
  | isset key =>
      obtain ⟨slot, -, found⟩ :=
        bounded.hashLookup sparse.room key (bounded.hashes key)
      cases content : map.table slot <;>
        exact ⟨_, map, by simp [HashTable.answer, HashTable.hashIsset, found, content]; rfl,
          by simp, bounded, sparse⟩

theorem hashUpdate_of_outgrown
    (outgrown : Outgrown map.mask map.fill map.count) :
    map.hashUpdate false = some (-1, map) := by
  unfold hashUpdate
  by_cases grows : 3 * map.fill ≥ 2 * (map.mask + 1)
  · simp only [if_pos grows]
    split <;> rfl
  · simp only [if_neg grows, if_pos (outgrown.resolve_left grows)]
    rfl

theorem Ok.hashIsset_of_active (ok : map.Ok) (room : map.Room) {slot : Nat}
    {key : Key} {value : Value} {hash : Nat} (inside : slot ≤ map.mask)
    (active : map.table slot = .active key value hash) :
    map.hashIsset key = some true :=
  (ok.hashIsset room key).1 value
    ⟨slot, inside, key, hash, active, ok.lawful.refl key⟩

/-- A refused insertion fails with the pair in the table. -/
theorem Settled.refused_set (settled : map.Settled) {key : Key} {value : Value}
    (resizes : map.Resizes (.set key value)) :
    ∃ map', map.hashSet key value false = some (-1, map') ∧
      map.hashIsset key = some false ∧ map'.hashIsset key = some true := by
  have ok := settled.ok
  obtain ⟨slot, found, free⟩ := resizes
  obtain ⟨slot', inside, found', reached, outcome⟩ :=
    ok.hashLookup settled.room key
  cases found.symm.trans found'
  have isFree : map.table slot = .empty ∨ map.table slot = .deleted :=
    free.imp And.left And.left
  have absent : ∀ value, ¬ map.Holds key value := by
    rcases outcome with ⟨key', value', hash, active, -⟩ | ⟨-, absent⟩
    · rcases isFree with content | content <;> rw [content] at active <;>
        cases active
    · exact absent
  have unset := (ok.hashIsset settled.room key).2 absent
  have room : map.fill + 1 ≤ map.mask := by
    have sparse := settled.sparse
    have large := ok.le_size
    unfold Sparse at sparse
    unfold hashMinSize at large
    omega
  rcases free with ⟨content, outgrown⟩ | ⟨content, outgrown⟩
  · have written : HashTable.Ok { map with
        count := map.count + 1
        fill := map.fill + 1
        table := Function.update map.table slot
          (.active key value (map.hfunc key)) } :=
      ok.put ⟨rfl, rfl, rfl⟩ inside isFree reached absent rfl rfl
        (by simp [content, Slot.Used])
    exact ⟨_, (hashSet_of_empty found content value false).trans
      (hashUpdate_of_outgrown outgrown), unset,
      written.hashIsset_of_active room inside (Function.update_self ..)⟩
  · have written : HashTable.Ok { map with
        count := map.count + 1
        table := Function.update map.table slot
          (.active key value (map.hfunc key)) } :=
      ok.put ⟨rfl, rfl, rfl⟩ inside isFree reached absent rfl rfl
        (by simp [content, Slot.Used])
    exact ⟨_, (hashSet_of_deleted found content value false).trans
      (hashUpdate_of_outgrown outgrown), unset,
      written.hashIsset_of_active (Nat.le_of_succ_le room) inside
        (Function.update_self ..)⟩

/-- A refused removal fails with the pair gone. -/
theorem Settled.refused_del (settled : map.Settled) {key : Key}
    (resizes : map.Resizes (.del key)) :
    ∃ map', map.hashDel key false = some (-1, map') ∧
      map.hashIsset key = some true ∧ map'.hashIsset key = some false := by
  have ok := settled.ok
  obtain ⟨slot, found, isActive, outgrown⟩ := resizes
  obtain ⟨slot', inside, found', -, outcome⟩ := ok.hashLookup settled.room key
  cases found.symm.trans found'
  rcases outcome with ⟨key', value, hash, active, same⟩ | ⟨isFree, -⟩
  · have updates := hashDel_of_active found active false
    generalize isErased : { map with
      count := map.count - 1
      table := Function.update map.table slot .deleted } = erased at updates
    have shape : map.SameShape erased := by
      rw [← isErased]
      exact ⟨rfl, rfl, rfl⟩
    have changed : erased.table = Function.update map.table slot .deleted := by
      rw [← isErased]
    have fill : erased.fill = map.fill := by
      rw [← isErased]
    have count : erased.count = map.count - 1 := by
      rw [← isErased]
    have room : erased.Room := by
      unfold Room
      rw [fill, shape.mask]
      exact settled.room
    have erased_ok := ok.erase shape inside active changed count fill
    refine ⟨erased, updates.trans (hashUpdate_of_outgrown ?_),
      (ok.hashIsset settled.room key).1 value
        ⟨slot, inside, key', hash, active, same⟩,
      (erased_ok.hashIsset room key).2 ?_⟩
    · rw [shape.mask, fill, count]
      exact outgrown
    · intro value' holds
      rw [ok.holds_erase shape inside active changed, same] at holds
      exact absurd holds.1 (by decide)
  · rcases isFree with content | content <;> rw [content] at isActive <;>
      cases isActive

/-- A refused call fails and changes what the table holds. -/
theorem Settled.refused (settled : map.Settled) {call : HashCall Key Value}
    (resizes : map.Resizes call) :
    ∃ map', map.answer false call = some (.status (-1), map') ∧
      ¬ map.SameAnswers map' := by
  cases call with
  | get | isset => exact absurd resizes id
  | set key value =>
      obtain ⟨map', fails, before, after⟩ := settled.refused_set resizes
      refine ⟨map', by simp [answer, fails], ?_⟩
      intro same
      have isset := same.isset key
      rw [before, after] at isset
      cases isset
  | del key =>
      obtain ⟨map', fails, before, after⟩ := settled.refused_del resizes
      refine ⟨map', by simp [answer, fails], ?_⟩
      intro same
      have isset := same.isset key
      rw [before, after] at isset
      cases isset

/-! ## The calls that fail -/

theorem Serves.loaded {log : List (HashCall Key Value × HashAnswer Value)}
    (serves : Serves hfunc cmp log map) :
    map.Bounded ∧ map.Sparse ∧ map.Fits := by
  apply serves.keeps (I := fun map => map.Bounded ∧ map.Sparse ∧ map.Fits)
  · exact Reaches.init.loaded
  · rintro call answer before after ⟨bounded, sparse, fits⟩ answers fits'
    obtain ⟨answer', map', same, -, bounded', sparse'⟩ :=
      bounded.answer sparse fits call
    cases answers.symm.trans same
    exact ⟨bounded', sparse', fits'⟩

/-- As long as no call is refused, no call fails and every search ends. -/
theorem Unrefused.failsSafely (unrefused : Unrefused hfunc cmp log) :
    FailsSafely hfunc cmp log := by
  constructor
  · rintro front call allocated back before after rfl tries fails
    obtain ⟨bounded, sparse, fits⟩ := (tries.serves unrefused.front).loaded
    obtain ⟨answer, map', succeeds, answered, -⟩ :=
      bounded.answer sparse fits call
    have same : before.answer allocated call = before.answer true call := by
      cases allocated with
      | true => rfl
      | false =>
          exact answer_of_not_resizes (unrefused front call _ back before rfl tries)
    cases fails.symm.trans (same.trans succeeds)
    exact absurd rfl answered
  · rintro front back map rfl tries key
    obtain ⟨bounded, sparse, -⟩ := (tries.serves unrefused.front).loaded
    obtain ⟨slot, -, found⟩ :=
      bounded.hashLookup sparse.room key (bounded.hashes key)
    exact ⟨slot, found⟩

/-- The first refused call of a run changes the table and fails. -/
theorem FailsSafely.unrefused
    (equivalence : Equivalence fun key key' => cmp key key' = true)
    (respects : ∀ key key', cmp key key' = true → hfunc key = hfunc key')
    (tries : Tries hfunc cmp log map) (safely : FailsSafely hfunc cmp log) :
    Unrefused hfunc cmp log := by
  intro front
  induction isLength : front.length using Nat.strong_induction_on
    generalizing front with
  | h n ih =>
      intro call answer back before isLog triesFront resizes
      have earlier : Unrefused hfunc cmp front := by
        rintro front' call' answer' back' before' rfl
        exact ih front'.length (by simp [← isLength]) front' rfl call' answer'
          (back' ++ ((call, false), answer) :: back) before' (by simp [isLog])
      obtain ⟨contents, -, represents, -⟩ :=
        (triesFront.serves earlier).represents equivalence respects
      obtain ⟨map', fails, changed⟩ := represents.settled.refused resizes
      have whole : log = front ++ [((call, false), answer)] ++ back := by
        simp [isLog]
      rw [whole] at tries
      obtain ⟨after, tries'⟩ := Logged.Runs.front tries
      obtain ⟨before', front', answers, -⟩ := tries'.last_call
      cases triesFront.unique front'
      cases fails.symm.trans answers
      exact changed (safely.unchanged front call false back before _ isLog
        triesFront fails)

/-! ## A table without empty slots -/

/-- The loop never ends in a table all of whose slots it passes. -/
theorem lookupFrom_endless {key : Key} {hash : Nat}
    (passes : ∀ slot ≤ map.mask, map.Passes key hash slot)
    (turns index perturb : Nat) (freeslot : Option Nat) :
    map.lookupFrom key hash turns index perturb freeslot = none := by
  induction turns generalizing index perturb freeslot with
  | zero => rfl
  | succ turns ih =>
      obtain ⟨free', next, -⟩ := lookupFrom_pass turns index perturb freeslot
        (passes (index &&& map.mask) Nat.and_le_right)
      rw [next]
      exact ih _ _ _

/-- Eight insertions that all find no room for a larger table.  The sixth fails
with its pair in the table, the eighth takes the last empty slot. -/
theorem refused_sets_fill_table :
    ∃ log front, ∃ full before after : HashTable (BitVec 32) Nat,
      Tries id (fun key key' => key == key') log full ∧
      ¬ FailsSafely id (fun key key' => key == key') log ∧
      (Tries id (fun key key' => key == key') front before ∧
        before.answer false (.set 5 0) = some (.status (-1), after) ∧
        before.hashIsset 5 = some false ∧ after.hashIsset 5 = some true) ∧
      ∀ turns, full.lookupFrom 8 8 turns (8 &&& full.mask) 8 none = none := by
  have fits {map : HashTable (BitVec 32) Nat} (small : map.mask = 7) :
      map.Fits := by
    rw [Fits, small]
    decide
  have fresh : @Tries (BitVec 32) Nat _ id (fun key key' => key == key') [] _ :=
    .nothing
  have five := ((((fresh.call (.set 0 0, false) rfl (fits rfl)).call
    (.set 1 0, false) rfl (fits rfl)).call (.set 2 0, false) rfl
      (fits rfl)).call (.set 3 0, false) rfl (fits rfl)).call
        (.set 4 0, false) rfl (fits rfl)
  have six := five.call (.set 5 0, false) rfl (fits rfl)
  obtain ⟨log, full, eight, mask, hfunc, slots⟩ : ∃ log full,
      Tries id (fun key key' => key == key') log full ∧ full.mask = 7 ∧
      full.hfunc 8 = 8 ∧
      ∀ slot ≤ 7, full.table slot = .active (BitVec.ofNat 32 slot) 0 slot := by
    refine ⟨_, _, (six.call (.set 6 0, false) rfl (fits rfl)).call
      (.set 7 0, false) rfl (fits rfl), rfl, rfl, ?_⟩
    intro slot inside
    interval_cases slot <;> rfl
  have endless : ∀ turns,
      full.lookupFrom 8 8 turns (8 &&& full.mask) 8 none = none := by
    intro turns
    apply lookupFrom_endless
    intro slot inside
    rw [mask] at inside
    constructor
    · rw [slots slot inside]
      intro same
      cases same
    · rintro ⟨key', value, hash', content, same⟩
      rw [slots slot inside] at content
      cases content
      have other : BitVec.ofNat 32 slot ≠ 8 := by
        interval_cases slot <;> decide
      exact same.elim other fun alike => absurd alike.1 (by omega)
  refine ⟨log, _, full, _, _, eight, ?_, ⟨five, rfl, rfl, rfl⟩, endless⟩
  intro safely
  obtain ⟨slot, found⟩ := safely.ends log [] full (List.append_nil _).symm eight 8
  rw [hashLookup, hfunc, endless] at found
  cases found

/-- In every run in which no call asks in vain for a new table, a call that
fails changes nothing and every search ends; for comparators that the hash
function respects, in no other. -/
theorem failsSafely_of_unrefused (tries : Tries hfunc cmp log map) :
    (Unrefused hfunc cmp log → FailsSafely hfunc cmp log) ∧
    ((Equivalence fun key key' => cmp key key' = true) →
      (∀ key key', cmp key key' = true → hfunc key = hfunc key') →
      FailsSafely hfunc cmp log → Unrefused hfunc cmp log) :=
  ⟨Unrefused.failsSafely, fun equivalence respects safely =>
    safely.unrefused equivalence respects tries⟩

/-- The first insertion needs no new table. -/
theorem failsSafely_of_one :
    @FailsSafely (BitVec 32) Nat _ id (fun key key' => key == key')
      [((.set 5 40, false), .status 0)] := by
  have fresh : @Tries (BitVec 32) Nat _ id (fun key key' => key == key') [] _ :=
    .nothing
  have one := fresh.call (.set 5 40, false) rfl (by unfold Fits; decide)
  apply (failsSafely_of_unrefused one).1
  intro front call answer back before isLog tries resizes
  cases front with
  | cons entry front => cases front <;> cases isLog
  | nil =>
      cases isLog
      cases tries.of_nil
      obtain ⟨slot, found, ⟨-, outgrown⟩ | ⟨content, -⟩⟩ := resizes
      · exact absurd outgrown (by unfold Outgrown; decide)
      · cases content

end Refusing

end HashTable

end Nebulea
