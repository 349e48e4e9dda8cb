import Nebulea.SharedPageMap
import Mathlib.Data.Set.Card

/-!
# The counter of shared pages

`shm_create` and `shm_release` change the counter before they know whether
there is a page to make or to give back.  The counter is the number of
registered strings as long as every call that gets that far succeeds, and no
longer.
-/

namespace Nebulea

open ByteMemory ExceptState

/-- The strings that a page is registered for. -/
def Registry.strings (shared : Registry) : Set CString :=
  {string | ∃ page, shared.Registered string page}

/-- The counter is the number of registered strings, which never exceeds the
maximum. -/
structure Registry.Counted (shared : Registry) : Prop where
  finite : shared.strings.Finite
  number : shared.number = shared.strings.ncard
  bounded : shared.number ≤ maxSharedPages

/-- A call of `shm_create` that passes the test of the maximum finds a free
frame and gets a string that is not registered; a call of `shm_release` that
passes the test of the counter gets one that is.  Calls of `start` stay within
their own memory. -/
def Request.Accounted (platform : Platform) (m : Machine) : Request → Prop
  | .start name ssize prio arg =>
      Request.Contained platform m (.start name ssize prio arg)
  | .shmCreate key =>
      m.memory.shared.number < maxSharedPages →
        m.memory.paging.head ≠ 0 ∧
          ∃ k, key = some k ∧ m.memory.stringOf k ∉ m.memory.shared.strings
  | .shmRelease key =>
      0 ≤ m.memory.shared.number →
        m.memory.stringOf key ∈ m.memory.shared.strings
  | _ => True

/-! ## The counter alone -/

section Counter

variable {n : Int}

/-- The counter has the value `n`. -/
def Memory.Numbered (n : Int) (m : Memory) : Prop := m.shared.number = n

theorem keeps_onPaging {Value : Type} (code : PM Value) :
    Keeps (Memory.Numbered n) (onPaging code) := by
  intro m numbered
  rw [wp_onPaging]
  unfold wp
  cases code m.paging <;> exact numbered

theorem keeps_onTable {Value : Type} (result : Option Value) :
    Keeps (Memory.Numbered n) (onTable result) := by
  cases result with
  | none => exact Keeps.throw _
  | some value => exact Keeps.pure value

theorem keeps_register (key : KeyPtr) (page : Nat) :
    Keeps (Memory.Numbered n) (register key page) := by
  apply Keeps.bind Keeps.get
  intro m
  apply Keeps.bind (keeps_onTable _)
  intro result
  exact Keeps.modify fun _ numbered => numbered

theorem keeps_createKey (key : KeyPtr) :
    Keeps (Memory.Numbered n) (createKey key) := by
  apply Keeps.bind Keeps.get
  intro m
  apply Keeps.bind (keeps_onTable _)
  intro found
  split
  · exact Keeps.pure _
  · apply Keeps.bind (keeps_onPaging _)
    intro page
    apply Keeps.bind (keeps_register _ page)
    intro _
    exact Keeps.pure page

theorem keeps_releaseKey (key : KeyPtr) :
    Keeps (Memory.Numbered n) (releaseKey key) := by
  apply Keeps.bind Keeps.get
  intro m
  apply Keeps.bind (keeps_onTable _)
  intro address
  split
  · apply Keeps.bind (keeps_onPaging _)
    intro _
    apply Keeps.bind (keeps_onTable _)
    intro result
    exact Keeps.modify fun _ numbered => numbered
  · exact Keeps.pure _

variable {m : Memory}

/-- `shm_create` at the maximum. -/
theorem wp_shmCreate_full {key : Option KeyPtr}
    (full : maxSharedPages ≤ m.shared.number) :
    wp (shmCreate key) (fun page m' => page = 0 ∧ m' = m) (fun _ _ => False)
      m := by
  unfold shmCreate
  simp only [wp_bind, wp_get]
  rw [if_pos full, wp_pure]
  exact ⟨rfl, rfl⟩

/-- `shm_create` below the maximum counts, whatever comes of it. -/
theorem wp_shmCreate_number {key : Option KeyPtr}
    (below : m.shared.number < maxSharedPages) :
    wp (shmCreate key) (fun _ m' => m'.shared.number = m.shared.number + 1)
      (fun _ m' => m'.shared.number = m.shared.number + 1) m := by
  unfold shmCreate
  simp only [wp_bind, wp_get]
  rw [if_neg (by omega), wp_bind]
  unfold count
  rw [wp_modify]
  cases key with
  | none => rfl
  | some key => exact keeps_createKey key _ rfl

/-- `shm_release` counts unless the counter is negative. -/
theorem wp_shmRelease_number {key : KeyPtr} (positive : 0 ≤ m.shared.number) :
    wp (shmRelease key) (fun _ m' => m'.shared.number = m.shared.number - 1)
      (fun _ m' => m'.shared.number = m.shared.number - 1) m := by
  unfold shmRelease
  simp only [wp_bind, wp_get]
  rw [if_neg (by omega), wp_bind]
  unfold count
  rw [wp_modify]
  exact keeps_releaseKey key _ rfl

end Counter

/-! ## Strings and counter together -/

section Counted

variable {shared shared' : Registry} {string : CString}

theorem Registry.strings_congr
    (pairs : ∀ string page,
      shared'.Registered string page ↔ shared.Registered string page) :
    shared'.strings = shared.strings := by
  ext string
  exact exists_congr (pairs string)

theorem Registry.Counted.congr (counted : shared.Counted)
    (same : shared'.strings = shared.strings)
    (number : shared'.number = shared.number) : shared'.Counted := by
  obtain ⟨finite, isNumber, bounded⟩ := counted
  constructor
  · rwa [same]
  · rw [number, same, isNumber]
  · rwa [number]

/-- A counter that moves away from the same strings is wrong. -/
theorem Registry.Counted.not_counted (counted : shared.Counted)
    (same : shared'.strings = shared.strings)
    (number : shared'.number ≠ shared.number) : ¬ shared'.Counted := by
  intro counted'
  apply number
  rw [counted'.number, counted.number, same]

theorem Registry.Counted.insert (counted : shared.Counted)
    (absent : string ∉ shared.strings)
    (more : shared'.strings = Insert.insert string shared.strings)
    (below : shared.number < maxSharedPages)
    (number : shared'.number = shared.number + 1) : shared'.Counted := by
  obtain ⟨finite, isNumber, bounded⟩ := counted
  constructor
  · rw [more]
    exact finite.insert string
  · rw [number, more, Set.ncard_insert_of_notMem absent finite, isNumber]
    exact (Nat.cast_succ _).symm
  · omega

theorem Registry.Counted.erase (counted : shared.Counted)
    (member : string ∈ shared.strings)
    (less : shared'.strings = shared.strings \ {string})
    (number : shared'.number = shared.number - 1) : shared'.Counted := by
  obtain ⟨finite, isNumber, bounded⟩ := counted
  have size := Set.ncard_sdiff_singleton_add_one member finite
  constructor
  · rw [less]
    exact finite.sdiff
  · rw [number, less]
    omega
  · omega

end Counted

/-! ## Calls -/

section Calls

variable {platform : Platform} {m m' : Machine} {role : Nat → Role}
variable {free : List Nat} {owner : Nat → Owner}

/-- `shm_create` at the maximum changes neither the registry nor memory. -/
theorem Machine.step_create_full {key : Option KeyPtr}
    (full : maxSharedPages ≤ m.memory.shared.number)
    (next : m.step platform (.shmCreate key) = .next m') :
    m.kernel.mode = .user ∧ m' = m.returned m.memory 0 := by
  obtain ⟨user, ⟨page, memory, -, ⟨rfl, rfl⟩, enters⟩ | ⟨-, never, -⟩⟩ :=
    Machine.call_next next (wp_shmCreate_full full)
  · rw [Machine.enter_other user] at enters
    cases enters
    exact ⟨user, rfl⟩
  · exact absurd never id

theorem MachineOk.counted_create (ok : MachineOk m role free owner)
    (counted : m.memory.shared.Counted) {key : Option KeyPtr}
    (contained : Request.Contained platform m (.shmCreate key))
    (next : m.step platform (.shmCreate key) = .next m') :
    m'.memory.shared.Counted ↔
      Request.Accounted platform m (.shmCreate key) := by
  by_cases full : maxSharedPages ≤ m.memory.shared.number
  · obtain ⟨-, rfl⟩ := Machine.step_create_full full next
    rw [Machine.returned_shared]
    exact ⟨fun _ below => absurd below (by omega), fun _ => counted⟩
  have below : m.memory.shared.number < maxSharedPages := by omega
  have sane := ok.books.sane
  have nonEmpty : m.memory.paging.head ≠ 0 → free ≠ [] := by
    rintro nonNull rfl
    exact nonNull sane.layout.linked
  have safe : m.memory.paging.Guarded ∨ free ≠ [] :=
    contained.imp_right nonEmpty
  obtain ⟨user, ⟨page, memory, -, ⟨made, number⟩, enters⟩ | ⟨memory,
    ⟨⟨-, pairs, empty, -⟩, number⟩, rfl⟩⟩ := Machine.call_next next
      (wp_and (wp_shmCreate sane safe) (wp_shmCreate_number below))
  · rw [Machine.enter_other user] at enters
    cases enters
    rw [Machine.returned_shared]
    rcases made with ⟨-, only, -, registered⟩ | ⟨k, rest, rfl, made⟩
    · -- the call counted and made no page
      constructor
      · intro counted'
        exact absurd counted' (counted.not_counted
          (Registry.strings_congr only.pairs) (by omega))
      · intro accounted
        obtain ⟨-, k, rfl, absent⟩ := accounted below
        exact absurd (registered k rfl below) absent
    · have absent : m.memory.stringOf k ∉ m.memory.shared.strings :=
        fun ⟨q, registered⟩ => made.absent q registered
      have more : memory.shared.strings =
          insert (m.memory.stringOf k) m.memory.shared.strings := by
        ext string
        constructor
        · rintro ⟨q, registered⟩
          rcases (made.pairs string q).mp registered with ⟨same, -⟩ | ⟨-, old⟩
          · exact .inl same
          · exact .inr ⟨q, old⟩
        · rintro (same | ⟨q, registered⟩)
          · exact ⟨page, (made.pairs string page).mpr (.inl ⟨same, rfl⟩)⟩
          · refine ⟨q, (made.pairs string q).mpr (.inr ⟨?_, registered⟩)⟩
            rintro rfl
            exact absent ⟨q, registered⟩
      constructor
      · intro _ _
        refine ⟨?_, k, rfl, absent⟩
        intro isNull
        have linked := sane.layout.linked
        rw [made.isFree, isNull] at linked
        obtain ⟨isPage, -⟩ := linked
        apply made.sane.nonNull ((made.pairs _ page).mpr (.inl ⟨rfl, rfl⟩))
        exact isPage.symm
      · intro _
        exact counted.insert absent more below number
  · -- no free frame
    constructor
    · intro counted'
      exact absurd counted' (counted.not_counted
        (Registry.strings_congr pairs) (by
          rw [show (m.pageFault memory).memory.shared.number =
            m.memory.shared.number + 1 from number]
          omega))
    · intro accounted
      exact absurd empty (nonEmpty (accounted below).1)

theorem MachineOk.counted_release (ok : MachineOk m role free owner)
    (counted : m.memory.shared.Counted) {key : KeyPtr}
    (next : m.step platform (.shmRelease key) = .next m') :
    m'.memory.shared.Counted ↔
      Request.Accounted platform m (.shmRelease key) := by
  have positive : 0 ≤ m.memory.shared.number := by
    rw [counted.number]
    exact Int.natCast_nonneg _
  obtain ⟨user, ⟨-, memory, -, ⟨released, number⟩, enters⟩ |
    ⟨-, ⟨never, -⟩, -⟩⟩ := Machine.call_next next
      (wp_and (wp_shmRelease ok.books.sane) (wp_shmRelease_number positive))
  · rw [Machine.enter_other user] at enters
    cases enters
    rw [Machine.returned_shared]
    rcases released with ⟨only, -, absent⟩ | ⟨page, freed⟩
    · -- the call counted and found no page
      constructor
      · intro counted'
        exact absurd counted' (counted.not_counted
          (Registry.strings_congr only.pairs) (by omega))
      · intro accounted
        obtain ⟨page, registered⟩ := accounted positive
        exact absurd registered (absent positive page)
    · have member : m.memory.stringOf key ∈ m.memory.shared.strings :=
        ⟨page, freed.registered⟩
      have less : memory.shared.strings =
          m.memory.shared.strings \ {m.memory.stringOf key} := by
        ext string
        constructor
        · rintro ⟨q, registered⟩
          obtain ⟨other, old⟩ := (freed.pairs string q).mp registered
          exact ⟨⟨q, old⟩, other⟩
        · rintro ⟨⟨q, registered⟩, other⟩
          exact ⟨q, (freed.pairs string q).mpr ⟨other, registered⟩⟩
      exact ⟨fun _ _ => member, fun _ => counted.erase member less number⟩
  · exact absurd never id

/-- One entry keeps the counter right exactly when it is accounted for. -/
theorem MachineOk.counted_step (ok : MachineOk m role free owner)
    (counted : m.memory.shared.Counted) {request : Request}
    (contained : request.Contained platform m)
    (next : m.step platform request = .next m') :
    m'.memory.shared.Counted ↔ request.Accounted platform m := by
  cases request with
  | kernel a =>
      unfold Machine.step at next
      simp only at next
      split at next
      · cases next
      · rw [Machine.enter_shared next]
        exact ⟨fun _ => trivial, fun _ => counted⟩
  | start name ssize prio arg =>
      rw [Machine.start_shared next]
      exact ⟨fun _ => contained, fun _ => counted⟩
  | shmCreate key => exact ok.counted_create counted contained next
  | shmAcquire key =>
      obtain ⟨user, ⟨page, memory, -, ⟨mapped, -, -⟩, enters⟩ | ⟨-, never, -⟩⟩ :=
        Machine.call_next next (wp_shmAcquire ok.books.sane)
      · rw [Machine.enter_shared enters]
        simp only [mapped.shared]
        exact ⟨fun _ => trivial, fun _ => counted⟩
      · exact absurd never id
  | shmRelease key => exact ok.counted_release counted next

/-- Entries that are accounted for stay within their own memory, except that
a call of `shm_create` at the maximum does not look at memory at all. -/
theorem Request.Accounted.contained {request : Request}
    (accounted : request.Accounted platform m) :
    request.Contained platform m ∨
      ∃ key, request = .shmCreate key ∧
        maxSharedPages ≤ m.memory.shared.number := by
  cases request with
  | start name ssize prio arg => exact .inl accounted
  | shmCreate key =>
      by_cases full : maxSharedPages ≤ m.memory.shared.number
      · exact .inr ⟨key, rfl, full⟩
      · exact .inl (.inr (accounted (by omega)).1)
  | kernel | shmAcquire | shmRelease => exact .inl trivial

theorem MachineOk.accounted_step (ok : MachineOk m role free owner)
    (counted : m.memory.shared.Counted) {request : Request}
    (accounted : request.Accounted platform m)
    (next : m.step platform request = .next m') :
    m'.InOrder ∧ m'.memory.shared.Counted := by
  rcases accounted.contained with contained | ⟨key, rfl, full⟩
  · exact ⟨Machine.InOrder.step ⟨role, free, owner, ok⟩ contained next,
      (ok.counted_step counted contained next).mpr accounted⟩
  · obtain ⟨user, rfl⟩ := Machine.step_create_full full next
    constructor
    · exact ⟨role, free, owner, ok.enter (Machine.enter_other user m.memory 0)
        (not_accepted_other _ _)⟩
    · rw [Machine.returned_shared]
      exact counted

theorem MachineRun.counted
    (run : MachineRun platform
      (fun m request => request.Accounted platform m) m m')
    (inOrder : m.InOrder) (start : m.memory.shared.Counted) :
    m'.InOrder ∧ m'.memory.shared.Counted := by
  induction run with
  | refl => exact ⟨inOrder, start⟩
  | step _ accounted next ih =>
      obtain ⟨⟨role, free, owner, ok⟩, counted⟩ := ih
      exact ok.accounted_step counted accounted next

end Calls

section Runs

variable {platform : Platform} {m m' : Machine}

/-- A test for entries that are neither calls of `start` nor calls on shared
pages. -/
def Request.isKernel : Request → Bool
  | .kernel _ => true
  | _ => false

/-- The entry ends, and what it leaves passes the test. -/
def MachineOutcome.passes (test : Machine → Bool) : MachineOutcome → Bool
  | .next m => test m
  | _ => false

end Runs

end Nebulea
