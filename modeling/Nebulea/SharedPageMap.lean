import Nebulea.MachineBoot

/-!
# Shared pages as a map

The calls on shared pages are compared with a map from strings to pages that is
kept beside the run: a successful `shm_create` adds a pair and `shm_release`
removes one.  The registry holds the same pairs as long as the counter of pages
is not negative when a registered page is released.
-/

namespace Nebulea

open ByteMemory ExceptState

/-- What a client expects of the registry. -/
abbrev PageMap := CString → Option Nat

/-- The map after an entry that leads from one machine to the next. -/
def PageMap.after (expected : PageMap) (m : Machine) (m' : Machine) :
    Request → PageMap
  | .shmCreate (some key) =>
      -- the call returned, and not the null pointer
      if m'.kernel.mode = .user ∧ m'.kernel.eax ≠ 0 then
        Function.update expected (m.memory.stringOf key)
          (some m'.kernel.eax.toNat)
      else expected
  | .shmRelease key =>
      Function.update expected (m.memory.stringOf key) none
  | _ => expected

theorem PageMap.after_create (expected : PageMap) (m m' : Machine)
    (key : KeyPtr) :
    expected.after m m' (.shmCreate (some key)) =
      if m'.kernel.mode = .user ∧ m'.kernel.eax ≠ 0 then
        Function.update expected (m.memory.stringOf key)
          (some m'.kernel.eax.toNat)
      else expected :=
  rfl

theorem PageMap.after_release (expected : PageMap) (m m' : Machine)
    (key : KeyPtr) :
    expected.after m m' (.shmRelease key) =
      Function.update expected (m.memory.stringOf key) none :=
  rfl

/-- A run with the map that its calls lead to. -/
inductive SharedRun (platform : Platform)
    (meets : Machine → Request → Prop) (m : Machine) :
    Machine → PageMap → Prop
  | refl : SharedRun platform meets m m fun _ => none
  | step {m' m'' : Machine} {expected : PageMap} {request : Request}
      (front : SharedRun platform meets m m' expected)
      (met : meets m' request) (next : m'.step platform request = .next m'') :
      SharedRun platform meets m m'' (expected.after m' m'' request)

/-- The registry of `m` behaves as the map does. -/
structure Machine.ActsAs (platform : Platform) (m : Machine)
    (expected : PageMap) : Prop where
  pairs : ∀ string page, m.memory.shared.Registered string page ↔
    expected string = some page
  distinct : ∀ string string' page, expected string = some page →
    expected string' = some page → string = string'
  acquire : m.kernel.mode = .user → ∀ key,
    ∃ m', m.step platform (.shmAcquire key) = .next m' ∧
      m'.kernel.mode = .user ∧
      m'.kernel.eax = ((expected (m.memory.stringOf key)).getD 0 : Nat)
  create : m.kernel.mode = .user → ∀ key,
    expected (m.memory.stringOf key) ≠ none →
    ∃ m', m.step platform (.shmCreate (some key)) = .next m' ∧
      m'.kernel.mode = .user ∧ m'.kernel.eax = 0 ∧
      ∀ string page, m'.memory.shared.Registered string page ↔
        m.memory.shared.Registered string page
  release : m.kernel.mode = .user → ∀ key,
    ∃ m', m.step platform (.shmRelease key) = .next m' ∧
      m'.kernel.mode = .user ∧
      ∀ string, string ≠ m.memory.stringOf key → ∀ page,
        m'.memory.shared.Registered string page ↔
          m.memory.shared.Registered string page

/-- An entry stays within its own memory, and a registered page is released
only while the counter is not negative. -/
def Request.Managed (platform : Platform) (m : Machine) (request : Request) :
    Prop :=
  request.Contained platform m ∧
    ∀ key page, request = .shmRelease key →
      m.memory.shared.Registered (m.memory.stringOf key) page →
        0 ≤ m.memory.shared.number

/-! ## Calls -/

section Calls

variable {platform : Platform} {m m' : Machine} {role : Nat → Role}
variable {free : List Nat} {owner : Nat → Owner} {expected : PageMap}

/-- The machine after a call that returned. -/
def Machine.returned (m : Machine) (memory : Memory) (value : Int) : Machine :=
  Machine.loadCr3
    { m with
      kernel := { m.kernel with mode := .user, eax := value }
      memory := memory }

theorem Machine.enter_other (user : m.kernel.mode = .user) (memory : Memory)
    (value : Int) :
    Machine.enter { m with memory := memory } (.call (.other value)) =
      .next (m.returned memory value) := by
  have isStep : Nebulea.step (.call (.other value)) m.kernel =
      .next { m.kernel with mode := .user, eax := value } := by
    unfold Nebulea.step
    rw [user]
    rfl
  unfold Machine.enter
  simp only [isStep]
  rfl

theorem Machine.loadCr3_shared (m : Machine) :
    m.loadCr3.memory.shared = m.memory.shared := by
  unfold Machine.loadCr3
  cases m.spaces m.kernel.running <;> rfl

theorem Machine.returned_shared (m : Machine) (memory : Memory) (value : Int) :
    (m.returned memory value).memory.shared = memory.shared :=
  Machine.loadCr3_shared _

theorem Machine.returned_mode (m : Machine) (memory : Memory) (value : Int) :
    (m.returned memory value).kernel.mode = .user := by
  unfold Machine.returned
  rw [Machine.loadCr3_kernel]

theorem Machine.returned_eax (m : Machine) (memory : Memory) (value : Int) :
    (m.returned memory value).kernel.eax = value := by
  unfold Machine.returned
  rw [Machine.loadCr3_kernel]

/-- A call that cannot fault returns. -/
theorem Machine.call_returns {Value : Type} {code : MM Value}
    {post : Value → Memory → Prop} (user : m.kernel.mode = .user)
    (rule : wp code post (fun _ _ => False) m.memory) (value : Value → Int) :
    ∃ result memory, post result memory ∧
      m.call code (fun result memory =>
        Machine.enter { m with memory := memory } (.call (.other (value result)))) =
        .next (m.returned memory (value result)) := by
  unfold Machine.call
  rw [if_pos user]
  unfold wp at rule
  cases outcome : code m.memory with
  | ok result memory =>
      rw [outcome] at rule
      exact ⟨result, memory, rule, Machine.enter_other user memory _⟩
  | error failure memory =>
      rw [outcome] at rule
      exact absurd rule id

theorem Machine.enter_shared {a : Action} (next : m.enter a = .next m') :
    m'.memory.shared = m.memory.shared := by
  obtain ⟨s, -, rfl⟩ := Machine.enter_next next
  rw [Machine.loadCr3_shared]

/-- `start` leaves the registry alone. -/
theorem Machine.start_shared {name : String} {ssize arg : Nat} {prio : Int}
    (next : m.step platform (.start name ssize prio arg) = .next m') :
    m'.memory.shared = m.memory.shared := by
  unfold Machine.step at next
  simp only at next
  split at next
  · exact Machine.enter_shared next
  · have rule : wp (onPaging (buildSpace (platform.images name) ssize))
        (fun _ memory => memory.shared = m.memory.shared)
        (fun _ memory => memory.shared = m.memory.shared) m.memory := by
      rw [wp_onPaging]
      unfold wp
      cases buildSpace (platform.images name) ssize m.memory.paging <;> rfl
    obtain ⟨-, ⟨space, memory, -, shared, finish⟩ | ⟨memory, shared, rfl⟩⟩ :=
      Machine.call_next next rule
    · unfold Machine.finishStart at finish
      simp only at finish
      split at finish
      · exact (Machine.enter_shared finish).trans shared
      · split at finish
        · rename_i finished isFinished
          exact (Machine.enter_shared finish).trans
            ((onPaging_ok isFinished).2.trans shared)
        · cases finish
    · exact shared

/-- The registry holds the pairs of the map. -/
def Machine.Agrees (m : Machine) (expected : PageMap) : Prop :=
  ∀ string page, m.memory.shared.Registered string page ↔
    expected string = some page

theorem MachineOk.actsAs (ok : MachineOk m role free owner)
    (agrees : m.Agrees expected) : m.ActsAs platform expected := by
  have sane := ok.books.sane
  constructor
  · exact agrees
  · intro string string' page isPage isPage'
    exact sane.kept.distinct string string' page
      ((agrees string page).mpr isPage) ((agrees string' page).mpr isPage')
  · intro user key
    obtain ⟨page, memory, ⟨-, -, found⟩, returns⟩ :=
      Machine.call_returns user (wp_shmAcquire sane) fun page => (page : Int)
    refine ⟨_, returns, Machine.returned_mode .., ?_⟩
    rw [Machine.returned_eax]
    rcases found with registered | ⟨rfl, absent⟩
    · rw [(agrees _ page).mp registered]
      rfl
    · cases isPage : expected (m.memory.stringOf key) with
      | none => rfl
      | some q => exact absurd ((agrees _ q).mpr isPage) (absent q)
  · intro user key isSome
    obtain ⟨page, isPage⟩ := Option.ne_none_iff_exists'.mp isSome
    obtain ⟨result, memory, ⟨isNull, counted⟩, returns⟩ :=
      Machine.call_returns user
        (wp_shmCreate_registered sane ((agrees _ page).mpr isPage))
        fun page => (page : Int)
    refine ⟨_, returns, Machine.returned_mode .., ?_, ?_⟩
    · rw [Machine.returned_eax, isNull]
      rfl
    · rw [Machine.returned_shared]
      exact counted.pairs
  · intro user key
    obtain ⟨-, memory, released, returns⟩ :=
      Machine.call_returns user (wp_shmRelease sane) fun _ => 0
    refine ⟨_, returns, Machine.returned_mode .., ?_⟩
    intro string other page
    rw [Machine.returned_shared]
    rcases released with ⟨counted, -, -⟩ | ⟨freedPage, freed⟩
    · exact counted.pairs string page
    · rw [freed.pairs]
      exact ⟨fun both => both.2, fun registered => ⟨other, registered⟩⟩

theorem Machine.Agrees.congr (agrees : m.Agrees expected)
    (pairs : ∀ string page, m'.memory.shared.Registered string page ↔
      m.memory.shared.Registered string page) : m'.Agrees expected :=
  fun string page => (pairs string page).trans (agrees string page)

/-- What `shm_create` does to the map. -/
theorem MachineOk.agrees_create (ok : MachineOk m role free owner)
    (agrees : m.Agrees expected) {key : Option KeyPtr}
    (contained : Request.Contained platform m (.shmCreate key))
    (next : m.step platform (.shmCreate key) = .next m') :
    m'.Agrees (expected.after m m' (.shmCreate key)) := by
  have sane := ok.books.sane
  have safe : m.memory.paging.Guarded ∨ free ≠ [] := by
    apply contained.imp_right
    rintro nonNull rfl
    exact nonNull sane.layout.linked
  obtain ⟨user, ⟨page, memory, -, made, enters⟩ | ⟨memory, ⟨-, pairs, -⟩,
    rfl⟩⟩ := Machine.call_next next (wp_shmCreate sane safe)
  · rw [Machine.enter_other user] at enters
    cases enters
    rcases made with ⟨isNull, counted, -, -⟩ | ⟨k, rest, rfl, made⟩
    · have same : m.Agrees expected → (m.returned memory page).Agrees expected :=
        fun agrees => agrees.congr (by
          rw [Machine.returned_shared]
          exact counted.pairs)
      cases key with
      | none => exact same agrees
      | some key =>
          rw [PageMap.after_create,
            if_neg (by simp [Machine.returned_eax, isNull])]
          exact same agrees
    · have nonNull : page ≠ 0 := by
        apply made.sane.nonNull
        exact (made.pairs _ page).mpr (.inl ⟨rfl, rfl⟩)
      rw [PageMap.after_create,
        if_pos ⟨Machine.returned_mode .., by simpa [Machine.returned_eax]⟩]
      intro string q
      rw [Machine.returned_shared, made.pairs, Machine.returned_eax,
        Int.toNat_natCast]
      by_cases isKey : string = m.memory.stringOf k
      · rw [isKey, Function.update_self]
        simp [eq_comm]
      · rw [Function.update_of_ne isKey, ← agrees string q]
        simp [isKey]
  · cases key with
    | none => exact agrees.congr pairs
    | some key =>
        rw [PageMap.after_create, if_neg (by simp [Machine.pageFault])]
        exact agrees.congr pairs

/-- What `shm_release` does to the map. -/
theorem MachineOk.agrees_release (ok : MachineOk m role free owner)
    (agrees : m.Agrees expected) {key : KeyPtr}
    (managed : Request.Managed platform m (.shmRelease key))
    (next : m.step platform (.shmRelease key) = .next m') :
    m'.Agrees (expected.after m m' (.shmRelease key)) := by
  obtain ⟨user, ⟨-, memory, -, released, enters⟩ | ⟨-, never, -⟩⟩ :=
    Machine.call_next next (wp_shmRelease ok.books.sane)
  · rw [Machine.enter_other user] at enters
    cases enters
    rw [PageMap.after_release]
    intro string page
    rw [Machine.returned_shared]
    rcases released with ⟨counted, -, absent⟩ | ⟨freedPage, freed⟩
    · have notRegistered : ∀ q,
          ¬ m.memory.shared.Registered (m.memory.stringOf key) q :=
        fun q registered =>
          absent (managed.2 key q rfl registered) q registered
      rw [counted.pairs]
      by_cases isKey : string = m.memory.stringOf key
      · rw [isKey, Function.update_self]
        simp [notRegistered]
      · rw [Function.update_of_ne isKey]
        exact agrees string page
    · rw [freed.pairs]
      by_cases isKey : string = m.memory.stringOf key
      · rw [isKey, Function.update_self]
        simp
      · rw [Function.update_of_ne isKey, ← agrees string page]
        simp [isKey]
  · exact absurd never id

/-- One entry keeps the registry and the map together. -/
theorem MachineOk.agrees_step (ok : MachineOk m role free owner)
    (agrees : m.Agrees expected) {request : Request}
    (managed : request.Managed platform m)
    (next : m.step platform request = .next m') :
    m'.Agrees (expected.after m m' request) := by
  have same (shared : m'.memory.shared = m.memory.shared) :
      m'.Agrees expected :=
    agrees.congr (by simp [shared])
  cases request with
  | kernel a =>
      unfold Machine.step at next
      simp only at next
      split at next
      · cases next
      · exact same (Machine.enter_shared next)
  | start name ssize prio arg => exact same (Machine.start_shared next)
  | shmCreate key => exact ok.agrees_create agrees managed.1 next
  | shmAcquire key =>
      obtain ⟨user, ⟨page, memory, -, ⟨mapped, -, -⟩, enters⟩ | ⟨-, never, -⟩⟩ :=
        Machine.call_next next (wp_shmAcquire ok.books.sane)
      · exact same ((Machine.enter_shared enters).trans mapped.shared)
      · exact absurd never id
  | shmRelease key => exact ok.agrees_release agrees managed next

theorem SharedRun.agrees
    (run : SharedRun platform
      (fun m request => request.Managed platform m) m m' expected)
    (inOrder : m.InOrder) (start : m.Agrees fun _ => none) :
    m'.InOrder ∧ m'.Agrees expected := by
  induction run with
  | refl => exact ⟨inOrder, start⟩
  | step _ managed next ih =>
      obtain ⟨⟨role, free, owner, ok⟩, agrees⟩ := ih
      exact ⟨Machine.InOrder.step ⟨role, free, owner, ok⟩ managed.1 next,
        ok.agrees_step agrees managed next⟩

end Calls

/-- The registry is empty after boot. -/
theorem agrees_bootMachine {platform : Platform} {m : Machine}
    (booted : bootMachine platform = some m) : m.Agrees fun _ => none := by
  unfold bootMachine at booted
  split at booted
  · cases booted
    intro string page
    simp [not_registered_initial]
  · cases booted

/-! ## Runs -/

section Runs

variable {platform : Platform} {m m' : Machine} {expected : PageMap}

/-- The registry behaves as a finite map as long as no registered page is
released while the counter is negative. -/
theorem actsAs_of_run (booted : bootMachine platform = some m)
    (run : SharedRun platform (fun m request => request.Managed platform m)
      m m' expected) : m'.ActsAs platform expected := by
  obtain ⟨⟨role, free, owner, ok⟩, agrees⟩ :=
    run.agrees (inOrder_bootMachine booted) (agrees_bootMachine booted)
  exact ok.actsAs agrees

/-- Perform a list of entries and keep the map. -/
def sharedRequests (platform : Platform) :
    List Request → Machine → PageMap → Option (Machine × PageMap)
  | [], m, expected => some (m, expected)
  | request :: rest, m, expected =>
      match m.step platform request with
      | .next m' => sharedRequests platform rest m' (expected.after m m' request)
      | _ => none

theorem SharedRun.extend {meets : Machine → Request → Prop}
    (check : Machine → Request → Bool)
    (means : ∀ m request, check m request = true → meets m request)
    {requests : List Request} {m'' : Machine} {expected' : PageMap}
    (front : SharedRun platform meets m m' expected)
    (performed : sharedRequests platform requests m' expected =
      some (m'', expected'))
    (passed : allRequests platform check requests m' = true) :
    SharedRun platform meets m m'' expected' := by
  induction requests generalizing m' expected with
  | nil =>
      cases performed
      exact front
  | cons request rest ih =>
      unfold sharedRequests at performed
      unfold allRequests at passed
      rw [Bool.and_eq_true] at passed
      split at performed
      · rename_i between next
        rw [next] at passed
        exact ih (front.step (means m' request passed.1) next) performed
          passed.2
      · cases performed

/-- A run from boot with its map, by evaluation. -/
theorem sharedRun_of_evaluation (platform : Platform)
    {meets : Machine → Request → Prop} (requests : List Request)
    (check : Machine → Request → Bool)
    (means : ∀ m request, check m request = true → meets m request)
    (last : Machine × PageMap → Bool)
    (passed : (bootMachine platform).any
      (allRequests platform check requests) = true)
    (evaluated : ((bootMachine platform).bind fun m =>
      sharedRequests platform requests m fun _ => none).any last = true) :
    ∃ m m' expected, bootMachine platform = some m ∧
      SharedRun platform meets m m' expected ∧ last (m', expected) = true := by
  obtain ⟨⟨m', expected⟩, isLast, lastPassed⟩ :=
    (Option.any_eq_true _ _).mp evaluated
  obtain ⟨m, booted, performed⟩ := Option.bind_eq_some_iff.mp isLast
  rw [booted] at passed
  exact ⟨m, m', expected, booted,
    SharedRun.refl.extend check means performed passed, lastPassed⟩

/-- A test for managed entries. -/
def Request.managedPlainly (m : Machine) (request : Request) : Bool :=
  request.plainly m && decide (0 ≤ m.memory.shared.number)

theorem Request.managed_of_plainly (m : Machine) (request : Request)
    (passed : request.managedPlainly m = true) :
    request.Managed platform m := by
  unfold Request.managedPlainly at passed
  rw [Bool.and_eq_true] at passed
  exact ⟨Request.contained_of_plainly m request passed.1,
    fun _ _ _ _ => of_decide_eq_true passed.2⟩

/-- Two keys are made, one is released. -/
theorem actsAs_sample : ∃ m m' expected,
    bootMachine samplePlatform = some m ∧
    SharedRun samplePlatform
      (fun m request => request.Managed samplePlatform m) m m' expected ∧
    expected (sampleKey 98).string = some 0x4060000 ∧
    m'.ActsAs samplePlatform expected := by
  obtain ⟨m, m', expected, booted, run, isLast⟩ := sharedRun_of_evaluation
    samplePlatform
    (schedule ++ [.shmCreate (some (sampleKey 97)),
      .shmCreate (some (sampleKey 98)), .shmRelease (sampleKey 97)])
    (fun m request => request.managedPlainly m) Request.managed_of_plainly
    (fun last => last.2 (sampleKey 98).string = some 0x4060000)
    (by decide +kernel) (by decide +kernel)
  exact ⟨m, m', expected, booted, run, of_decide_eq_true isLast,
    actsAs_of_run booted run⟩

/-- What `shm_acquire` would return. -/
def Machine.acquired (platform : Platform) (m : Machine) (key : KeyPtr) :
    Option Int :=
  match m.step platform (.shmAcquire key) with
  | .next m' => some m'.kernel.eax
  | _ => none

/-- Two releases of a key that nobody made, and the next release does
nothing. -/
theorem released_key_still_found : ∃ m m' expected,
    bootMachine samplePlatform = some m ∧
    SharedRun samplePlatform (fun _ _ => True) m m' expected ∧
    ¬ m'.ActsAs samplePlatform expected := by
  obtain ⟨m, m', expected, booted, run, isLast⟩ := sharedRun_of_evaluation
    samplePlatform
    (schedule ++ [.shmCreate (some (sampleKey 97)), .shmRelease (sampleKey 98),
      .shmRelease (sampleKey 98), .shmRelease (sampleKey 97)])
    (fun _ _ => true) (fun _ _ _ => trivial)
    (fun last => last.1.kernel.mode = .user &&
      last.2 (last.1.memory.stringOf (sampleKey 97)) = none &&
      last.1.acquired samplePlatform (sampleKey 97) = some 0x405C000)
    (by decide +kernel) (by decide +kernel)
  simp only [Bool.and_eq_true, decide_eq_true_eq] at isLast
  obtain ⟨⟨user, isReleased⟩, found⟩ := isLast
  refine ⟨m, m', expected, booted, run, fun acts => ?_⟩
  obtain ⟨after, next, -, value⟩ := acts.acquire user (sampleKey 97)
  rw [isReleased] at value
  unfold Machine.acquired at found
  rw [next] at found
  cases value.symm.trans (Option.some.inj found)

end Runs

end Nebulea
