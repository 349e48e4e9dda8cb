import Nebulea.MachineRuns

/-!
# The machine after boot

`kernel_start` maps idle, starts the first process and sets up an empty
registry of shared pages; the machine it leaves is in order.
-/

namespace Nebulea

open ByteMemory ExceptState

/-! ## The empty registry -/

theorem not_registered_initial (heap : Nat) (string : CString) (page : Nat) :
    ¬ (initalizeHashHead heap).Registered string page := by
  rintro ⟨key, -, slot, -, key', hash, isActive, -⟩
  cases isActive

theorem kept_initial (heap : Nat) (blocks : List Block) :
    (initalizeHashHead heap).Kept blocks := by
  have byContent : (initalizeHashHead heap).ByContent := ⟨rfl, rfl⟩
  have lawful := Registry.lawful_of_byContent byContent
  have copied := HashTable.Copied.start lawful (Nat.le_refl 3) (by decide)
  constructor
  · exact byContent
  · refine ⟨copied.ok, ?_, .inl (Nat.le_refl _)⟩
    change 3 * 0 < 2 * 8
    decide
  · exact fun string page registered =>
      absurd registered (not_registered_initial heap string page)
  · exact fun string _ page registered =>
      absurd registered (not_registered_initial heap string page)

/-! ## The frames of idle -/

/-- Owners while idle is the only process. -/
def idleOwner (popped rest : List Nat) (f : Nat) : Owner :=
  if f ∈ popped then .process idleRef
  else if f ∈ rest then .nobody
  else .outside

/-- The machine before the first `start`. -/
def idleMachine (s : KState) (idle : Paging) (heap : Nat) : Machine where
  kernel := s
  memory := ⟨idle, initalizeHashHead heap⟩
  spaces := fun r =>
    if r = idleRef then some ⟨pgdir, idle.taken, idle.blocks⟩ else none
  lost := []

section Idle

variable {p idle : Paging} {role role' : Nat → Role} {popped rest : List Nat}

theorem ledger_idle {heap : Nat} {s : KState}
    (isList : allFrames = popped ++ rest)
    (taken : idle.taken = popped.reverse) :
    Ledger (idleMachine s idle heap) rest (idleOwner popped rest) := by
  have isFrame : ∀ f, IsFrame f ↔ f ∈ popped ∨ f ∈ rest := by
    intro f
    rw [← mem_allFrames, isList, List.mem_append]
  have disjoint : ∀ f, f ∈ popped → f ∉ rest := by
    have nodup := allFrames_nodup
    rw [isList] at nodup
    exact fun f => List.disjoint_of_nodup_append nodup (a := f)
  unfold idleOwner
  constructor
  · intro f
    rw [isFrame]
    by_cases member : f ∈ popped
    · simp [member]
    · by_cases member' : f ∈ rest <;> simp [member, member']
  · intro f
    by_cases member : f ∈ popped
    · simp [member, disjoint f member]
    · by_cases member' : f ∈ rest <;> simp [member, member']
  · intro f r
    have members : (∃ space, (idleMachine s idle heap).spaces r = some space ∧
        f ∈ space.frames) ↔ r = idleRef ∧ f ∈ popped := by
      unfold idleMachine
      by_cases isIdle : r = idleRef <;> simp [isIdle, taken]
    rw [members]
    by_cases member : f ∈ popped
    · simp [member, eq_comm]
    · by_cases member' : f ∈ rest <;> simp [member, member']
  · intro f
    have none : ¬ ∃ string, (idleMachine s idle heap).memory.shared.Registered
        string f := by
      rintro ⟨string, registered⟩
      exact not_registered_initial heap string f registered
    simp only [none, iff_false]
    split
    · exact Owner.noConfusion
    · split <;> exact Owner.noConfusion
  · intro f
    simp only [idleMachine, List.not_mem_nil, iff_false]
    split
    · exact Owner.noConfusion
    · split <;> exact Owner.noConfusion

theorem books_idle {heap : Nat} {s : KState} {readOnly : Nat → Bool}
    {bytes : Bytes}
    (evolved : Evolved (.booting readOnly bytes) bootRole allFrames popped idle
      role rest)
    (seen : idleBlock ∈ idle.blocks) :
    Books (idleMachine s idle heap) role rest (idleOwner popped rest) where
  sane := ⟨evolved.layout, kept_initial heap _, seen⟩
  directories := by
    intro r space isSpace
    unfold idleMachine at isSpace
    simp only at isSpace
    split at isSpace
    · cases isSpace
      exact .inl rfl
    · cases isSpace
  nonempty := by
    intro r space isSpace notIdle
    unfold idleMachine at isSpace
    simp only [if_neg notIdle] at isSpace
    cases isSpace
  ledger := by
    apply ledger_idle evolved.free
    rw [evolved.taken]
    exact List.append_nil _

end Idle

/-! ## Boot -/

/-- The memory that `kernel_start` leaves. -/
theorem bootPaging_ok {platform : Platform} {idle paging : Paging}
    {space : Space}
    (isOk : bootPaging platform (.booting platform.readOnly platform.bytes) =
      .ok (idle, space) paging) :
    ∃ popped role rest popped' role' rest',
      Evolved (.booting platform.readOnly platform.bytes) bootRole allFrames
        popped idle role rest ∧ idleBlock ∈ idle.blocks ∧
      Evolved idle role rest popped' paging role' rest' ∧
      space.dir ∈ popped' ∧ role' space.dir = .directory := by
  unfold bootPaging at isOk
  obtain ⟨_, p₁, isMapped, isOk⟩ := bind_ok isOk
  obtain ⟨p₂, p₃, isGet, isOk⟩ := bind_ok isOk
  cases isGet
  obtain ⟨space', p₃, isBuilt, isOk⟩ := bind_ok isOk
  obtain ⟨_, p₄, finished, isOk⟩ := bind_ok isOk
  cases isOk
  obtain ⟨popped, role, rest, evolved, seen⟩ := wp_ok wp_mapIdle isMapped
  have guarded := evolved.guarded guarded_booting
  have contains : idle.Contains (platform.images "autotest") 4096 :=
    contains_booting evolved.layout evolved.free _ _ (.inl guarded)
  obtain ⟨popped', role', rest', built⟩ :=
    wp_ok (wp_buildSpace evolved.layout seen (by decide) contains) isBuilt
  obtain ⟨base, isFrame, isStack, inBlocks⟩ := built.stack
  have later := built.evolved.layout.finishSpace (by decide) built.directory
    isFrame isStack inBlocks built.opened finished
  have whole := built.evolved.trans later
  rw [List.append_nil] at whole
  exact ⟨popped, role, rest, popped', role', rest', evolved, seen, whole,
    built.member, built.directory⟩

/-- The machine is in order when `kernel_start` returns. -/
theorem inOrder_bootMachine {platform : Platform} {m : Machine}
    (booted : bootMachine platform = some m) : m.InOrder := by
  unfold bootMachine at booted
  split at booted
  · rename_i idle space paging value kernel isPaging isKernel
    cases booted
    obtain ⟨popped, role, rest, popped', role', rest', evolved, seen, later,
      member, directory⟩ := bootPaging_ok isPaging
    have isBoot := booted_eq isKernel
    have vacant : (idleMachine kernel idle platform.heap).spaces 1 = none := rfl
    have books : Books (idleMachine kernel idle platform.heap) role rest
        (idleOwner popped rest) := books_idle evolved seen
    have frames : ∀ f, f ∈ takenSince idle paging ↔ f ∈ popped' := by
      simp [later.takenSince]
    have granted : Books
        { idleMachine kernel idle platform.heap with
          memory := ⟨paging, initalizeHashHead platform.heap⟩
          spaces := Function.update
            (idleMachine kernel idle platform.heap).spaces 1 (some ⟨space.dir,
              takenSince idle paging, blocksSince idle paging⟩) }
        role' rest' (reown (idleOwner popped rest) popped' (.process 1)) :=
      books.grant _ later rfl vacant directory member frames
    have isSpaces : Function.update
        (idleMachine kernel idle platform.heap).spaces 1
        (some ⟨space.dir, takenSince idle paging, blocksSince idle paging⟩) =
        fun r =>
          if r = idleRef then some ⟨pgdir, idle.taken, idle.blocks⟩
          else if r = 1 then
            some ⟨space.dir, takenSince idle paging, blocksSince idle paging⟩
          else none := by
      funext r
      by_cases isFirst : r = 1
      · subst isFirst
        rfl
      · rw [Function.update_of_ne isFirst, if_neg isFirst]
        rfl
    rw [isSpaces] at granted
    refine ⟨role', rest', _, ?_, granted, ?_, ?_⟩
    · rw [isBoot]
      exact bootState_settled
    · intro r isSpace
      rw [isBoot]
      by_cases isIdle : r = idleRef
      · rw [isIdle]
        exact Nat.zero_lt_two
      · by_cases isFirst : r = 1
        · rw [isFirst]
          exact Nat.one_lt_two
        · simp [isIdle, isFirst] at isSpace
    · intro r isRecord
      obtain ⟨p, isProcess⟩ := Option.ne_none_iff_exists'.mp isRecord
      simp only [isBoot] at isProcess
      rcases bootState_procs isProcess with ⟨rfl, -⟩ | ⟨rfl, -⟩
      · exact Option.some_ne_none _
      · exact Option.some_ne_none _
  · cases booted

/-! ## A platform to run -/

/-- Three programs, of which "big" does not fit in one frame. -/
def samplePlatform : Platform where
  readOnly := fun _ => false
  bytes := fun _ => 0
  heap := 0x2000000
  apps := ["idle", "autotest", "big"]
  images := fun name =>
    if name = "big" then ⟨40000, fun _ => 0, by decide⟩
    else ⟨1, fun _ => 0, by decide⟩

/-- A key of one character, in a buffer of the program. -/
def sampleKey (c : UInt8) : KeyPtr :=
  ⟨oneGigabyte, if isZero : c = 0 then ⟨[], by simp⟩ else
    ⟨[c], by simpa [eq_comm] using isZero⟩⟩

/-- The first process gets the processor. -/
def schedule : List Request :=
  List.replicate 5 (.kernel .tick) ++ [.kernel .resume]

end Nebulea
