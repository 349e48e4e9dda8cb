import Nebulea.MachineBoot

/-!
# Blocks, page tables and processes kept apart

Along the runs in which `start` finds its blocks in consecutive frames, blocks
do not overlap and the kernel's page tables stay shared.  Processes are not kept
apart in any run: user code reaches the record of idle.
-/

namespace Nebulea

open ByteMemory ExceptState

/-! ## What user code reaches -/

/-- The frame that user code reaches at `a` in the directory `d`. -/
def Paging.userFrame (p : Paging) (d a : Nat) : Option Nat :=
  let entry := load32 p.bytes (d + 4 * pdIndex a)
  let tableEntry := load32 p.bytes (frameBits entry + 4 * ptIndex a)
  if isPresent entry ∧ isUser entry ∧ isPresent tableEntry ∧ isUser tableEntry
  then some (frameBits tableEntry)
  else none

/-- The frame `f` is on the free list. -/
def Paging.OnFreeList (p : Paging) (f : Nat) : Prop :=
  ∃ count, f ∈ linksFrom p.bytes count p.head

/-- The frame `f` holds a part of a program or of a user stack. -/
def ProcessSpace.Holds (space : ProcessSpace) (f : Nat) : Prop :=
  ∃ block ∈ space.blocks, ∃ a, block.Covers a ∧ f ≤ a ∧ a < f + 0x1000

namespace Machine

/-- The page directories in use. -/
def Directory (m : Machine) (d : Nat) : Prop :=
  d = pgdir ∨ ∃ r space, m.spaces r = some space ∧ space.cr3 = d

/-- The frame `f` is a page directory or a page table. -/
def PageStructure (m : Machine) (f : Nat) : Prop :=
  m.Directory f ∨
    ∃ d i, m.Directory d ∧ i < 1024 ∧
      frameBits (load32 m.memory.paging.bytes (d + 4 * i)) = f ∧ f ≠ 0

/-- Blocks overlap neither each other nor page structures nor free frames. -/
structure BlocksApart (m : Machine) : Prop where
  pairwise : m.memory.paging.blocks.Pairwise Block.Apart
  structures : ∀ block ∈ m.memory.paging.blocks, ∀ f, m.PageStructure f →
    ∀ a, f ≤ a → a < f + 0x1000 → ¬ block.Covers a
  free : ∀ block ∈ m.memory.paging.blocks, ∀ f,
    m.memory.paging.OnFreeList f → ∀ a, f ≤ a → a < f + 0x1000 →
      ¬ block.Covers a

/-- The page directories share the kernel's page tables, and user code reaches
no page that was given back. -/
structure SharesTables (m : Machine) : Prop where
  same : ∀ r space, m.spaces r = some space → ∀ i, i < 64 →
    frameBits (load32 m.memory.paging.bytes (space.cr3 + 4 * i)) =
      frameBits (load32 m.memory.paging.bytes (pgdir + 4 * i))
  hidden : ∀ f ∈ m.memory.paging.released, ∀ d, m.Directory d →
    m.memory.paging.userFrame d f = none

/-- The process `r` exists and has not ended, and `space` is its space. -/
def Live (m : Machine) (r : ProcRef) (space : ProcessSpace) : Prop :=
  m.spaces r = some space ∧ ∃ p, m.kernel.procs r = some p ∧ p.Living

/-- The frame `f` holds a process record: that of idle is a block of memory,
the others are in the kernel's heap. -/
def HoldsRecord (platform : Platform) (f : Nat) : Prop :=
  f = idleBlock.base ∨ platform.heap ≤ f ∧ f < memoryStart

/-- Processes are kept apart. -/
structure Isolated (platform : Platform) (m : Machine) : Prop where
  kept : ∀ p q space space' a f, p ≠ q → m.Live p space →
    m.Live q space' → m.memory.paging.userFrame space.cr3 a = some f →
      ¬ space'.Holds f ∧ ¬ m.PageStructure f ∧
        ¬ HoldsRecord platform f
  shared : ∀ p q space space' a a' f, p ≠ q → m.Live p space →
    m.Live q space' → m.memory.paging.userFrame space.cr3 a = some f →
      m.memory.paging.userFrame space'.cr3 a' = some f →
        ∃ string, m.memory.shared.Registered string f

end Machine

section InOrder

variable {platform : Platform} {m m' : Machine} {role : Nat → Role}
variable {free : List Nat} {owner : Nat → Owner}

theorem Layout.onFreeList_iff {p : Paging} (layout : Layout p role free)
    (f : Nat) : p.OnFreeList f ↔ f ∈ free := by
  constructor
  · rintro ⟨count, member⟩
    rw [layout.linksFrom_eq] at member
    exact List.mem_of_mem_take member
  · intro member
    refine ⟨free.length, ?_⟩
    rw [layout.linksFrom_eq, List.take_length]
    exact member

theorem MachineOk.isDirectory (ok : MachineOk m role free owner) {d : Nat}
    (directory : m.Directory d) : IsDirectory role d := by
  rcases directory with isKernel | ⟨r, space, isSpace, rfl⟩
  · exact .inl isKernel
  · exact ok.books.directories r space isSpace

/-- Page structures are in the kernel image or in frames of their own. -/
theorem MachineOk.pageStructure (ok : MachineOk m role free owner) {f : Nat}
    (structural : m.PageStructure f) :
    f + 0x1000 ≤ memoryStart ∨ IsFrame f ∧ role f ≠ .data := by
  have layout := ok.books.sane.layout
  have ofRole : ∀ {isRole : Role}, isRole ≠ .data → role f = isRole →
      IsFrame f ∧ role f ≠ .data := by
    intro isRole used isRole'
    have notData : role f ≠ .data := isRole' ▸ used
    exact ⟨layout.isFrame f notData, notData⟩
  rcases structural with directory | ⟨d, i, directory, less, isFrame, nonNull⟩
  · rcases ok.isDirectory directory with rfl | isRole
    · exact .inl (by decide)
    · exact .inr (ofRole Role.noConfusion isRole)
  · have isDirectory := ok.isDirectory directory
    rcases Nat.lt_or_ge i 64 with low | high
    · left
      rw [← isFrame, layout.tables.shared d isDirectory i low]
      unfold pgtab memoryStart
      omega
    · right
      rcases layout.tables.own d isDirectory i high less with isNull | isTable
      · exact absurd (isFrame.symm.trans isNull) nonNull
      · rw [isFrame] at isTable
        exact ofRole Role.noConfusion isTable

/-- A block covers no byte of a frame that holds something else than data. -/
theorem Layout.not_covers {p : Paging} (layout : Layout p role free)
    {block : Block} (member : block ∈ p.blocks) {f a : Nat}
    (isFrame : IsFrame f) (used : role f ≠ .data) (low : f ≤ a)
    (high : a < f + 0x1000) : ¬ block.Covers a := by
  rintro ⟨after, before⟩
  have isBase := (layout.blocks.isFrame block member).1
  have far := isFrame.eq_or_far isBase
  exact used (layout.blocks.data block member f isFrame
    ⟨by omega, by omega⟩)

theorem MachineOk.blocksApart (ok : MachineOk m role free owner) :
    m.BlocksApart := by
  have layout := ok.books.sane.layout
  constructor
  · exact layout.blocks.apart
  · intro block member f structural a low high
    rcases ok.pageStructure structural with inKernel | ⟨isFrame, used⟩
    · rintro ⟨after, -⟩
      have isBase := (layout.blocks.isFrame block member).1.1
      omega
    · exact layout.not_covers member isFrame used low high
  · intro block member f isFree a low high
    rw [layout.onFreeList_iff, layout.mem_free] at isFree
    have used : role f ≠ .data := by
      rw [isFree]
      exact Role.noConfusion
    exact layout.not_covers member (layout.isFrame f used) used low high

/-- What user code reaches below 256 MB is decided by the shared entry. -/
theorem Layout.userFrame_low {p : Paging} (layout : Layout p role free)
    {d a : Nat} (isDirectory : IsDirectory role d) (low : a < 0x10000000) :
    p.userFrame d a =
      if isPresent (load32 p.bytes (d + 4 * pdIndex a)) ∧
          isUser (load32 p.bytes (d + 4 * pdIndex a)) ∧
          isPresent (load32 p.bytes (sharedEntry a)) ∧
          isUser (load32 p.bytes (sharedEntry a))
      then some (frameBits (load32 p.bytes (sharedEntry a)))
      else none := by
  have table := (layout.tables.shared_low isDirectory low).2.1
  unfold Paging.userFrame
  simp only [table, sharedEntry_split]

theorem MachineOk.sharesTables (ok : MachineOk m role free owner) :
    m.SharesTables := by
  have layout := ok.books.sane.layout
  constructor
  · intro r space isSpace i less
    rw [layout.tables.shared _ (ok.books.directories r space isSpace) i less,
      layout.tables.shared pgdir (.inl rfl) i less]
  · intro f released d directory
    have isFree := layout.released f released
    have used : role f ≠ .data := by
      rw [isFree]
      exact Role.noConfusion
    have bounds := (layout.isFrame f used).lt
    rw [layout.userFrame_low (ok.isDirectory directory) (by omega),
      layout.tables.hidden f used]
    simp

/-- User code reaches the record of idle in every page directory. -/
theorem MachineOk.userFrame_idle (ok : MachineOk m role free owner) {d : Nat}
    (directory : m.Directory d) :
    m.memory.paging.userFrame d memoryStart = some idleBlock.base := by
  have layout := ok.books.sane.layout
  have seen := layout.seen ok.books.sane.seen
  have isDirectory := ok.isDirectory directory
  have identity := layout.tables.identity 0x4000 (by decide) (by decide)
  have isEntry : sharedEntry memoryStart = pgtab + 4 * 0x4000 := rfl
  rw [layout.userFrame_low isDirectory (by decide),
    if_pos ⟨(seen.directories d isDirectory).1, (seen.directories d isDirectory).2,
      seen.entry.1, seen.entry.2⟩, isEntry, identity]
  rfl

/-- Processes are kept apart only where there are no two of them. -/
theorem MachineOk.isolated_iff (ok : MachineOk m role free owner) :
    m.Isolated platform ↔
      ¬ ∃ p q space space', p ≠ q ∧ m.Live p space ∧ m.Live q space' := by
  constructor
  · rintro isolated ⟨p, q, space, space', distinct, live, live'⟩
    have reached := ok.userFrame_idle (.inr ⟨p, space, live.1, rfl⟩)
    exact (isolated.kept p q space space' _ _ distinct live live' reached).2.2
      (.inl rfl)
  · intro alone
    constructor
    · intro p q space space' a f distinct live live'
      exact absurd ⟨p, q, space, space', distinct, live, live'⟩ alone
    · intro p q space space' a a' f distinct live live'
      exact absurd ⟨p, q, space, space', distinct, live, live'⟩ alone

end InOrder

/-! ## Runs -/

section Runs

variable {platform : Platform} {m m' : Machine}

/-- Blocks stay apart as long as each `start` finds its blocks in consecutive
frames. -/
theorem blocksApart_of_run (booted : bootMachine platform = some m)
    (run : MachineRun platform (fun m request => request.Contained platform m)
      m m') : m'.BlocksApart := by
  obtain ⟨role, free, owner, ok⟩ := run.inOrder (inOrder_bootMachine booted)
  exact ok.blocksApart

/-- Two shared pages are made and one is given back. -/
theorem blocksApart_sample : ∃ m m', bootMachine samplePlatform = some m ∧
    MachineRun samplePlatform
      (fun m request => request.Contained samplePlatform m) m m' ∧
    m'.memory.paging.blocks.length = 6 ∧ m'.BlocksApart := by
  obtain ⟨m, m', booted, run, isLast⟩ := run_of_evaluation samplePlatform
    (schedule ++ [.shmCreate (some (sampleKey 97)),
      .shmCreate (some (sampleKey 98)), .shmRelease (sampleKey 97)])
    (fun m request => request.plainly m) Request.contained_of_plainly
    (fun m => m.memory.paging.blocks.length = 6) (by decide +kernel)
    (by decide +kernel)
  exact ⟨m, m', booted, run, of_decide_eq_true isLast,
    blocksApart_of_run booted run⟩

/-- After a page in the middle is given back, a large program overlaps a page
that is still shared. -/
theorem blocks_overlap_after_release :
    ∃ m m', bootMachine samplePlatform = some m ∧
      MachineRun samplePlatform (fun _ _ => True) m m' ∧
      ¬ m'.BlocksApart := by
  obtain ⟨m, m', booted, run, isLast⟩ := run_of_evaluation samplePlatform
    (schedule ++ [.shmCreate (some (sampleKey 97)),
      .shmCreate (some (sampleKey 98)), .shmRelease (sampleKey 97),
      .start "big" 4096 1 0])
    (fun _ _ => true) (fun _ _ _ => trivial)
    (fun m => ⟨0x405C000, 40000⟩ ∈ m.memory.paging.blocks ∧
      ⟨0x4060000, 0x1000⟩ ∈ m.memory.paging.blocks) (by decide +kernel)
    (by decide +kernel)
  obtain ⟨program, page⟩ := of_decide_eq_true isLast
  refine ⟨m, m', booted, run, fun apart => ?_⟩
  have pairwise := apart.pairwise.forall program page (by decide)
  exact pairwise 0x4060000 (by decide) (by decide)

/-- A test for two processes that have not ended. -/
def Machine.bothLive (m : Machine) (p q : ProcRef) : Bool :=
  (m.spaces p).isSome && (m.spaces q).isSome &&
    (m.kernel.procs p).any (fun record => record.Living) &&
    (m.kernel.procs q).any (fun record => record.Living)

theorem Machine.live_of_bothLive {p q : ProcRef}
    (passed : m.bothLive p q = true) :
    ∃ space space', m.Live p space ∧ m.Live q space' := by
  unfold Machine.bothLive at passed
  simp only [Bool.and_eq_true] at passed
  obtain ⟨⟨⟨isSpace, isSpace'⟩, isRecord⟩, isRecord'⟩ := passed
  obtain ⟨space, isSpace⟩ := Option.isSome_iff_exists.mp isSpace
  obtain ⟨space', isSpace'⟩ := Option.isSome_iff_exists.mp isSpace'
  obtain ⟨record, found, living⟩ := (Option.any_eq_true _ _).mp isRecord
  obtain ⟨record', found', living'⟩ := (Option.any_eq_true _ _).mp isRecord'
  exact ⟨space, space', ⟨isSpace, record, found, of_decide_eq_true living⟩,
    isSpace', record', found', of_decide_eq_true living'⟩

/-- In every state with two processes, user code of one reaches what it must
not. -/
theorem isolated_iff_alone (booted : bootMachine platform = some m)
    (run : MachineRun platform (fun m request => request.Contained platform m)
      m m') :
    m'.Isolated platform ↔
      ¬ ∃ p q space space', p ≠ q ∧ m'.Live p space ∧ m'.Live q space' := by
  obtain ⟨role, free, owner, ok⟩ := run.inOrder (inOrder_bootMachine booted)
  exact ok.isolated_iff

/-- Idle and the first process, when the latter runs. -/
theorem isolated_sample : ∃ m m', bootMachine samplePlatform = some m ∧
    MachineRun samplePlatform
      (fun m request => request.Contained samplePlatform m) m m' ∧
    m'.kernel.running = 1 ∧ ¬ m'.Isolated samplePlatform := by
  obtain ⟨m, m', booted, run, isLast⟩ := run_of_evaluation samplePlatform
    schedule (fun m request => request.plainly m) Request.contained_of_plainly
    (fun m => m.kernel.running = 1 && m.bothLive 0 1) (by decide +kernel)
    (by decide +kernel)
  rw [Bool.and_eq_true] at isLast
  obtain ⟨space, space', live, live'⟩ := Machine.live_of_bothLive isLast.2
  refine ⟨m, m', booted, run, of_decide_eq_true isLast.1, fun isolated => ?_⟩
  exact (isolated_iff_alone booted run).mp isolated
    ⟨0, 1, space, space', by decide, live, live'⟩

/-- User code of the first process reaches the record of idle at once. -/
theorem not_isolated_at_boot : ∃ m, bootMachine samplePlatform = some m ∧
    ¬ m.Isolated samplePlatform := by
  obtain ⟨m, m', booted, run, isLast⟩ := run_of_evaluation samplePlatform []
    (fun _ _ => false) (fun _ _ never => absurd never Bool.false_ne_true)
    (fun m => m.bothLive 1 0 && (m.spaces 1).any fun space =>
      m.memory.paging.userFrame space.cr3 memoryStart = some memoryStart)
    (by decide +kernel) (by decide +kernel)
  cases run with
  | step _ never => exact absurd never id
  | refl =>
      rw [Bool.and_eq_true] at isLast
      obtain ⟨space, space', live, live'⟩ := Machine.live_of_bothLive isLast.1
      have reached := isLast.2
      rw [live.1] at reached
      refine ⟨m, booted, fun isolated => ?_⟩
      exact (isolated.kept 1 0 space space' _ _ (by decide) live live'
        (of_decide_eq_true reached)).2.2 (.inl rfl)

/-- The page directories share the kernel's page tables as long as each `start`
finds its blocks in consecutive frames. -/
theorem sharesTables_of_run (booted : bootMachine platform = some m)
    (run : MachineRun platform (fun m request => request.Contained platform m)
      m m') : m'.SharesTables := by
  obtain ⟨role, free, owner, ok⟩ := run.inOrder (inOrder_bootMachine booted)
  exact ok.sharesTables

/-- A page is shared and given back. -/
theorem sharesTables_sample : ∃ m m', bootMachine samplePlatform = some m ∧
    MachineRun samplePlatform
      (fun m request => request.Contained samplePlatform m) m m' ∧
    m'.memory.paging.released = [0x405C000] ∧ m'.SharesTables := by
  obtain ⟨m, m', booted, run, isLast⟩ := run_of_evaluation samplePlatform
    (schedule ++ [.shmCreate (some (sampleKey 97)),
      .shmAcquire (sampleKey 97), .shmRelease (sampleKey 97)])
    (fun m request => request.plainly m) Request.contained_of_plainly
    (fun m => m.memory.paging.released = [0x405C000]) (by decide +kernel)
    (by decide +kernel)
  exact ⟨m, m', booted, run, of_decide_eq_true isLast,
    sharesTables_of_run booted run⟩

/-- A large program is copied over the page directory of a process that was
started before. -/
theorem tables_overwritten_after_release :
    ∃ m m', bootMachine samplePlatform = some m ∧
      MachineRun samplePlatform (fun _ _ => True) m m' ∧
      ¬ m'.SharesTables := by
  obtain ⟨m, m', booted, run, isLast⟩ := run_of_evaluation samplePlatform
    (schedule ++ [.shmCreate (some (sampleKey 97)),
      .start "autotest" 4096 1 0, .shmRelease (sampleKey 97),
      .start "big" 4096 1 0])
    (fun _ _ => true) (fun _ _ _ => trivial)
    (fun m => (m.spaces 2).any fun space =>
      frameBits (load32 m.memory.paging.bytes (space.cr3 + 4 * 0)) ≠
        frameBits (load32 m.memory.paging.bytes (pgdir + 4 * 0)))
    (by decide +kernel) (by decide +kernel)
  obtain ⟨space, isSpace, differ⟩ := (Option.any_eq_true _ _).mp isLast
  refine ⟨m, m', booted, run, fun shares => ?_⟩
  exact of_decide_eq_true differ (shares.same 2 space isSpace 0 (by decide))

end Runs

end Nebulea
