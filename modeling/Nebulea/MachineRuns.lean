import Nebulea.KernelBirths
import Nebulea.Machine
import Nebulea.SharedMemoryCalls

/-!
# Machines between two kernel entries

The kernel of a machine is settled, its memory agrees with the roles of the
frames, every process record has a page directory, and every frame of the
initial free list has one owner.  This holds along the runs in which `start`
finds its blocks in consecutive frames.
-/

namespace Nebulea

open ByteMemory ExceptState

/-! ## Owners of frames -/

/-- Who owns an address; `outside` is for addresses that are no frames. -/
inductive Owner where
  | outside
  | nobody
  | process (r : ProcRef)
  | page
  | lost

/-- Every frame has one owner, and `owner` tells which. -/
structure Ledger (m : Machine) (free : List Nat) (owner : Nat → Owner) :
    Prop where
  isFrame : ∀ f, IsFrame f ↔ owner f ≠ .outside
  free : ∀ f, f ∈ free ↔ owner f = .nobody
  process : ∀ f r, owner f = .process r ↔
    ∃ space, m.spaces r = some space ∧ f ∈ space.frames
  page : ∀ f, owner f = .page ↔ ∃ string, m.memory.shared.Registered string f
  lost : ∀ f, owner f = .lost ↔ f ∈ m.lost

/-- The frames of a list get a new owner. -/
def reown (owner : Nat → Owner) (frames : List Nat) (new : Owner) :
    Nat → Owner := fun f =>
  if f ∈ frames then new else owner f

section Reown

variable {owner : Nat → Owner} {frames : List Nat} {new : Owner} {f : Nat}

theorem reown_of_mem (member : f ∈ frames) : reown owner frames new f = new :=
  if_pos member

theorem reown_of_notMem (notMember : f ∉ frames) :
    reown owner frames new f = owner f :=
  if_neg notMember

/-- Owners other than the new one and the old one keep their frames. -/
theorem reown_iff {old other : Owner} (were : ∀ f ∈ frames, owner f = old)
    (notOld : other ≠ old) (notNew : other ≠ new) :
    reown owner frames new f = other ↔ owner f = other := by
  by_cases member : f ∈ frames
  · rw [reown_of_mem member, were f member]
    exact ⟨fun same => absurd same.symm notNew,
      fun same => absurd same.symm notOld⟩
  · rw [reown_of_notMem member]

theorem reown_new_iff : reown owner frames new f = new ↔
    f ∈ frames ∨ owner f = new := by
  by_cases member : f ∈ frames
  · simp [reown_of_mem member, member]
  · simp [reown_of_notMem member, member]

end Reown

/-- Memory of a machine, the page directories of its processes and the owners
of the frames. -/
structure Books (m : Machine) (role : Nat → Role) (free : List Nat)
    (owner : Nat → Owner) : Prop where
  sane : Sane m.memory role free
  directories : ∀ r space, m.spaces r = some space →
    IsDirectory role space.cr3
  nonempty : ∀ r space, m.spaces r = some space → r ≠ idleRef →
    space.frames ≠ []
  ledger : Ledger m free owner

/-- What holds of a machine between two kernel entries. -/
structure MachineOk (m : Machine) (role : Nat → Role) (free : List Nat)
    (owner : Nat → Owner) : Prop where
  settled : Settled m.kernel
  books : Books m role free owner
  fresh : ∀ r, m.spaces r ≠ none → r < m.kernel.nextRef
  records : ∀ r, m.kernel.procs r ≠ none → m.spaces r ≠ none

/-- The machine is in order. -/
def Machine.InOrder (m : Machine) : Prop :=
  ∃ role free owner, MachineOk m role free owner

/-! ## Entries that act on processes only -/

section Enter

variable {m m' : Machine} {role role' : Nat → Role} {free rest : List Nat}
variable {popped : List Nat} {owner : Nat → Owner} {a : Action}

theorem Layout.setCr3 {p : Paging} {d : Nat} (layout : Layout p role free)
    (isDirectory : IsDirectory role d) :
    Layout { p with cr3 := d } role free :=
  ⟨layout.linked, layout.nodup, layout.mem_free, layout.isFrame, layout.tables,
    layout.seen, layout.blocks, layout.released, isDirectory⟩

theorem Ledger.congr (ledger : Ledger m free owner)
    (spaces : m'.spaces = m.spaces) (lost : m'.lost = m.lost)
    (pairs : ∀ string page, m'.memory.shared.Registered string page ↔
      m.memory.shared.Registered string page) : Ledger m' free owner where
  isFrame := ledger.isFrame
  free := ledger.free
  process := by
    rw [spaces]
    exact ledger.process
  page := by
    intro f
    rw [ledger.page f]
    exact exists_congr fun string => (pairs string f).symm
  lost := by
    rw [lost]
    exact ledger.lost

/-- Memory changes, but no frame changes hands. -/
theorem Books.remember {memory : Memory} (books : Books m role free owner)
    (sane : Sane memory role free)
    (pairs : ∀ string page, memory.shared.Registered string page ↔
      m.memory.shared.Registered string page) :
    Books { m with memory := memory } role free owner where
  sane := sane
  directories := books.directories
  nonempty := books.nonempty
  ledger := books.ledger.congr rfl rfl pairs

theorem Books.kernel (books : Books m role free owner) (s : KState) :
    Books { m with kernel := s } role free owner where
  sane := books.sane
  directories := books.directories
  nonempty := books.nonempty
  ledger := books.ledger.congr rfl rfl fun _ _ => Iff.rfl

theorem Books.loadCr3 (books : Books m role free owner) :
    Books m.loadCr3 role free owner := by
  unfold Machine.loadCr3
  cases isSpace : m.spaces m.kernel.running with
  | none => exact books
  | some space =>
      refine books.remember ?_ fun _ _ => Iff.rfl
      obtain ⟨layout, kept, seen⟩ := books.sane
      exact ⟨layout.setCr3 (books.directories _ space isSpace), kept, seen⟩

theorem Machine.loadCr3_kernel (m : Machine) : m.loadCr3.kernel = m.kernel := by
  unfold Machine.loadCr3
  cases m.spaces m.kernel.running <;> rfl

theorem Machine.loadCr3_spaces (m : Machine) : m.loadCr3.spaces = m.spaces := by
  unfold Machine.loadCr3
  cases m.spaces m.kernel.running <;> rfl

theorem Machine.enter_next (next : m.enter a = .next m') :
    ∃ s, Nebulea.step a m.kernel = .next s ∧
      m' = Machine.loadCr3 { m with kernel := s } := by
  unfold Machine.enter at next
  cases isStep : Nebulea.step a m.kernel with
  | next s =>
      rw [isStep] at next
      cases next
      exact ⟨s, rfl, rfl⟩
  | stopped fault s =>
      rw [isStep] at next
      cases next
  | disabled =>
      rw [isStep] at next
      cases next

/-- An entry for which memory is ready. -/
theorem Books.enter (books : Books m role free owner)
    (settled : Settled m.kernel) (next : m.enter a = .next m')
    (fresh : ∀ s, Nebulea.step a m.kernel = .next s →
      ∀ r, m.spaces r ≠ none → r < s.nextRef)
    (records : ∀ r, m.kernel.procs r ≠ none ∨
      r = m.kernel.nextRef ∧ a.Accepted m.kernel → m.spaces r ≠ none) :
    MachineOk m' role free owner := by
  obtain ⟨s, isStep, rfl⟩ := Machine.enter_next next
  have booked := (books.kernel s).loadCr3
  constructor
  · rw [Machine.loadCr3_kernel]
    exact settled.after isStep
  · exact booked
  · rw [Machine.loadCr3_kernel, Machine.loadCr3_spaces]
    exact fresh s isStep
  · intro r found
    rw [Machine.loadCr3_kernel] at found
    rw [Machine.loadCr3_spaces]
    exact records r (settled.old_record isStep found)

/-- An entry that makes no process. -/
theorem MachineOk.enter (ok : MachineOk m role free owner)
    (next : m.enter a = .next m') (refused : ¬ a.Accepted m.kernel) :
    MachineOk m' role free owner := by
  apply ok.books.enter ok.settled next
  · intro s isStep r isSpace
    exact lt_of_lt_of_le (ok.fresh r isSpace) (ok.settled.nextRef_le isStep)
  · rintro r (isOld | ⟨-, accepted⟩)
    · exact ok.records r isOld
    · exact absurd accepted refused

/-- `pagefault_interrupt` takes over. -/
theorem Settled.pageFault {s : KState} (settled : Settled s)
    (user : s.mode = .user) : Settled { s with mode := .pageFault } := by
  have applies : Move.fault.Guard s := by
    rintro ⟨k, p, mode, -⟩
    rw [user] at mode
    cases mode
  exact ⟨settled.sound.move applies, settled.onCpu⟩

/-! ## Frames that change hands -/

/-- The frames `popped` come from the free list and get a new owner. -/
theorem Ledger.owner_of_popped (ledger : Ledger m free owner)
    (isFree : free = popped ++ rest) : ∀ f ∈ popped, owner f = .nobody := by
  intro f member
  rw [← ledger.free, isFree]
  exact List.mem_append_left rest member

theorem Ledger.isFrame_reown {new old : Owner} {frames : List Nat}
    (ledger : Ledger m free owner) (were : ∀ f ∈ frames, owner f = old)
    (wasFrame : old ≠ .outside) (staysFrame : new ≠ .outside) (f : Nat) :
    IsFrame f ↔ reown owner frames new f ≠ .outside := by
  rw [ledger.isFrame f, not_iff_not]
  exact (reown_iff were wasFrame.symm staysFrame.symm).symm

theorem Ledger.free_reown {new : Owner} (ledger : Ledger m free owner)
    (isFree : free = popped ++ rest) (nodup : free.Nodup)
    (notFree : new ≠ .nobody) (f : Nat) :
    f ∈ rest ↔ reown owner popped new f = .nobody := by
  by_cases member : f ∈ popped
  · rw [reown_of_mem member]
    rw [isFree] at nodup
    exact ⟨fun later => absurd later (List.disjoint_of_nodup_append nodup member),
      fun same => absurd same notFree⟩
  · rw [reown_of_notMem member, ← ledger.free, isFree, List.mem_append]
    exact ⟨.inr, fun either => either.resolve_left member⟩

theorem Evolved.takenSince {p p' : Paging}
    (evolved : Evolved p role free popped p' role' rest) :
    takenSince p p' = popped.reverse := by
  unfold Nebulea.takenSince
  rw [evolved.taken, List.length_append, Nat.add_sub_cancel, List.take_left]

/-- A call took frames and lost them. -/
theorem Books.lose {memory : Memory} (books : Books m role free owner)
    (evolved : Evolved m.memory.paging role free popped memory.paging role'
      rest)
    (kept : memory.shared.Kept m.memory.paging.blocks)
    (pairs : ∀ string page, memory.shared.Registered string page ↔
      m.memory.shared.Registered string page) :
    Books
      { m with
        memory := memory
        lost := takenSince m.memory.paging memory.paging ++ m.lost }
      role' rest (reown owner popped .lost) := by
  obtain ⟨sane, directories, nonempty, ledger⟩ := books
  have were := ledger.owner_of_popped evolved.free
  refine ⟨⟨evolved.layout, kept.mono evolved.blocks,
    evolved.blocks _ sane.seen⟩, ?_, nonempty, ?_⟩
  · intro r space isSpace
    exact evolved.isDirectory sane.layout (directories r space isSpace)
  constructor
  · exact ledger.isFrame_reown were Owner.noConfusion Owner.noConfusion
  · exact ledger.free_reown evolved.free sane.layout.nodup Owner.noConfusion
  · intro f r
    rw [reown_iff were Owner.noConfusion Owner.noConfusion]
    exact ledger.process f r
  · intro f
    rw [reown_iff were Owner.noConfusion Owner.noConfusion, ledger.page]
    exact exists_congr fun string => (pairs string f).symm
  · intro f
    rw [reown_new_iff, ledger.lost, List.mem_append, evolved.takenSince,
      List.mem_reverse]

theorem eq_or_of_update {spaces : ProcRef → Option ProcessSpace}
    {r r' : ProcRef} {space space' : ProcessSpace}
    (isSpace : Function.update spaces r (some space) r' = some space') :
    r' = r ∧ space' = space ∨ spaces r' = some space' := by
  by_cases isNew : r' = r
  · rw [isNew, Function.update_self] at isSpace
    exact .inl ⟨isNew, (Option.some.inj isSpace).symm⟩
  · rw [Function.update_of_ne isNew] at isSpace
    exact .inr isSpace

/-- A call took frames for a new process. -/
theorem Books.grant {memory : Memory} {r : ProcRef}
    (books : Books m role free owner) (space : ProcessSpace)
    (evolved : Evolved m.memory.paging role free popped memory.paging role'
      rest)
    (shared : memory.shared = m.memory.shared)
    (vacant : m.spaces r = none) (directory : role' space.cr3 = .directory)
    (member : space.cr3 ∈ popped)
    (frames : ∀ f, f ∈ space.frames ↔ f ∈ popped) :
    Books
      { m with
        memory := memory
        spaces := Function.update m.spaces r (some space) }
      role' rest (reown owner popped (.process r)) := by
  obtain ⟨sane, directories, nonempty, ledger⟩ := books
  have were := ledger.owner_of_popped evolved.free
  constructor
  · refine ⟨evolved.layout, ?_, evolved.blocks _ sane.seen⟩
    rw [shared]
    exact sane.kept.mono evolved.blocks
  · intro r' space' isSpace
    rcases eq_or_of_update isSpace with ⟨rfl, rfl⟩ | wasSpace
    · exact .inr directory
    · exact evolved.isDirectory sane.layout (directories r' space' wasSpace)
  · intro r' space' isSpace notIdle
    rcases eq_or_of_update isSpace with ⟨rfl, rfl⟩ | wasSpace
    · exact List.ne_nil_of_mem ((frames _).mpr member)
    · exact nonempty r' space' wasSpace notIdle
  constructor
  · exact ledger.isFrame_reown were Owner.noConfusion Owner.noConfusion
  · exact ledger.free_reown evolved.free sane.layout.nodup Owner.noConfusion
  · intro f r'
    by_cases isNew : r' = r
    · subst isNew
      have notOwner : owner f ≠ .process r' := by
        rw [ne_eq, ledger.process]
        rintro ⟨space', isSpace, -⟩
        rw [vacant] at isSpace
        cases isSpace
      rw [reown_new_iff]
      simp [notOwner, frames]
    · rw [reown_iff were Owner.noConfusion (by simpa using isNew),
        ledger.process]
      simp only [Function.update_of_ne isNew]
  · intro f
    rw [reown_iff were Owner.noConfusion Owner.noConfusion, ledger.page, shared]
  · intro f
    rw [reown_iff were Owner.noConfusion Owner.noConfusion, ledger.lost]

/-- A call took a frame for a shared page. -/
theorem Books.publish {memory : Memory} {string : CString} {page : Nat}
    (books : Books m role free owner)
    (made : Made m.memory role free string page memory rest) :
    Books { m with memory := memory } (assign role [page] .data) rest
      (reown owner [page] .page) := by
  obtain ⟨sane, directories, nonempty, ledger⟩ := books
  have were := ledger.owner_of_popped made.evolved.free
  refine ⟨made.sane, ?_, nonempty, ?_⟩
  · intro r space isSpace
    exact made.evolved.isDirectory sane.layout (directories r space isSpace)
  constructor
  · exact ledger.isFrame_reown were Owner.noConfusion Owner.noConfusion
  · exact ledger.free_reown made.evolved.free sane.layout.nodup
      Owner.noConfusion
  · intro f r
    rw [reown_iff were Owner.noConfusion Owner.noConfusion]
    exact ledger.process f r
  · intro f
    rw [reown_new_iff, List.mem_singleton, ledger.page]
    constructor
    · rintro (rfl | ⟨string', registered⟩)
      · exact ⟨string, (made.pairs string f).mpr (.inl ⟨rfl, rfl⟩)⟩
      · refine ⟨string', (made.pairs string' f).mpr (.inr ⟨?_, registered⟩)⟩
        rintro rfl
        exact made.absent f registered
    · rintro ⟨string', registered⟩
      rcases (made.pairs string' f).mp registered with ⟨-, isPage⟩ |
        ⟨-, registered⟩
      · exact .inl isPage
      · exact .inr ⟨string', registered⟩
  · intro f
    rw [reown_iff were Owner.noConfusion Owner.noConfusion, ledger.lost]

/-- A shared page was given back. -/
theorem Books.giveBack {memory : Memory} {string : CString} {page : Nat}
    (books : Books m role free owner)
    (freed : Freed m.memory role free string page memory) :
    Books { m with memory := memory } (assign role [page] .free) (page :: free)
      (reown owner [page] .nobody) := by
  obtain ⟨sane, directories, nonempty, ledger⟩ := books
  have were : ∀ f ∈ [page], owner f = .page := by
    intro f member
    rw [List.mem_singleton] at member
    rw [member, ledger.page]
    exact ⟨string, freed.registered⟩
  refine ⟨freed.sane, ?_, nonempty, ?_⟩
  · intro r space isSpace
    apply (directories r space isSpace).imp_right
    intro isRole
    rw [assign_of_notMem, isRole]
    rw [List.mem_singleton]
    intro same
    rw [same, sane.role_page freed.registered] at isRole
    cases isRole
  constructor
  · exact ledger.isFrame_reown were Owner.noConfusion Owner.noConfusion
  · intro f
    rw [reown_new_iff, List.mem_cons, List.mem_singleton, ledger.free]
  · intro f r
    rw [reown_iff were Owner.noConfusion Owner.noConfusion]
    exact ledger.process f r
  · intro f
    by_cases isPage : f = page
    · rw [reown_of_mem (List.mem_singleton.mpr isPage)]
      constructor
      · exact Owner.noConfusion
      · rintro ⟨string', registered⟩
        obtain ⟨other, registered⟩ := (freed.pairs string' f).mp registered
        rw [isPage] at registered
        exact absurd
          (sane.kept.distinct _ _ _ registered freed.registered) other
    · rw [reown_of_notMem (by simpa using isPage), ledger.page]
      constructor
      · rintro ⟨string', registered⟩
        refine ⟨string', (freed.pairs string' f).mpr ⟨?_, registered⟩⟩
        rintro rfl
        exact isPage (sane.kept.unique registered freed.registered)
      · rintro ⟨string', registered⟩
        exact ⟨string', ((freed.pairs string' f).mp registered).2⟩
  · intro f
    rw [reown_iff were Owner.noConfusion Owner.noConfusion, ledger.lost]

end Enter

/-! ## Steps and runs -/

/-- What an entry needs to stay within its own memory: `start` finds its blocks
in consecutive frames, and a free list that has run out ends in a null pointer
that faults. -/
def Request.Contained (platform : Platform) (m : Machine) : Request → Prop
  | .start name ssize _ _ =>
      ssize ≤ 0x10000000 → name ∈ m.kernel.symbolsTable →
        m.memory.paging.Contains (platform.images name) ssize
  | .shmCreate _ => m.memory.paging.Guarded ∨ m.memory.paging.head ≠ 0
  | _ => True

section Steps

variable {platform : Platform} {m m' : Machine} {role : Nat → Role}
variable {free : List Nat} {owner : Nat → Owner}

/-- A call that acts on memory returns from that part or ends in a page
fault. -/
theorem Machine.call_next {Value : Type} {code : MM Value}
    {next : Value → Memory → MachineOutcome} {post : Value → Memory → Prop}
    {fault : Fault → Memory → Prop} (isNext : m.call code next = .next m')
    (rule : wp code post fault m.memory) :
    m.kernel.mode = .user ∧
      ((∃ value memory, code m.memory = .ok value memory ∧ post value memory ∧
        next value memory = .next m') ∨
        ∃ memory, fault .page memory ∧ m' = m.pageFault memory) := by
  unfold Machine.call at isNext
  split at isNext
  · rename_i user
    refine ⟨user, ?_⟩
    unfold wp at rule
    cases outcome : code m.memory with
    | ok value memory =>
        rw [outcome] at isNext rule
        exact .inl ⟨value, memory, rfl, rule, isNext⟩
    | error failure memory =>
        rw [outcome] at isNext rule
        cases failure with
        | page =>
            cases isNext
            exact .inr ⟨memory, rule, rfl⟩
        | panic | assertion | useAfterFree | lostContext | noActivable
        | nullHead | endlessLoop => cases isNext
  · cases isNext

/-- The calls on shared pages make no process. -/
theorem not_accepted_other (s : KState) (result : Int) :
    ¬ (Action.call (.other result)).Accepted s := by
  rintro ⟨-, name, ssize, prio, isStart, -⟩
  cases isStart

/-- `start` returns -1 or panics. -/
theorem not_accepted_start {s : KState} {name : String} {ssize : Nat}
    {prio : Int} (refused : ssize > 0x10000000 ∨ getFreePid s = -1 ∨
      prio > maxPrio) :
    ¬ (Action.call (.start name ssize prio)).Accepted s := by
  rintro ⟨available, _, _, _, isStart, small, prioLe⟩
  cases isStart
  rcases refused with large | none | high
  · omega
  · exact available none
  · omega

/-- `start` panics on names that are not in the table. -/
theorem step_start_unknown {s t : KState} {name : String} {ssize : Nat}
    {prio : Int} (small : ssize ≤ 0x10000000) (unknown : name ∉ s.symbolsTable) :
    step (.call (.start name ssize prio)) s ≠ .next t := by
  intro next
  have user := mode_of_call next
  have rule : wp (start name ssize prio) (fun _ _ => False)
      (fun failure _ => failure ≠ .page) s := by
    rw [start, wp_bind, wp_get, if_neg (by omega), if_pos unknown, wp_throw]
    exact Fault.noConfusion
  unfold step at next
  rw [user] at next
  simp only [kernelEntry, syscall] at next
  unfold wp at rule
  cases outcome : start name ssize prio s with
  | ok value u =>
      rw [outcome] at rule
      exact rule
  | error failure u =>
      rw [outcome] at next rule
      cases failure with
      | page => exact rule rfl
      | panic | assertion | useAfterFree | lostContext | noActivable
      | nullHead | endlessLoop => cases next

theorem MachineOk.pageFault {memory : Memory}
    (ok : MachineOk m role free owner) (user : m.kernel.mode = .user)
    (kept : memory.shared.Kept m.memory.paging.blocks)
    (pairs : ∀ string page, memory.shared.Registered string page ↔
      m.memory.shared.Registered string page)
    (faulted : Faulted m.memory.paging role free .page memory.paging) :
    (m.pageFault memory).InOrder := by
  obtain ⟨popped, role', rest, evolved⟩ := faulted rfl
  have lost := ok.books.lose evolved kept pairs
  exact ⟨role', rest, _, ok.settled.pageFault user, lost.kernel _, ok.fresh,
    ok.records⟩

theorem MachineOk.remember {memory : Memory} (ok : MachineOk m role free owner)
    (sane : Sane memory role free)
    (pairs : ∀ string page, memory.shared.Registered string page ↔
      m.memory.shared.Registered string page) :
    MachineOk { m with memory := memory } role free owner :=
  ⟨ok.settled, ok.books.remember sane pairs, ok.fresh, ok.records⟩

theorem onPaging_ok {Value : Type} {code : PM Value} {value : Value}
    {memory memory' : Memory}
    (isOk : onPaging code memory = .ok value memory') :
    code memory.paging = .ok value memory'.paging ∧
      memory'.shared = memory.shared := by
  unfold onPaging at isOk
  cases outcome : code memory.paging with
  | ok result p =>
      rw [outcome] at isOk
      cases isOk
      exact ⟨rfl, rfl⟩
  | error failure p =>
      rw [outcome] at isOk
      cases isOk

/-- `start` when the address space is built. -/
theorem MachineOk.finishStart {name : String} {ssize arg : Nat} {prio : Int}
    {space : Space} {memory : Memory} {popped rest : List Nat}
    {role' : Nat → Role} (ok : MachineOk m role free owner)
    (small : ssize ≤ 0x10000000) (known : name ∈ m.kernel.symbolsTable)
    (built : Built m.memory.paging role free ssize space popped memory.paging
      role' rest)
    (shared : memory.shared = m.memory.shared)
    (next : m.finishStart name ssize prio arg space memory = .next m') :
    m'.InOrder := by
  have vacant : m.spaces m.kernel.nextRef = none := by
    by_contra isSpace
    exact absurd (ok.fresh _ isSpace) (lt_irrefl _)
  unfold Machine.finishStart at next
  simp only at next
  split at next
  · rename_i refused
    have lost := ok.books.lose built.evolved (shared ▸ ok.books.sane.kept)
      (by simp [shared])
    have later : MachineOk
        { m with
          memory := memory
          lost := takenSince m.memory.paging memory.paging ++ m.lost }
        role' rest (reown owner popped .lost) :=
      ⟨ok.settled, lost, ok.fresh, ok.records⟩
    exact ⟨_, _, _, later.enter next (not_accepted_start (.inr refused))⟩
  · rename_i accepted
    obtain ⟨base, isFrame, isStack, inBlocks⟩ := built.stack
    split at next
    · rename_i finished isFinished
      obtain ⟨isPaging, sameShared⟩ := onPaging_ok isFinished
      have evolved := built.evolved.layout.finishSpace small built.directory
        isFrame isStack inBlocks built.opened isPaging
      have whole := built.evolved.trans evolved
      rw [List.append_nil] at whole
      have frames : ∀ f, f ∈ takenSince m.memory.paging memory.paging ↔
          f ∈ popped := by
        simp [built.evolved.takenSince]
      have granted := ok.books.grant
        ⟨space.dir, takenSince m.memory.paging memory.paging,
          blocksSince m.memory.paging memory.paging⟩
        whole (sameShared.trans shared) vacant built.directory built.member
        frames
      refine ⟨_, _, _, granted.enter ok.settled next ?_ ?_⟩
      · intro s isStep r isSpace
        by_cases isNew : r = m.kernel.nextRef
        · rw [isNew]
          exact nextRef_lt_of_start isStep small known accepted
        · simp only [Function.update_of_ne isNew] at isSpace
          exact lt_of_lt_of_le (ok.fresh r isSpace)
            (ok.settled.nextRef_le isStep)
      · intro r either
        by_cases isNew : r = m.kernel.nextRef
        · simp [isNew]
        · simp only [Function.update_of_ne isNew]
          exact ok.records r (either.resolve_right fun both => isNew both.1)
    · cases next

/-- Steps keep the machine in order. -/
theorem Machine.InOrder.step {request : Request} (inOrder : m.InOrder)
    (contained : request.Contained platform m)
    (next : m.step platform request = .next m') : m'.InOrder := by
  obtain ⟨role, free, owner, ok⟩ := inOrder
  cases request with
  | kernel a =>
      unfold Machine.step at next
      simp only at next
      split at next
      · cases next
      · rename_i notStart
        refine ⟨role, free, owner, ok.enter next ?_⟩
        rintro ⟨-, name, ssize, prio, rfl, -⟩
        exact notStart rfl
  | start name ssize prio arg =>
      unfold Machine.step at next
      simp only at next
      split at next
      · rename_i refused
        obtain ⟨s, isStep, -⟩ := Machine.enter_next next
        refine ⟨role, free, owner, ok.enter next (not_accepted_start ?_)⟩
        rcases refused with large | unknown
        · exact .inl large
        · by_contra notRefused
          exact step_start_unknown (by omega) unknown isStep
      · rename_i proceed
        rw [not_or, not_not] at proceed
        obtain ⟨small, known⟩ := proceed
        have build := wp_buildSpace ok.books.sane.layout ok.books.sane.seen
          (by omega) (contained (by omega) known)
        have rule : wp (onPaging (buildSpace (platform.images name) ssize))
            (fun space memory => memory.shared = m.memory.shared ∧
              ∃ popped role' rest, Built m.memory.paging role free ssize space
                popped memory.paging role' rest)
            (fun failure memory => memory.shared = m.memory.shared ∧
              Faulted m.memory.paging role free failure memory.paging)
            m.memory := by
          rw [wp_onPaging]
          exact wp_mono build (fun _ _ built => ⟨rfl, built⟩)
            fun _ _ faulted => ⟨rfl, faulted⟩
        obtain ⟨user, ⟨space, memory, -, ⟨shared, popped, role', rest, built⟩,
          finish⟩ | ⟨memory, ⟨shared, faulted⟩, rfl⟩⟩ :=
          Machine.call_next next rule
        · exact ok.finishStart (by omega) known built shared finish
        · exact ok.pageFault user (shared ▸ ok.books.sane.kept)
            (by simp [shared]) faulted
  | shmCreate key =>
      have safe : m.memory.paging.Guarded ∨ free ≠ [] := by
        apply contained.imp_right
        rintro nonNull rfl
        exact nonNull ok.books.sane.layout.linked
      obtain ⟨user, ⟨page, memory, -, made, enters⟩ | ⟨memory, ⟨kept, pairs,
        -, faulted⟩, rfl⟩⟩ :=
        Machine.call_next next (wp_shmCreate ok.books.sane safe)
      · rcases made with ⟨-, counted, sane, -⟩ | ⟨k, rest, -, made⟩
        · exact ⟨role, free, owner, (ok.remember sane counted.pairs).enter
            enters (not_accepted_other _ _)⟩
        · have later : MachineOk { m with memory := memory } _ _ _ :=
            ⟨ok.settled, ok.books.publish made, ok.fresh, ok.records⟩
          exact ⟨_, _, _, later.enter enters (not_accepted_other _ _)⟩
      · exact ok.pageFault user kept pairs faulted
  | shmAcquire key =>
      obtain ⟨-, ⟨page, memory, -, ⟨mapped, sane, -⟩, enters⟩ | ⟨-, never, -⟩⟩ :=
        Machine.call_next next (wp_shmAcquire ok.books.sane)
      · exact ⟨role, free, owner, (ok.remember sane (by simp [mapped.shared])).enter
          enters (not_accepted_other _ _)⟩
      · exact absurd never id
  | shmRelease key =>
      obtain ⟨-, ⟨-, memory, -, released, enters⟩ | ⟨-, never, -⟩⟩ :=
        Machine.call_next next (wp_shmRelease ok.books.sane)
      · rcases released with ⟨counted, sane, -⟩ | ⟨page, freed⟩
        · exact ⟨role, free, owner, (ok.remember sane counted.pairs).enter
            enters (not_accepted_other _ _)⟩
        · have later : MachineOk { m with memory := memory } _ _ _ :=
            ⟨ok.settled, ok.books.giveBack freed, ok.fresh, ok.records⟩
          exact ⟨_, _, _, later.enter enters (not_accepted_other _ _)⟩
      · exact absurd never id

/-- Runs of contained steps keep the machine in order. -/
theorem MachineRun.inOrder
    (run : MachineRun platform (fun m request => request.Contained platform m)
      m m')
    (start : m.InOrder) : m'.InOrder := by
  induction run with
  | refl => exact start
  | step _ contained next ih => exact ih.step contained next

end Steps

/-! ## Runs by evaluation -/

/-- Perform a list of entries. -/
def runRequests (platform : Platform) : List Request → Machine → Option Machine
  | [], m => some m
  | request :: rest, m =>
      match m.step platform request with
      | .next m' => runRequests platform rest m'
      | _ => none

theorem MachineRun.trans {platform : Platform}
    {meets : Machine → Request → Prop} {m m' m'' : Machine}
    (front : MachineRun platform meets m m')
    (back : MachineRun platform meets m' m'') :
    MachineRun platform meets m m'' := by
  induction back with
  | refl => exact front
  | step _ met next ih => exact ih.step met next

theorem MachineRun.mono {platform : Platform}
    {meets meets' : Machine → Request → Prop} {m m' : Machine}
    (run : MachineRun platform meets m m')
    (weaker : ∀ m request, meets m request → meets' m request) :
    MachineRun platform meets' m m' := by
  induction run with
  | refl => exact .refl
  | step _ met next ih => exact ih.step (weaker _ _ met) next

/-- Every entry of a list passes a test. -/
def allRequests (platform : Platform) (check : Machine → Request → Bool) :
    List Request → Machine → Bool
  | [], _ => true
  | request :: rest, m =>
      check m request && match m.step platform request with
        | .next m' => allRequests platform check rest m'
        | _ => false

/-- A run whose steps pass a test. -/
theorem run_of_allRequests {platform : Platform}
    {meets : Machine → Request → Prop} (check : Machine → Request → Bool)
    (means : ∀ m request, check m request = true → meets m request)
    {requests : List Request} {m m' : Machine}
    (performed : runRequests platform requests m = some m')
    (passed : allRequests platform check requests m = true) :
    MachineRun platform meets m m' := by
  induction requests generalizing m with
  | nil =>
      cases performed
      exact .refl
  | cons request rest ih =>
      unfold runRequests at performed
      unfold allRequests at passed
      rw [Bool.and_eq_true] at passed
      split at performed
      · rename_i between next
        rw [next] at passed
        exact (MachineRun.refl.step (means m request passed.1) next).trans
          (ih performed passed.2)
      · cases performed

/-- A test for entries that stay within their own memory. -/
def Request.plainly (m : Machine) : Request → Bool
  | .start _ _ _ _ => false
  | .shmCreate _ => m.memory.paging.head ≠ 0
  | _ => true

theorem Request.contained_of_plainly {platform : Platform} (m : Machine)
    (request : Request) (plain : request.plainly m = true) :
    request.Contained platform m := by
  cases request with
  | start => cases plain
  | shmCreate key => exact .inr (of_decide_eq_true plain)
  | kernel | shmAcquire | shmRelease => trivial

/-- A run from boot whose last state passes a test. -/
theorem run_of_evaluation (platform : Platform)
    {meets : Machine → Request → Prop} (requests : List Request)
    (check : Machine → Request → Bool)
    (means : ∀ m request, check m request = true → meets m request)
    (last : Machine → Bool)
    (passed : (bootMachine platform).any
      (allRequests platform check requests) = true)
    (evaluated : ((bootMachine platform).bind
      (runRequests platform requests)).any last = true) :
    ∃ m m', bootMachine platform = some m ∧ MachineRun platform meets m m' ∧
      last m' = true := by
  obtain ⟨m', isLast, lastPassed⟩ := (Option.any_eq_true _ _).mp evaluated
  obtain ⟨m, booted, performed⟩ := Option.bind_eq_some_iff.mp isLast
  rw [booted] at passed
  exact ⟨m, m', booted, run_of_allRequests check means performed passed,
    lastPassed⟩

end Nebulea
