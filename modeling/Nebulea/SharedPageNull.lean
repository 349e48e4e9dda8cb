import Nebulea.MemoryIsolation
import Nebulea.SharedPageCount

/-!
# Keys that nobody registered

`shm_acquire` prints a message when it does not find its key and goes on with
the null pointer: it maps the first page for user code.  Page tables stay as
they are only when this has happened before.
-/

namespace Nebulea

open ByteMemory ExceptState

namespace Machine

/-- No entry of a page directory or page table differs. -/
structure KeepsEntries (m m' : Machine) : Prop where
  directories : ∀ d, m'.Directory d ↔ m.Directory d
  entries : ∀ f, m.PageStructure f → ∀ i, i < 1024 →
    load32 m'.memory.paging.bytes (f + 4 * i) =
      load32 m.memory.paging.bytes (f + 4 * i)

/-- `shm_acquire` returns the null pointer and leaves page tables alone. -/
def Refuses (platform : Platform) (m : Machine) (key : KeyPtr) : Prop :=
  ∃ m', m.step platform (.shmAcquire key) = .next m' ∧
    m'.kernel.mode = .user ∧ m'.kernel.eax = 0 ∧ m.KeepsEntries m'

/-- User code may read and write the first page in the loaded directory. -/
def NullMapped (m : Machine) : Prop :=
  load32 m.memory.paging.bytes m.memory.paging.cr3 = pgtab ||| pageTableUserRw ∧
    load32 m.memory.paging.bytes pgtab = pageTableUserRw

/-- The directory of the process on the processor is loaded. -/
def Loaded (m : Machine) : Prop :=
  ∃ space, m.spaces m.kernel.running = some space ∧
    m.memory.paging.cr3 = space.cr3

end Machine

/-! ## The loaded directory -/

section Loading

variable {platform : Platform} {m m' : Machine} {a : Action}
variable {role : Nat → Role} {free : List Nat} {owner : Nat → Owner}

/-- An entry ends in user code by way of the process part. -/
theorem Machine.step_enters {request : Request}
    (next : m.step platform request = .next m') :
    (∃ m₁ a, Machine.enter m₁ a = .next m') ∨ m'.kernel.mode = .pageFault := by
  have anyway : ∀ {Value : Type} (code : MM Value),
      wp code (fun _ _ => True) (fun _ _ => True) m.memory := by
    intro Value code
    unfold wp
    cases code m.memory <;> trivial
  unfold Machine.step at next
  cases request with
  | kernel a =>
      simp only at next
      split at next
      · cases next
      · exact .inl ⟨m, a, next⟩
  | start name ssize prio arg =>
      simp only at next
      split at next
      · exact .inl ⟨m, _, next⟩
      · obtain ⟨-, ⟨space, memory, -, -, finish⟩ | ⟨memory, -, rfl⟩⟩ :=
          Machine.call_next next (anyway _)
        · unfold Machine.finishStart at finish
          simp only at finish
          split at finish
          · exact .inl ⟨_, _, finish⟩
          · split at finish
            · exact .inl ⟨_, _, finish⟩
            · cases finish
        · exact .inr rfl
  | shmCreate key | shmAcquire key | shmRelease key =>
      obtain ⟨-, ⟨value, memory, -, -, enters⟩ | ⟨memory, -, rfl⟩⟩ :=
        Machine.call_next next (anyway _)
      · exact .inl ⟨_, _, enters⟩
      · exact .inr rfl

/-- `update_cr3`. -/
theorem MachineOk.loaded (ok : MachineOk m' role free owner)
    (next : m.enter a = .next m') : m'.Loaded := by
  obtain ⟨p, onCpu⟩ := ok.settled.onCpu
  have found := ok.records m'.kernel.running (by simp [onCpu.1])
  obtain ⟨space, isSpace⟩ := Option.ne_none_iff_exists'.mp found
  refine ⟨space, isSpace, ?_⟩
  obtain ⟨s, -, rfl⟩ := Machine.enter_next next
  rw [Machine.loadCr3_kernel, Machine.loadCr3_spaces] at isSpace
  unfold Machine.loadCr3
  rw [isSpace]

theorem loaded_bootMachine (booted : bootMachine platform = some m) :
    m.Loaded := by
  unfold bootMachine at booted
  split at booted
  · rename_i idle space paging value kernel isPaging isKernel
    cases booted
    obtain ⟨popped, role, rest, popped', role', rest', evolved, -, later, -, -⟩ :=
      bootPaging_ok isPaging
    have isIdle : kernel.running = idleRef := by
      rw [booted_eq isKernel]
      rfl
    refine ⟨⟨pgdir, idle.taken, idle.blocks⟩, by simp [isIdle], ?_⟩
    exact later.cr3.trans evolved.cr3
  · cases booted

theorem MachineRun.loaded
    (run : MachineRun platform (fun m request => request.Contained platform m)
      m m')
    (booted : bootMachine platform = some m)
    (user : m'.kernel.mode = .user) : m'.Loaded := by
  have inOrder := run.inOrder (inOrder_bootMachine booted)
  cases run with
  | refl => exact loaded_bootMachine booted
  | step front contained next =>
      obtain ⟨role, free, owner, ok⟩ := inOrder
      rcases Machine.step_enters next with ⟨m₁, a, enters⟩ | faulted
      · exact ok.loaded enters
      · rw [user] at faulted
        cases faulted

end Loading

/-! ## The first page -/

section First

variable {platform : Platform} {m m' : Machine} {role : Nat → Role}
variable {free : List Nat} {owner : Nat → Owner} {p : Paging}

/-- In an address space where the first page is mapped a null pointer does not
fault. -/
theorem Machine.NullMapped.reached (mapped : m.NullMapped) :
    ¬ m.memory.paging.Guarded ∧
      m.memory.paging.userFrame m.memory.paging.cr3 0 = some 0 := by
  obtain ⟨first, second⟩ := mapped
  constructor
  · unfold Paging.Guarded
    rw [second]
    decide
  · have isTable : frameBits (pgtab ||| pageTableUserRw) = pgtab := by decide
    have isPage : load32 m.memory.paging.bytes (pgtab + 4 * ptIndex 0) =
        pageTableUserRw :=
      second
    have isFirst : load32 m.memory.paging.bytes
        (m.memory.paging.cr3 + 4 * pdIndex 0) = pgtab ||| pageTableUserRw :=
      first
    unfold Paging.userFrame
    simp only [isFirst, isTable, isPage]
    decide

end First

/-! ## Runs -/

section Runs

variable {platform : Platform} {m m' : Machine}

instance (m : Machine) : Decidable m.NullMapped :=
  inferInstanceAs (Decidable (_ ∧ _))

end Runs

end Nebulea
