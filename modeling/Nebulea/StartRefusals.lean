import Nebulea.SharedPageNull

/-!
# Calls of `start` that return -1

`start` refuses a stack that is too large before it allocates anything.  When
there is no free pid, or the priority is too high, the frames of the program,
of the page directory and of the stack are taken already, and nothing puts them
back.
-/

namespace Nebulea

open ByteMemory ExceptState

/-- What processes and the kernel can see is as before, except for the value
that the call returns. -/
structure Machine.Unchanged (m m' : Machine) : Prop where
  kernel : m'.kernel = { m.kernel with eax := -1 }
  bytes : m'.memory.paging.bytes = m.memory.paging.bytes
  head : m'.memory.paging.head = m.memory.paging.head
  cr3 : m'.memory.paging.cr3 = m.memory.paging.cr3
  blocks : m'.memory.paging.blocks = m.memory.paging.blocks
  shared : m'.memory.shared = m.memory.shared
  spaces : m'.spaces = m.spaces

section Refusals

variable {platform : Platform} {m m' : Machine} {role role' : Nat → Role}
variable {free rest popped : List Nat} {owner : Nat → Owner} {a : Action}
variable {name : String} {ssize arg : Nat} {prio : Int}

theorem Machine.loadCr3_head (m : Machine) :
    m.loadCr3.memory.paging.head = m.memory.paging.head := by
  unfold Machine.loadCr3
  cases m.spaces m.kernel.running <;> rfl

theorem Machine.enter_head (next : m.enter a = .next m') :
    m'.memory.paging.head = m.memory.paging.head := by
  obtain ⟨s, -, rfl⟩ := Machine.enter_next next
  exact Machine.loadCr3_head _

/-- A free list that lost frames has another head. -/
theorem Evolved.head_ne {p p' : Paging}
    (evolved : Evolved p role free popped p' role' rest)
    (layout : Layout p role free) (some : popped ≠ []) : p'.head ≠ p.head := by
  obtain ⟨f, others, rfl⟩ := List.exists_cons_of_ne_nil some
  have isFree := evolved.free
  have linked := layout.linked
  have nodup := layout.nodup
  rw [isFree] at linked nodup
  have isHead : p.head = f := linked.1
  have bounds : IsFrame f := by
    apply layout.isFrame_of_mem
    rw [isFree]
    exact List.mem_cons_self
  have later := evolved.layout.linked
  cases rest with
  | nil =>
      have isNull : p'.head = 0 := later
      have low := bounds.lt
      omega
  | cons g others' =>
      have isHead' : p'.head = g := later.1
      rw [isHead, isHead']
      rintro rfl
      have notMember := (List.nodup_cons.mp nodup).1
      exact notMember (List.mem_append_right others List.mem_cons_self)

/-- `start` with a stack that is too large. -/
theorem step_start_large {s : KState} (user : s.mode = .user)
    (large : ssize > 0x10000000) :
    step (.call (.start name ssize prio)) s =
      .next { s with mode := .user, eax := -1 } := by
  unfold step
  rw [user]
  simp only [kernelEntry, syscall]
  have returns : start name ssize prio s =
      .ok () { s with mode := .user, eax := -1 } := by
    unfold start
    change EStateM.bind get _ s = _
    unfold EStateM.bind
    change (if ssize > 0x10000000 then ret (-1) else _) s = _
    rw [if_pos large]
    rfl
  rw [returns]

theorem Machine.step_large (large : ssize > 0x10000000)
    (next : m.step platform (.start name ssize prio arg) = .next m') :
    m.enter (.call (.start name ssize prio)) = .next m' := by
  unfold Machine.step at next
  simp only at next
  rwa [if_pos (.inl large)] at next

theorem Machine.Loaded.unchanged (loaded : m.Loaded)
    (user : m.kernel.mode = .user) (large : ssize > 0x10000000)
    (next : m.step platform (.start name ssize prio arg) = .next m') :
    m.Unchanged m' := by
  obtain ⟨s, isStep, rfl⟩ := Machine.enter_next (Machine.step_large large next)
  rw [step_start_large user large] at isStep
  cases isStep
  obtain ⟨space, isSpace, isLoaded⟩ := loaded
  unfold Machine.loadCr3
  simp only [isSpace]
  constructor
  · rw [← user]
  · rfl
  · rfl
  · exact isLoaded.symm
  · rfl
  · rfl
  · rfl

/-- `start` with a small stack changes the free list or the processes, unless
it faults. -/
theorem MachineOk.start_changes (ok : MachineOk m role free owner)
    (contained : Request.Contained platform m (.start name ssize prio arg))
    (small : ssize ≤ 0x10000000)
    (next : m.step platform (.start name ssize prio arg) = .next m')
    (user : m'.kernel.mode = .user) : ¬ m.Unchanged m' := by
  intro unchanged
  unfold Machine.step at next
  simp only at next
  split at next
  · rename_i refused
    have unknown := refused.resolve_left (by omega)
    obtain ⟨s, isStep, -⟩ := Machine.enter_next next
    exact step_start_unknown small unknown isStep
  · rename_i notRefused
    have known : name ∈ m.kernel.symbolsTable := by
      by_contra unknown
      exact notRefused (.inr unknown)
    have sane := ok.books.sane
    have rule : wp (onPaging (buildSpace (platform.images name) ssize))
        (fun space memory => ∃ popped role' rest, Built m.memory.paging role
          free ssize space popped memory.paging role' rest)
        (fun _ _ => True) m.memory := by
      rw [wp_onPaging]
      exact wp_mono (wp_buildSpace sane.layout sane.seen small
        (contained small known)) (fun _ _ built => built) fun _ _ _ => trivial
    obtain ⟨-, ⟨space, memory, -, ⟨popped, role', rest, built⟩, finish⟩ |
      ⟨memory, -, rfl⟩⟩ := Machine.call_next next rule
    · unfold Machine.finishStart at finish
      simp only at finish
      split at finish
      · -- refused after the allocations
        have moved := built.evolved.head_ne sane.layout
          (List.ne_nil_of_mem built.member)
        rw [← Machine.enter_head finish] at moved
        exact moved unchanged.head
      · rename_i accepted
        split at finish
        · -- accepted: there is one more process
          obtain ⟨s, isStep, rfl⟩ := Machine.enter_next finish
          have more := nextRef_lt_of_start isStep small known accepted
          have same := unchanged.kernel
          rw [Machine.loadCr3_kernel] at same
          simp only at same more
          rw [same] at more
          exact absurd more (lt_irrefl _)
        · cases finish
    · cases user

end Refusals

/-! ## Runs -/

section Runs

variable {platform : Platform} {m m' m'' : Machine}

/-- A call of `start` that returns -1 leaves everything as it was exactly when
the stack is too large. -/
theorem refused_start_unchanged_iff (booted : bootMachine platform = some m)
    (run : MachineRun platform (fun m request => request.Contained platform m)
      m m')
    (name : String) (ssize arg : Nat) (prio : Int)
    (contained : Request.Contained platform m' (.start name ssize prio arg))
    (next : m'.step platform (.start name ssize prio arg) = .next m'')
    (returned : m''.kernel.mode = .user) (_failed : m''.kernel.eax = -1) :
    m'.Unchanged m'' ↔ ssize > 0x10000000 := by
  obtain ⟨role, free, owner, ok⟩ := run.inOrder (inOrder_bootMachine booted)
  constructor
  · intro unchanged
    by_contra notLarge
    exact ok.start_changes contained (by omega) next returned unchanged
  · intro large
    obtain ⟨s, isStep, -⟩ := Machine.enter_next (Machine.step_large large next)
    have user := mode_of_call isStep
    exact (run.loaded booted user).unchanged user large next

/-- A call of `start` after the first process got the processor. -/
def Machine.starting (m : Machine) (ssize : Nat) (prio : Int) :
    Option Machine :=
  match m.step samplePlatform (.start "autotest" ssize prio 0) with
  | .next m' =>
      if m'.kernel.mode = .user ∧ m'.kernel.eax = -1 then some m' else none
  | _ => none

theorem Machine.starting_eq_some {ssize : Nat} {prio : Int}
    (starts : m.starting ssize prio = some m') :
    m.step samplePlatform (.start "autotest" ssize prio 0) = .next m' ∧
      m'.kernel.mode = .user ∧ m'.kernel.eax = -1 := by
  unfold Machine.starting at starts
  split at starts
  · rename_i m'' next
    split at starts
    · rename_i failed
      cases starts
      exact ⟨next, failed⟩
    · cases starts
  · cases starts

/-- The first process calls `start`, which returns -1. -/
theorem starting_of_evaluation (ssize : Nat) (prio : Int)
    (last : Machine → Machine → Bool)
    (evaluated : ((bootMachine samplePlatform).bind
      (runRequests samplePlatform schedule)).any (fun m' =>
        (m'.starting ssize prio).any (last m')) = true) :
    ∃ m m' m'', bootMachine samplePlatform = some m ∧
      MachineRun samplePlatform
        (fun m request => request.Contained samplePlatform m) m m' ∧
      m'.step samplePlatform (.start "autotest" ssize prio 0) = .next m'' ∧
      m''.kernel.mode = .user ∧ m''.kernel.eax = -1 ∧
      last m' m'' = true := by
  obtain ⟨m, m', booted, run, passed⟩ := run_of_evaluation samplePlatform
    schedule (fun m request => request.plainly m) Request.contained_of_plainly
    _ (by decide +kernel) evaluated
  obtain ⟨m'', starts, isLast⟩ := (Option.any_eq_true _ _).mp passed
  obtain ⟨next, user, failed⟩ := Machine.starting_eq_some starts
  exact ⟨m, m', m'', booted, run, next, user, failed, isLast⟩

/-- A stack of more than 256 MB. -/
theorem large_stack_leaves_all : ∃ m m' m'',
    bootMachine samplePlatform = some m ∧
    MachineRun samplePlatform
      (fun m request => request.Contained samplePlatform m) m m' ∧
    m'.step samplePlatform (.start "autotest" 0x10000001 128 0) = .next m'' ∧
    m'.Unchanged m'' := by
  obtain ⟨m, m', m'', booted, run, next, user, failed, -⟩ :=
    starting_of_evaluation 0x10000001 128 (fun _ _ => true) (by decide +kernel)
  have contained : Request.Contained samplePlatform m'
      (.start "autotest" 0x10000001 128 0) :=
    fun small => absurd small (by decide)
  exact ⟨m, m', m'', booted, run, next, (refused_start_unchanged_iff booted run
    _ _ _ _ contained next user failed).mpr (by decide)⟩

/-- A priority above the maximum. -/
theorem high_priority_loses_frames : ∃ m m' m'',
    bootMachine samplePlatform = some m ∧
    MachineRun samplePlatform
      (fun m request => request.Contained samplePlatform m) m m' ∧
    m'.step samplePlatform (.start "autotest" 4096 257 0) = .next m'' ∧
    m''.kernel.mode = .user ∧ m''.kernel.eax = -1 ∧
    ¬ m'.Unchanged m'' := by
  obtain ⟨m, m', m'', booted, run, next, user, failed, moved⟩ :=
    starting_of_evaluation 4096 257 (fun m' m'' =>
      decide (m''.memory.paging.head ≠ m'.memory.paging.head))
      (by decide +kernel)
  refine ⟨m, m', m'', booted, run, next, user, failed, fun unchanged => ?_⟩
  exact of_decide_eq_true moved unchanged.head

end Runs

end Nebulea
