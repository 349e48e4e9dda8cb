import Nebulea.KernelStep
import Nebulea.SharedMemory

/-!
# The kernel together with its memory

A machine is the state of the kernel, its memory, and the field `cr3` of every
process record.  `start` and the calls on shared pages act on memory before
they act on the processes; a page fault on the way ends the call, and
`pagefault_interrupt` takes over as in the kernel alone.
-/

namespace Nebulea

/-- What `start` made for a process: its page directory, the frames it took
from the free list and the blocks of its program and its stack.  For idle these
are the frames and blocks of `__init_idle`. -/
structure ProcessSpace where
  cr3 : Nat
  frames : List Nat
  blocks : List Block

/-- The machine.  The last field is a record of what happened: the frames that
a call took and kept although it failed. -/
structure Machine where
  kernel : KState
  memory : Memory
  spaces : ProcRef → Option ProcessSpace
  lost : List Nat

/-- What the hardware and the linker provide. -/
structure Platform where
  /-- Pages of kernel code and constants. -/
  readOnly : Nat → Bool
  /-- Memory before boot. -/
  bytes : ByteMemory.Bytes
  /-- The first address of the heap that is free when shared pages are set
  up. -/
  heap : Nat
  /-- The names of the `symbols_table` and their programs. -/
  apps : List String
  images : String → Image

/-- The kernel entries of a machine. -/
inductive Request where
  | kernel (a : Action)
  | start (name : String) (ssize : Nat) (prio : Int) (arg : Nat)
  | shmCreate (key : Option KeyPtr)
  | shmAcquire (key : KeyPtr)
  | shmRelease (key : KeyPtr)

/-- The entry is a call of `start`. -/
def Action.isStart : Action → Bool
  | .call (.start _ _ _) => true
  | _ => false

inductive MachineOutcome where
  | next (m : Machine)
  | stopped (fault : Fault) (m : Machine)
  | disabled

/-- The frames taken between two states of memory. -/
def takenSince (before after : Paging) : List Nat :=
  after.taken.take (after.taken.length - before.taken.length)

/-- The blocks made between two states of memory. -/
def blocksSince (before after : Paging) : List Block :=
  after.blocks.take (after.blocks.length - before.blocks.length)

namespace Machine

/-- `update_cr3`: the directory of the process on the processor is loaded. -/
def loadCr3 (m : Machine) : Machine :=
  match m.spaces m.kernel.running with
  | some space =>
      { m with
        memory :=
          { m.memory with
            paging := { m.memory.paging with cr3 := space.cr3 } } }
  | none => m

/-- The part of an entry that acts on processes. -/
def enter (m : Machine) (a : Action) : MachineOutcome :=
  match step a m.kernel with
  | .next s => .next (loadCr3 { m with kernel := s })
  | .stopped fault s => .stopped fault { m with kernel := s }
  | .disabled => .disabled

/-- The entry of `pagefault_interrupt`. -/
def pageFault (m : Machine) (memory : Memory) : Machine :=
  { m with
    kernel := { m.kernel with mode := .pageFault }
    memory := memory
    lost := takenSince m.memory.paging memory.paging ++ m.lost }

/-- A system call that acts on memory first. -/
def call {Value : Type} (m : Machine) (code : MM Value)
    (next : Value → Memory → MachineOutcome) : MachineOutcome :=
  if m.kernel.mode = .user then
    match code m.memory with
    | .ok value memory => next value memory
    | .error .page memory => .next (m.pageFault memory)
    | .error fault memory => .stopped fault { m with memory := memory }
  else
    .disabled

/-- `start` once the address space is built.  The rest of its work on memory
cannot fault: `pgdir_copy` has been through the same addresses. -/
def finishStart (m : Machine) (name : String) (ssize : Nat) (prio : Int)
    (arg : Nat) (space : Space) (memory : Memory) : MachineOutcome :=
  let frames := takenSince m.memory.paging memory.paging
  if getFreePid m.kernel = -1 ∨ prio > maxPrio then
    enter { m with memory := memory, lost := frames ++ m.lost }
      (.call (.start name ssize prio))
  else
    match onPaging (finishSpace space ssize arg) memory with
    | .ok _ finished =>
        enter
          { m with
            memory := finished
            spaces := Function.update m.spaces m.kernel.nextRef
              (some ⟨space.dir, frames,
                blocksSince m.memory.paging memory.paging⟩) }
          (.call (.start name ssize prio))
    | .error fault finished => .stopped fault { m with memory := finished }

/-- One stretch of kernel code. -/
def step (platform : Platform) (m : Machine) : Request → MachineOutcome
  | .kernel a => if a.isStart then .disabled else m.enter a
  | .start name ssize prio arg =>
      if ssize > 0x10000000 ∨ name ∉ m.kernel.symbolsTable then
        m.enter (.call (.start name ssize prio))
      else
        m.call (onPaging (buildSpace (platform.images name) ssize))
          (m.finishStart name ssize prio arg)
  | .shmCreate key =>
      m.call (Nebulea.shmCreate key) fun page memory =>
        enter { m with memory := memory } (.call (.other page))
  | .shmAcquire key =>
      m.call (Nebulea.shmAcquire key) fun page memory =>
        enter { m with memory := memory } (.call (.other page))
  | .shmRelease key =>
      m.call (Nebulea.shmRelease key) fun _ memory =>
        enter { m with memory := memory } (.call (.other 0))

end Machine

/-- Memory for idle and for the first process; the state between the two is
returned as well. -/
def bootPaging (platform : Platform) : PM (Paging × Space) := do
  mapIdle (platform.images "idle")
  let idle ← get
  let space ← buildSpace (platform.images "autotest") 4096
  finishSpace space 4096 0
  pure (idle, space)

/-- `kernel_start`. -/
def bootMachine (platform : Platform) : Option Machine :=
  match bootPaging platform (.booting platform.readOnly platform.bytes),
      kernelStart (KState.zeroed platform.apps) with
  | .ok (idle, space) paging, .ok _ kernel =>
      some
        { kernel := kernel
          memory := ⟨paging, initalizeHashHead platform.heap⟩
          spaces := fun r =>
            if r = idleRef then some ⟨pgdir, idle.taken, idle.blocks⟩
            else if r = 1 then
              some ⟨space.dir, takenSince idle paging, blocksSince idle paging⟩
            else none
          lost := [] }
  | _, _ => none

/-- A run of the machine whose steps all meet a condition. -/
inductive MachineRun (platform : Platform)
    (meets : Machine → Request → Prop) (m : Machine) : Machine → Prop
  | refl : MachineRun platform meets m m
  | step {m' m'' : Machine} {request : Request}
      (front : MachineRun platform meets m m') (met : meets m' request)
      (next : m'.step platform request = .next m'') :
      MachineRun platform meets m m''

end Nebulea
