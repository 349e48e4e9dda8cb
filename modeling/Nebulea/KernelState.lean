import Mathlib.Data.List.Sort
import Mathlib.Logic.Function.Basic

/-!
# Kernel data: processes, queues, semaphores and the processor

Pointers to `Process`, `MessageQueue` and `Semaphore` records are addresses in
three heaps whose entries disappear when `mem_free` releases the record.  An
intrusive list is the list of records found from `head->next` to `head->prev`,
and the `link` field of a record says which list it is chained in; a null link
is `none`.

Where a system call can lose the processor, the code that follows the call of
`__scheduler` is kept as a `Context`, the content of the kernel stack of the
process.
-/

namespace Nebulea

/-- `NBPROC`. -/
def nbProc : Nat := 30
/-- `MAXPRIO`. -/
def maxPrio : Int := 256
/-- `NBQUEUE`. -/
def nbQueue : Nat := 10
/-- `QUEUE_MAX_SIZE`. -/
def queueMaxSize : Int := 1000
/-- `NBSEMAPHORE`. -/
def nbSemaphore : Nat := 10000
/-- `SEMAPHORE_MAX_SIZE`. -/
def semaphoreMaxSize : Int := 32767
/-- `SCHEDFREQ`. -/
def schedFreq : Nat := 5

abbrev ProcRef := Nat

/-- The reference of the record of idle. -/
def idleRef : ProcRef := 0

abbrev QueueRef := Nat
abbrev SemRef := Nat

/-- The `State` enumeration of `process.h`. -/
inductive State where
  | elected
  | activable
  | asleep
  | zombie
  | finished
  | waitingPid
  | inMsgqueue
  | inSem
  deriving DecidableEq, Repr

/-- The list heads a process can be chained to: three global lists, and the
`waiting_process` field of each message queue and each semaphore. -/
inductive Head where
  | activable
  | finished
  | waitingPid
  | queue (q : QueueRef)
  | sem (x : SemRef)
  deriving DecidableEq, Repr

/-- A pointer argument of a system call.  `faults` tells whether a store
through it raises a page fault. -/
structure UserPtr where
  addr : Nat
  faults : Bool
  deriving DecidableEq, Repr

/-- What a suspended process does when it gets the processor back. -/
inductive Context where
  /-- `new_process_start_function` of a process that never ran. -/
  | fresh
  /-- The end of `tic_PIT`. -/
  | interrupted
  /-- A system call whose only remaining work is to return this value. -/
  | returning (value : Int)
  /-- The endless loop at the end of `exit`. -/
  | exiting
  /-- `start`, after the switch to the new process. -/
  | start (p : ProcRef)
  /-- `waitpid`, after `__scheduler`. -/
  | waitpid (pid : Int) (retvalp : UserPtr)
  /-- `psend`, after the switch to a blocked receiver. -/
  | handedOver
  /-- `psend`, after `__scheduler`. -/
  | psend (p : ProcRef) (q : QueueRef)
  /-- `preceive`, after `__scheduler`. -/
  | preceive (p : ProcRef) (q : QueueRef) (message : UserPtr)
  /-- `wait`, after `__scheduler`. -/
  | wait (s : SemRef)
  deriving DecidableEq, Repr

structure Child where
  pid : Int
  priority : Int
  deriving DecidableEq, Repr

/-- The fields of `struct Process` that the scheduler and the synchronisation
calls use.  `stack` is the content of the kernel stack while the process is off
the processor; `registers` is what `ctx_sw` would restore, and is `none` once
it has been restored, since that stack frame is then gone.  `stamp` numbers the
`queue_add` that chained the record last; no code reads it. -/
structure Process where
  pid : Int
  state : State
  priority : Int
  wakeupDate : Nat
  link : Option Head
  stamp : Nat
  fatherPid : Int
  /-- `none` while `INIT_LIST_HEAD` has not been applied to the field. -/
  children : Option (List Child)
  waitedPid : Int
  message : Int
  skipMessage : Bool
  waitedSem : Int
  retval : Int
  stack : Context
  registers : Option Context
  deriving DecidableEq, Repr

/-- A record as `mem_alloc` returns it, filled with zeros. -/
def Process.zeroed : Process where
  pid := 0
  state := .elected
  priority := 0
  wakeupDate := 0
  link := none
  stamp := 0
  fatherPid := 0
  children := none
  waitedPid := 0
  message := 0
  skipMessage := false
  waitedSem := 0
  retval := 0
  stack := .fresh
  registers := none

/-- `struct MessageQueue`; its `waiting_process` list is `Head.queue`. -/
structure MessageQueue where
  fid : Int
  capacity : Int
  nbMsg : Int
  head : Int
  tail : Int
  buffer : Int → Int

/-- `struct Semaphore`; its `waiting_process` list is `Head.sem`. -/
structure Semaphore where
  sid : Int
  count : Int
  wasReset : Bool
  wasDeleted : Bool
  deriving DecidableEq, Repr

/-- Conversion of an integer to the C type `short int`. -/
def short (value : Int) : Int :=
  value.bmod 0x10000

/-- Where the processor is. -/
inductive Mode where
  | user
  /-- In the kernel, about to run what `ctx_sw` has restored. -/
  | kernel (context : Context)
  /-- At the entry of `pagefault_interrupt`. -/
  | pageFault
  deriving DecidableEq, Repr

/-- Observable events of a run.  No kernel function reads them. -/
inductive Event where
  /-- `__scheduler` calls `virtual_ctx_sw` with this `old_process` while
  `running` is on the processor. -/
  | contextSwitch (running old : ProcRef) (finished : List ProcRef)
  | exited (p : ProcRef) (retval : Int)
  | killed (p : ProcRef)
  /-- `__finish_zombie` is entered on `pid`, whose record is `child`. -/
  | finishZombie (caller pid : Int) (child : Option (ProcRef × Process))
  /-- A store through a pointer argument. -/
  | store (addr : Nat) (value : Int)
  | sending (p : ProcRef) (q : QueueRef) (message : Int)
  | put (q : QueueRef) (sender : ProcRef) (message : Int)
  | take (q : QueueRef) (receiver : ProcRef) (message : Int)
  | signalled (s : SemRef)
  | granted (s : SemRef) (p : ProcRef)
  | reset (s : SemRef)
  deriving DecidableEq, Repr

/-- The kernel's variables, its heaps and the processor. -/
@[ext]
structure KState where
  currentPid : Int
  processTable : Int → Option ProcRef
  procs : ProcRef → Option Process
  lists : Head → List ProcRef
  queueTable : Int → Option QueueRef
  queues : QueueRef → Option MessageQueue
  semaphoreTable : Int → Option SemRef
  sems : SemRef → Option Semaphore
  timeCount : Nat
  symbolsTable : List String
  /-- Every address from here on is free in all heaps. -/
  nextRef : Nat
  stamp : Nat
  /-- The process whose kernel stack the processor is on. -/
  running : ProcRef
  mode : Mode
  /-- Return value of the last system call that came back to user mode. -/
  eax : Int
  trace : List Event

/-- Ways in which a kernel function does not complete. -/
inductive Fault where
  /-- A page fault; `pagefault_interrupt` takes over. -/
  | page
  | panic (message : String)
  | assertion (expression : String)
  | useAfterFree
  /-- `ctx_sw` restores registers that were already restored. -/
  | lostContext
  /-- `__scheduler` stores through the null process that `queue_out` gives on
  an empty list. -/
  | noActivable
  /-- A list head that `INIT_LIST_HEAD` never set up is followed.  Only idle
  has one, and ending idle follows it again. -/
  | nullHead
  | endlessLoop
  deriving DecidableEq, Repr

/-- Kernel code: it reads and writes the kernel state and may fault, keeping
the state it had reached. -/
abbrev KM := EStateM Fault KState

namespace KState

/-- The `priority` field `queue_add` compares. -/
def prio (s : KState) (r : ProcRef) : Int :=
  match s.procs r with
  | some p => p.priority
  | none => 0

def stampOf (s : KState) (r : ProcRef) : Nat :=
  match s.procs r with
  | some p => p.stamp
  | none => 0

@[simps]
def setProc (s : KState) (r : ProcRef) (p : Process) : KState :=
  { s with procs := Function.update s.procs r (some p) }

/-- Chain record `r`, whose content is `p`, in the list `h`, before the first
element whose priority is not lower. -/
@[simps]
def insert (s : KState) (r : ProcRef) (p : Process) (h : Head) : KState :=
  { s with
    procs := Function.update s.procs r
      (some { p with link := some h, stamp := s.stamp })
    lists := Function.update s.lists h
      ((s.lists h).orderedInsert (fun first second =>
        s.prio first ≤ s.prio second) r)
    stamp := s.stamp + 1 }

/-- Unchain record `r`, whose content is `p`, from the list `h`. -/
@[simps]
def remove (s : KState) (r : ProcRef) (p : Process) (h : Head) : KState :=
  { s with
    procs := Function.update s.procs r (some { p with link := none })
    lists := Function.update s.lists h ((s.lists h).erase r) }

@[simps]
def setQueue (s : KState) (q : QueueRef) (content : MessageQueue) : KState :=
  { s with queues := Function.update s.queues q (some content) }

@[simps]
def setSem (s : KState) (x : SemRef) (content : Semaphore) : KState :=
  { s with sems := Function.update s.sems x (some content) }

@[simps]
def note (s : KState) (e : Event) : KState :=
  { s with trace := e :: s.trace }

end KState

/-- `p->…` for a process pointer. -/
def derefProc (r : ProcRef) : KM Process := do
  match (← get).procs r with
  | some p => pure p
  | none => throw .useAfterFree

def derefQueue (q : QueueRef) : KM MessageQueue := do
  match (← get).queues q with
  | some content => pure content
  | none => throw .useAfterFree

def derefSem (x : SemRef) : KM Semaphore := do
  match (← get).sems x with
  | some content => pure content
  | none => throw .useAfterFree

/-- `process_table[pid]`, about to be dereferenced. -/
def entry (pid : Int) : KM ProcRef := do
  match (← get).processTable pid with
  | some r => pure r
  | none => throw .page

/-- Assignments to fields of a process. -/
def modifyProc (r : ProcRef) (change : Process → Process) : KM Unit := do
  let p ← derefProc r
  modify fun s => s.setProc r (change p)

def modifyQueue (q : QueueRef) (change : MessageQueue → MessageQueue) :
    KM Unit := do
  let content ← derefQueue q
  modify fun s => s.setQueue q (change content)

def modifySem (x : SemRef) (change : Semaphore → Semaphore) : KM Unit := do
  let content ← derefSem x
  modify fun s => s.setSem x (change content)

def emit (e : Event) : KM Unit :=
  modify fun s => s.note e

/-- `*pointer = value` for a pointer argument. -/
def storeUser (pointer : UserPtr) (value : Int) : KM Unit :=
  if pointer.faults then throw .page else emit (.store pointer.addr value)

/-- The end of a system call: back to user mode with this return value. -/
def ret (value : Int) : KM Unit :=
  modify fun s => { s with mode := .user, eax := value }

/-! ## Priority queues of `queue.h` -/

/-- `queue_add` on processes. -/
def queueAdd (r : ProcRef) (h : Head) : KM Unit := do
  let p ← derefProc r
  if p.link = none then
    modify fun s => s.insert r p h
  else
    throw (.assertion "(__elem_link->prev == 0) && (__elem_link->next == 0)")

/-- `queue_del` on a process. -/
def queueDel (r : ProcRef) : KM Unit := do
  let p ← derefProc r
  match p.link with
  | some h => modify fun s => s.remove r p h
  | none =>
      throw (.assertion "(__elem_link->prev != 0) && (__elem_link->next != 0)")

/-- `queue_out`: unchain and return the element before the head. -/
def queueOut (h : Head) : KM (Option ProcRef) := do
  match ((← get).lists h).getLast? with
  | none => pure none
  | some r => do
      let p ← derefProc r
      modify fun s =>
        { s with
          procs := Function.update s.procs r (some { p with link := none })
          lists := Function.update s.lists h (s.lists h).dropLast }
      pure (some r)

/-- `while (!queue_empty(h)) { r = queue_out(h); … }`, for at most `fuel`
turns. -/
def drain (h : Head) (body : ProcRef → KM Unit) : Nat → KM Unit
  | 0 => pure ()
  | fuel + 1 => do
      match ← queueOut h with
      | none => pure ()
      | some r => do
          body r
          drain h body fuel

/-- The loop that looks for the first null entry of a table. -/
def firstFree (size : Nat) (table : Int → Option Nat) : Int :=
  match (List.range size).find? fun i : Nat => table i == none with
  | some i => i
  | none => -1

/-- `queue_add` on a list of children. -/
def addChild (child : Child) (children : List Child) : List Child :=
  children.orderedInsert (fun first second =>
    first.priority ≤ second.priority) child

end Nebulea
