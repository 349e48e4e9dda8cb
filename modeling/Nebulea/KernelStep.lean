import Nebulea.KernelMessageQueue
import Nebulea.KernelSemaphore

/-!
# Kernel entries, boot and runs

The interrupt gates clear the interrupt flag, so a kernel entry runs without
interruption up to the point where it returns to user mode or gives the
processor away.  Each such stretch is one step of a run.  A page fault inside
the kernel ends the stretch as well: `pagefault_interrupt` then calls
`exit(0)` for the current process.  Every other fault ends the run.
-/

namespace Nebulea

/-- The system calls that `__syscall` dispatches. -/
inductive Syscall where
  | start (name : String) (ssize : Nat) (prio : Int)
  | getpid
  | getprio (pid : Int)
  | chprio (pid newprio : Int)
  | kill (pid : Int)
  | waitpid (pid : Int) (retvalp : UserPtr)
  | exit (retval : Int)
  | scount (sem : Int)
  | screate (count : Int)
  | sdelete (sem : Int)
  | signal (sem : Int)
  | signaln (sem count : Int)
  | sreset (sem count : Int)
  | tryWait (sem : Int)
  | wait (sem : Int)
  | pcount (fid : Int) (count : UserPtr)
  | pcreate (count : Int)
  | pdelete (fid : Int)
  | preceive (fid : Int) (message : UserPtr)
  | preset (fid : Int)
  | psend (fid message : Int)
  | clockSettings (quartz ticks : UserPtr)
  | currentClock
  | waitClock (wakeup : Nat)
  /-- Console, shared memory and information calls: they return some value and
  touch nothing of this state. -/
  | other (result : Int)
  | unknown
  deriving DecidableEq, Repr

/-- `QUARTZ`. -/
def quartzFrequency : Int := 0x1234DD
/-- `clock_ticks` after `set_clock_frequency(200)`. -/
def clockTicks : Int := quartzFrequency / 200

/-- `clock_settings`. -/
def clockSettings (quartz ticks : UserPtr) : KM Unit := do
  storeUser quartz quartzFrequency
  storeUser ticks clockTicks
  ret 0

/-- `__syscall`. -/
def syscall : Syscall → KM Unit
  | .start name ssize prio => start name ssize prio
  | .getpid => getpid
  | .getprio pid => getprio pid
  | .chprio pid newprio => chprio pid newprio
  | .kill pid => kill pid
  | .waitpid pid retvalp => waitpid pid retvalp
  | .exit retval => exit retval
  | .scount sem => scount sem
  | .screate count => screate (short count)
  | .sdelete sem => sdelete sem
  | .signal sem => signal sem
  | .signaln sem count => signaln sem (short count)
  | .sreset sem count => sreset sem (short count)
  | .tryWait sem => tryWait sem
  | .wait sem => wait sem
  | .pcount fid count => pcount fid count
  | .pcreate count => pcreate count
  | .pdelete fid => pdelete fid
  | .preceive fid message => preceive fid message
  | .preset fid => preset fid
  | .psend fid message => psend fid message
  | .clockSettings quartz ticks => clockSettings quartz ticks
  | .currentClock => do ret (← get).timeCount
  | .waitClock wakeup => waitClock wakeup
  | .other result => ret result
  | .unknown => throw (.panic "Syscall number not recognized !")

/-- The code a restored context continues with. -/
def resume : Context → KM Unit
  | .fresh => modify fun s => { s with mode := .user }
  | .interrupted => modify fun s => { s with mode := .user }
  | .returning value => ret value
  | .exiting => throw .endlessLoop
  | .start p => startTail p
  | .waitpid pid retvalp => waitpidTail pid retvalp
  | .handedOver => ret 0
  | .psend p _ => psendTail p
  | .preceive p q message => preceiveTail p q message
  | .wait s => waitTail s

/-- What the environment chooses in user mode; in the kernel the restored
context simply goes on. -/
inductive Action where
  | call (c : Syscall)
  | tick
  | resume
  deriving DecidableEq, Repr

/-- The kernel code an action runs in a given mode. -/
def kernelEntry : Mode → Action → Option (KM Unit)
  | .user, .call c => some (syscall c)
  | .user, .tick => some ticPIT
  | .kernel k, .resume => some (resume k)
  | .pageFault, .resume => some (exit 0)
  | _, _ => none

inductive Outcome where
  | next (s : KState)
  | stopped (fault : Fault) (s : KState)
  | disabled

/-- One stretch of kernel code. -/
def step (a : Action) (s : KState) : Outcome :=
  match kernelEntry s.mode a with
  | none => .disabled
  | some code =>
      match code s with
      | .ok _ s' => .next s'
      | .error .page s' => .next { s' with mode := .pageFault }
      | .error fault s' => .stopped fault s'

/-! ## Boot -/

/-- The kernel's variables before `kernel_start`. -/
def KState.zeroed (apps : List String) : KState where
  currentPid := -1
  processTable := fun _ => none
  procs := fun _ => none
  lists := fun _ => []
  queueTable := fun _ => none
  queues := fun _ => none
  semaphoreTable := fun _ => none
  sems := fun _ => none
  timeCount := 0
  symbolsTable := apps
  nextRef := 0
  stamp := 0
  running := 0
  mode := .user
  eax := 0
  trace := []

/-- `__init_idle`. -/
def initIdle : KM Unit := do
  let s ← get
  if "idle" ∉ s.symbolsTable then
    throw (.panic "symbol pas trouvé, a l'aideeeeeeeeee !!!!!!!!\n")
  else
    modify fun s =>
      { s with
        procs := Function.update s.procs s.nextRef
          (some { Process.zeroed with priority := 1 })
        processTable := Function.update s.processTable 0 (some s.nextRef)
        nextRef := s.nextRef + 1 }

/-- `kernel_start`, up to the switch of idle to user mode. -/
def kernelStart : KM Unit := do
  let idle := (← get).nextRef
  initIdle
  start "autotest" 4096 128
  modify fun s => { s with currentPid := 0, running := idle, mode := .user }

/-- `s` is the state `kernel_start` leaves for the given applications. -/
def Booted (apps : List String) (s : KState) : Prop :=
  kernelStart (KState.zeroed apps) = .ok () s

end Nebulea
