import Nebulea.KernelState

/-!
# `process.c`: scheduling, creation, end and reaping of processes

A function that ends by giving the processor away takes the code that follows
it as a `Context`.  Memory for new records is assumed to be available, and the
part of `start` that builds the address space is not modelled here.
-/

namespace Nebulea

/-- `__is_valid_pid`. -/
def IsValidPid (s : KState) (pid : Int) : Prop :=
  pid < nbProc ∧ 0 ≤ pid ∧ s.processTable pid ≠ none

instance (s : KState) (pid : Int) : Decidable (IsValidPid s pid) :=
  inferInstanceAs (Decidable (_ ∧ _ ∧ _))

/-- `__get_free_pid`. -/
def getFreePid (s : KState) : Int :=
  firstFree nbProc s.processTable

/-- The first record of a list that has this pid. -/
def KState.findPid (s : KState) (h : Head) (pid : Int) : Option ProcRef :=
  (s.lists h).find? fun r => (s.procs r).map Process.pid == some pid

/-- `p->state = ACTIVABLE` followed by `queue_add` in `activable_list`. -/
def activate (r : ProcRef) : KM Unit := do
  modifyProc r fun p => { p with state := .activable }
  queueAdd r .activable

/-! ## The scheduler -/

/-- `__free_process`. -/
def freeProcess (r : ProcRef) : KM Unit := do
  let p ← derefProc r
  if p.pid = (← get).currentPid then
    throw (.panic "Trying to free the current process")
  else
    modify fun s => { s with procs := Function.update s.procs r none }

/-- The loop of `__free_finished_process` that empties the list. -/
def freeAll : KM Unit := do
  let s ← get
  drain .finished freeProcess (s.lists .finished).length

/-- `__free_finished_process`. -/
def freeFinishedProcess : KM Unit := do
  let s ← get
  match s.findPid .finished s.currentPid with
  | some current => do
      queueDel current
      freeAll
      queueAdd current .finished
  | none => freeAll

/-- One turn of the loop of `__wakeup_process`. -/
def wakeupOne (pid : Int) : KM Unit := do
  let s ← get
  match s.processTable pid with
  | none => pure ()
  | some r => do
      let p ← derefProc r
      if p.state = .asleep ∧ p.wakeupDate ≤ s.timeCount then
        activate r
      else
        pure ()

/-- `__wakeup_process`. -/
def wakeupProcess : KM Unit :=
  (List.range nbProc).forM fun i => wakeupOne i

/-- `virtual_ctx_sw`: the stack of the process on the processor keeps `k`, the
registers go to `old`, and those of `new` are restored. -/
def virtualCtxSw (k : Context) (old new : ProcRef) : KM Unit := do
  modifyProc (← get).running fun p => { p with stack := k }
  modifyProc old fun p => { p with registers := some k }
  let p ← derefProc new
  match p.registers with
  | none => throw .lostContext
  | some restored => do
      modifyProc new fun p => { p with registers := none }
      modify fun s => { s with running := new, mode := .kernel restored }

/-- The `old_process` of `__scheduler`. -/
def oldProcess : KM ProcRef := do
  let s ← get
  match (s.lists .finished).getLast? with
  | some r => pure r
  | none => entry s.currentPid

/-- `__scheduler`. -/
def scheduler (k : Context) : KM Unit := do
  freeFinishedProcess
  wakeupProcess
  match ← queueOut .activable with
  | none => throw .noActivable
  | some new => do
      modifyProc new fun p => { p with state := .elected }
      let old ← oldProcess
      let p ← derefProc new
      modify fun s => { s with currentPid := p.pid }
      let s ← get
      emit (.contextSwitch s.running old (s.lists .finished))
      virtualCtxSw k old new

/-! ## End of a process -/

/-- `__awake_father`. -/
def awakeFather (childPid : Int) : KM Unit := do
  let child ← derefProc (← entry childPid)
  match (← get).findPid .waitingPid child.fatherPid with
  | some father => do
      queueDel father
      modifyProc father fun p => { p with waitedPid := childPid }
      activate father
  | none => pure ()

/-- `__finish_fatherless`. -/
def finishFatherless (pid : Int) : KM Unit := do
  let r ← entry pid
  modifyProc r fun p => { p with state := .finished }
  queueAdd r .finished
  modify fun s =>
    { s with processTable := Function.update s.processTable pid none }

/-- `__remove_from_children`. -/
def removeFromChildren (pid fatherPid : Int) : KM Unit := do
  if fatherPid = -1 then
    pure ()
  else do
    let father ← entry fatherPid
    let p ← derefProc father
    match p.children with
    | none => throw .nullHead
    | some children =>
        match children.find? fun child => child.pid == pid with
        | some child =>
            modifyProc father fun p =>
              { p with children := some (children.erase child) }
        | none => pure ()

/-- `__finish_zombie`. -/
def finishZombie (pid : Int) (retvalp : UserPtr) : KM Unit := do
  let s ← get
  emit (.finishZombie s.currentPid pid
    ((s.processTable pid).bind fun r => (s.procs r).map fun p => (r, p)))
  if retvalp.addr ≠ 0 then
    if retvalp.addr < 0x4000000 then
      throw (.panic "Dirty hacker stopped")
    else do
      let p ← derefProc (← entry pid)
      storeUser retvalp p.retval
  removeFromChildren pid s.currentPid
  finishFatherless pid

/-- One turn of the loop of `__process_end` over the children. -/
def orphan (child : Child) : KM Unit := do
  let r ← entry child.pid
  modifyProc r fun p => { p with fatherPid := -1 }
  let p ← derefProc r
  if p.state = .zombie then finishFatherless child.pid else pure ()

/-- `__process_end`, where `after` is what the caller does next when the
process that ended is not the current one. -/
def processEnd (pid : Int) (k : Context) (after : KM Unit) : KM Unit := do
  let ending ← entry pid
  let p ← derefProc ending
  if p.fatherPid ≠ -1 then do
    modifyProc ending fun p => { p with state := .zombie }
    awakeFather pid
  else
    finishFatherless pid
  match p.children with
  | none => throw .nullHead
  | some children => children.forM orphan
  if pid = (← get).currentPid then scheduler k else after

/-! ## System calls -/

/-- What remains of `start` once the new process has been inserted. -/
def startTail (r : ProcRef) : KM Unit := do
  modifyProc r fun p => { p with skipMessage := false }
  let p ← derefProc r
  ret p.pid

/-- `start`, less the construction of the address space. -/
def start (name : String) (ssize : Nat) (prio : Int) : KM Unit := do
  let s ← get
  let pid := getFreePid s
  if ssize > 0x10000000 then
    ret (-1)
  else if name ∉ s.symbolsTable then
    throw (.panic "symbol pas trouvé, a l'aideeeeeeeeee !!!!!!!!\n")
  else if pid = -1 ∨ prio > maxPrio then
    ret (-1)
  else do
    let r := s.nextRef
    modify fun s =>
      { s with
        procs := Function.update s.procs r
          (some { Process.zeroed with
            pid := pid
            priority := prio
            fatherPid := s.currentPid
            children := some []
            registers := some .fresh })
        processTable := Function.update s.processTable pid (some r)
        nextRef := s.nextRef + 1 }
    if s.currentPid ≠ -1 then
      let father ← entry s.currentPid
      let p ← derefProc father
      match p.children with
      | none => throw .nullHead
      | some children =>
          modifyProc father fun p =>
            { p with children := some (addChild ⟨pid, 1⟩ children) }
    if 0 ≤ s.currentPid then do
      let old ← entry s.currentPid
      let current ← derefProc old
      if prio > current.priority then do
        activate old
        modifyProc r fun p => { p with state := .elected }
        modify fun s => { s with currentPid := pid }
        virtualCtxSw (.start r) old r
      else do
        activate r
        startTail r
    else do
      activate r
      startTail r

/-- `getprio`. -/
def getprio (pid : Int) : KM Unit := do
  if ¬ IsValidPid (← get) pid then
    ret (-1)
  else do
    let p ← derefProc (← entry pid)
    if p.state = .zombie then ret (-1) else ret p.priority

/-- `getpid`. -/
def getpid : KM Unit := do
  ret (← get).currentPid

/-- The loops of `__get_queue`: the first list, among the `waiting_process`
fields of the records of a table, in which `pid` is found. -/
def findHead (s : KState) (pid : Int) (size : Nat)
    (table : Int → Option Nat) (head : Nat → Head) : Option Head :=
  (List.range size).findSome? fun i : Nat =>
    match table i with
    | some x => if (s.findPid (head x) pid).isSome then some (head x) else none
    | none => none

/-- `__get_queue`. -/
def getQueue (s : KState) (p : Process) : Option Head :=
  match p.state with
  | .activable => some .activable
  | .waitingPid => some .waitingPid
  | .inMsgqueue => findHead s p.pid nbQueue s.queueTable .queue
  | .inSem => findHead s p.pid nbSemaphore s.semaphoreTable .sem
  | _ => none

/-- The current process becomes activable and the scheduler chooses again. -/
def reschedule (k : Context) : KM Unit := do
  activate (← entry (← get).currentPid)
  scheduler k

/-- `chprio`. -/
def chprio (pid newprio : Int) : KM Unit := do
  if ¬ IsValidPid (← get) pid ∨ newprio > maxPrio ∨ newprio ≤ 0 ∨ pid = 0 then
    ret (-1)
  else do
    let r ← entry pid
    let p ← derefProc r
    if p.state = .zombie ∨ p.state = .finished then
      ret (-1)
    else do
      if p.link ≠ none then
        match getQueue (← get) p with
        | none => throw (.assertion "queue != NULL")
        | some queue => do
            queueDel r
            modifyProc r fun p => { p with priority := newprio }
            queueAdd r queue
      else
        modifyProc r fun p => { p with priority := newprio }
      reschedule (.returning p.priority)

/-- `wait_clock`. -/
def waitClock (wakeup : Nat) : KM Unit := do
  let current ← entry (← get).currentPid
  modifyProc current fun p =>
    { p with state := .asleep, wakeupDate := wakeup }
  scheduler (.returning 0)

/-- `exit`. -/
def exit (retval : Int) : KM Unit := do
  let s ← get
  let current ← entry s.currentPid
  modifyProc current fun p => { p with retval := retval }
  emit (.exited current retval)
  processEnd s.currentPid .exiting (throw .endlessLoop)

/-- `kill`. -/
def kill (pid : Int) : KM Unit := do
  if ¬ IsValidPid (← get) pid ∨ pid = 0 then
    ret (-1)
  else do
    let r ← entry pid
    let p ← derefProc r
    if p.state = .zombie then
      ret (-1)
    else do
      if p.link ≠ none then
        queueDel r
        if p.state = .inSem then
          match (← get).semaphoreTable p.waitedSem with
          | none => throw .page
          | some x =>
              modifySem x fun sem => { sem with count := short (sem.count + 1) }
      modifyProc r fun p => { p with retval := 0 }
      emit (.killed r)
      processEnd pid (.returning 0) (ret 0)

/-- The loop of `waitpid` that looks for an ended child. -/
def firstZombie : List Child → KM (Option Child)
  | [] => pure none
  | child :: others => do
      let p ← derefProc (← entry child.pid)
      if p.state = .zombie then pure (some child) else firstZombie others

/-- The part of `waitpid` that blocks the caller. -/
def awaitChild (pid : Int) (retvalp : UserPtr) : KM Unit := do
  let current ← entry (← get).currentPid
  modifyProc current fun p => { p with state := .waitingPid }
  queueAdd current .waitingPid
  scheduler (.waitpid pid retvalp)

/-- `waitpid`. -/
def waitpid (pid : Int) (retvalp : UserPtr) : KM Unit := do
  if retvalp.addr ≠ 0 ∧ retvalp.addr < 0x4000000 then
    ret (-1)
  else if pid ≥ nbProc then
    ret (-1)
  else if pid < 0 then do
    let p ← derefProc (← entry (← get).currentPid)
    match p.children with
    | none => throw .nullHead
    | some children =>
        if children = [] then
          ret (-1)
        else
          match ← firstZombie children with
          | some child => do
              finishZombie child.pid retvalp
              ret child.pid
          | none => awaitChild pid retvalp
  else
    match (← get).processTable pid with
    | none => ret (-1)
    | some r => do
        let p ← derefProc r
        if p.fatherPid ≠ (← get).currentPid then
          ret (-1)
        else if p.state = .zombie then do
          finishZombie pid retvalp
          ret pid
        else
          awaitChild pid retvalp

/-- `waitpid` once the caller has been woken up. -/
def waitpidTail (pid : Int) (retvalp : UserPtr) : KM Unit := do
  if pid < 0 then do
    let p ← derefProc (← entry (← get).currentPid)
    finishZombie p.waitedPid retvalp
    ret p.waitedPid
  else do
    finishZombie pid retvalp
    ret pid

/-- `tic_PIT`, less what it prints. -/
def ticPIT : KM Unit := do
  modify fun s => { s with timeCount := (s.timeCount + 1) % 0x100000000 }
  let s ← get
  if s.timeCount % schedFreq = 0 then do
    let old ← entry s.currentPid
    let p ← derefProc old
    if p.state = .elected then
      activate old
    scheduler .interrupted
  else
    modify fun s => { s with mode := .user }

end Nebulea
