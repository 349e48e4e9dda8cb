import Nebulea.KernelProcess

/-!
# `semaphore.c`: counting semaphores with a 16-bit counter
-/

namespace Nebulea

/-- `__get_free_sem`. -/
def getFreeSem (s : KState) : Int :=
  firstFree nbSemaphore s.semaphoreTable

/-- The semaphore a valid identifier designates; `none` stands for the test
that every call of this file begins with. -/
def semOf (s : KState) (sem : Int) : Option SemRef :=
  if sem < 0 ∨ sem > nbSemaphore - 1 then none else s.semaphoreTable sem

/-- `screate`. -/
def screate (count : Int) : KM Unit := do
  let s ← get
  let sid := getFreeSem s
  if count < 0 ∨ sid = -1 then
    ret (-1)
  else do
    let x := s.nextRef
    modify fun s =>
      { s with
        sems := Function.update s.sems x (some ⟨sid, count, false, false⟩)
        semaphoreTable := Function.update s.semaphoreTable sid (some x)
        lists := Function.update s.lists (.sem x) []
        nextRef := s.nextRef + 1 }
    ret sid

/-- The loop of `sdelete` and `sreset` over the blocked processes. -/
def releaseAll (x : SemRef) : KM Unit := do
  let s ← get
  drain (.sem x) activate (s.lists (.sem x)).length

/-- `__nb_waiting_proc2`. -/
def nbWaitingProc2 (sem : Int) : KM Nat := do
  let s ← get
  match s.semaphoreTable sem with
  | none => throw .page
  | some x => pure (s.lists (.sem x)).length

/-- `sdelete`. -/
def sdelete (sem : Int) : KM Unit := do
  match semOf (← get) sem with
  | none => ret (-1)
  | some x => do
      releaseAll x
      modify fun s =>
        { s with semaphoreTable := Function.update s.semaphoreTable sem none }
      -- the table entry is already null when the waiting processes are counted
      let waiting ← nbWaitingProc2 sem
      if waiting = 0 then
        modify fun s => { s with sems := Function.update s.sems x none }
      else
        modifySem x fun content => { content with wasDeleted := true }
      reschedule (.returning 0)

/-- `s->count++`. -/
def increment (x : SemRef) : KM Unit := do
  modifySem x fun content => { content with count := short (content.count + 1) }
  emit (.signalled x)

/-- Hand a unit to the first blocked process. -/
def wakeWaiter (x : SemRef) : KM Unit := do
  match ← queueOut (.sem x) with
  | none => throw .page
  | some p => do
      emit (.granted x p)
      activate p

/-- `signal`. -/
def signal (sem : Int) : KM Unit := do
  match semOf (← get) sem with
  | none => ret (-1)
  | some x => do
      if (← derefSem x).count ≥ semaphoreMaxSize then
        ret (-2)
      else do
        increment x
        if (← derefSem x).count ≤ 0 then do
          modifySem x fun content => { content with wasReset := false }
          wakeWaiter x
          reschedule (.returning 0)
        else
          ret 0

/-- One turn of the loop of `signaln`. -/
def signalOnce (x : SemRef) : KM Unit := do
  increment x
  if (← derefSem x).count ≤ 0 then wakeWaiter x

/-- The loop of `signaln`. -/
def signalLoop (x : SemRef) : Nat → KM Unit
  | 0 => pure ()
  | turns + 1 => do
      signalOnce x
      signalLoop x turns

/-- `signaln`. -/
def signaln (sem count : Int) : KM Unit := do
  match semOf (← get) sem with
  | none => ret (-1)
  | some x => do
      if count < 0 then
        ret (-2)
      else if (← derefSem x).count + count > semaphoreMaxSize then
        ret (-2)
      else do
        modifySem x fun content => { content with wasReset := false }
        signalLoop x count.toNat
        reschedule (.returning 0)

/-- `s->count--`. -/
def decrement (x : SemRef) : KM Unit :=
  modifySem x fun content => { content with count := short (content.count - 1) }

/-- `try_wait`. -/
def tryWait (sem : Int) : KM Unit := do
  match semOf (← get) sem with
  | none => ret (-1)
  | some x => do
      let content ← derefSem x
      if content.count = -semaphoreMaxSize then
        ret (-2)
      else if content.count > 0 then do
        decrement x
        emit (.granted x (← get).running)
        ret 0
      else
        ret (-3)

/-- `wait`. -/
def wait (sem : Int) : KM Unit := do
  match semOf (← get) sem with
  | none => ret (-1)
  | some x => do
      if (← derefSem x).count ≤ -semaphoreMaxSize then
        ret (-2)
      else do
        decrement x
        if (← derefSem x).count < 0 then do
          let current ← entry (← get).currentPid
          modifyProc current fun p =>
            { p with state := .inSem, waitedSem := sem }
          queueAdd current (.sem x)
          scheduler (.wait x)
        else do
          emit (.granted x (← get).running)
          ret 0

/-- `wait` once the blocked process runs again. -/
def waitTail (x : SemRef) : KM Unit := do
  let content ← derefSem x
  if content.wasDeleted then do
    modify fun s => { s with sems := Function.update s.sems x none }
    ret (-3)
  else if content.wasReset then
    ret (-4)
  else
    ret 0

/-- `sreset`. -/
def sreset (sem count : Int) : KM Unit := do
  match semOf (← get) sem with
  | none => ret (-1)
  | some x => do
      if count < 0 then
        ret (-1)
      else do
        releaseAll x
        modifySem x fun content =>
          { content with count := count, wasReset := true }
        emit (.reset x)
        reschedule (.returning 0)

/-- `scount`. -/
def scount (sem : Int) : KM Unit := do
  match semOf (← get) sem with
  | none => ret (-1)
  | some x => do
      ret ((← derefSem x).count % 0x10000)

end Nebulea
