import Nebulea.KernelProcess

/-!
# `message_queue.c`: bounded message buffers with blocking calls
-/

namespace Nebulea

/-- `__get_free_fid`. -/
def getFreeFid (s : KState) : Int :=
  firstFree nbQueue s.queueTable

/-- The queue a valid `fid` designates; `none` stands for the test that every
call of this file begins with. -/
def queueOf (s : KState) (fid : Int) : Option QueueRef :=
  if fid < 0 ∨ fid > nbQueue - 1 then none else s.queueTable fid

/-- `index + 1 > capacity - 1 ? 0 : index + 1`. -/
def advance (capacity index : Int) : Int :=
  if index + 1 > capacity - 1 then 0 else index + 1

namespace MessageQueue

/-- Write a message at `head`. -/
def write (q : MessageQueue) (message : Int) : MessageQueue :=
  { q with
    buffer := Function.update q.buffer q.head message
    head := advance q.capacity q.head }

/-- Write a message and count it. -/
def push (q : MessageQueue) (message : Int) : MessageQueue :=
  { q.write message with nbMsg := q.nbMsg + 1 }

/-- Step over the message at `tail`. -/
def skip (q : MessageQueue) : MessageQueue :=
  { q with tail := advance q.capacity q.tail }

/-- Step over a message and discount it. -/
def pop (q : MessageQueue) : MessageQueue :=
  { q.skip with nbMsg := q.nbMsg - 1 }

end MessageQueue

/-- `pcreate`. -/
def pcreate (count : Int) : KM Unit := do
  let s ← get
  let fid := getFreeFid s
  if count ≤ 0 ∨ fid = -1 ∨ count > queueMaxSize then
    ret (-1)
  else do
    let q := s.nextRef
    modify fun s =>
      { s with
        queues := Function.update s.queues q
          (some ⟨fid, count, 0, 0, 0, fun _ => 0⟩)
        queueTable := Function.update s.queueTable fid (some q)
        lists := Function.update s.lists (.queue q) []
        nextRef := s.nextRef + 1 }
    ret fid

/-- Wake up a process because its queue is emptied or deleted. -/
def flushOne (r : ProcRef) : KM Unit := do
  modifyProc r fun p => { p with state := .activable, skipMessage := true }
  queueAdd r .activable

/-- The loop of `pdelete` and `preset` over the blocked processes. -/
def flushAll (q : QueueRef) : KM Unit := do
  let s ← get
  drain (.queue q) flushOne (s.lists (.queue q)).length

/-- `pdelete`. -/
def pdelete (fid : Int) : KM Unit := do
  match queueOf (← get) fid with
  | none => ret (-1)
  | some q => do
      flushAll q
      modify fun s =>
        { s with
          queueTable := Function.update s.queueTable fid none
          queues := Function.update s.queues q none }
      reschedule (.returning 0)

/-- `psend`. -/
def psend (fid message : Int) : KM Unit := do
  match queueOf (← get) fid with
  | none => ret (-1)
  | some q => do
      let p ← entry (← get).currentPid
      modifyProc p fun content => { content with message := message }
      emit (.sending p q message)
      let content ← derefQueue q
      if content.nbMsg = 0 ∧ (← get).lists (.queue q) ≠ [] then do
        modifyQueue q fun content => content.push message
        emit (.put q p message)
        match ← queueOut (.queue q) with
        | none => throw .page
        | some new => do
            activate p
            modifyProc new fun receiver => { receiver with state := .elected }
            let receiver ← derefProc new
            modify fun s => { s with currentPid := receiver.pid }
            virtualCtxSw .handedOver p new
      else if content.nbMsg = content.capacity then do
        modifyProc p fun content => { content with state := .inMsgqueue }
        queueAdd p (.queue q)
        scheduler (.psend p q)
      else do
        modifyQueue q fun content => content.push message
        emit (.put q p message)
        ret 0

/-- `psend` once the blocked sender runs again. -/
def psendTail (p : ProcRef) : KM Unit := do
  let content ← derefProc p
  if content.skipMessage then do
    modifyProc p fun content => { content with skipMessage := false }
    ret (-1)
  else
    ret 0

/-- `if (message) *message = value`. -/
def storeMessage (message : UserPtr) (value : Int) : KM Unit :=
  if message.addr ≠ 0 then storeUser message value else pure ()

/-- `preceive`. -/
def preceive (fid : Int) (message : UserPtr) : KM Unit := do
  match queueOf (← get) fid with
  | none => ret (-1)
  | some q => do
      let p ← entry (← get).currentPid
      let content ← derefQueue q
      if content.nbMsg > 0 then do
        storeMessage message (content.buffer content.tail)
        emit (.take q p (content.buffer content.tail))
        if content.nbMsg = content.capacity ∧
            (← get).lists (.queue q) ≠ [] then do
          match ← queueOut (.queue q) with
          | none => throw .page
          | some sender => do
              let blocked ← derefProc sender
              modifyQueue q fun content => content.skip.write blocked.message
              emit (.put q sender blocked.message)
              activate sender
              reschedule (.returning 0)
        else do
          modifyQueue q fun content => content.pop
          ret 0
      else do
        modifyProc p fun content => { content with state := .inMsgqueue }
        queueAdd p (.queue q)
        scheduler (.preceive p q message)

/-- `preceive` once the blocked receiver runs again. -/
def preceiveTail (p : ProcRef) (q : QueueRef) (message : UserPtr) :
    KM Unit := do
  let receiver ← derefProc p
  if receiver.skipMessage then do
    modifyProc p fun content => { content with skipMessage := false }
    ret (-1)
  else do
    let content ← derefQueue q
    storeMessage message (content.buffer content.tail)
    emit (.take q p (content.buffer content.tail))
    modifyQueue q fun content => content.pop
    ret 0

/-- `preset`. -/
def preset (fid : Int) : KM Unit := do
  match queueOf (← get) fid with
  | none => ret (-1)
  | some q => do
      flushAll q
      modifyQueue q fun content =>
        { content with nbMsg := 0, head := 0, tail := 0 }
      reschedule (.returning 0)

/-- `__nb_waiting_proc`. -/
def nbWaitingProc (s : KState) (q : QueueRef) : Int :=
  (s.lists (.queue q)).length

/-- What `pcount` stores. -/
def pcountValue (s : KState) (q : QueueRef) (content : MessageQueue) : Int :=
  if content.nbMsg = 0 then -nbWaitingProc s q
  else nbWaitingProc s q + content.nbMsg

/-- `pcount`. -/
def pcount (fid : Int) (count : UserPtr) : KM Unit := do
  match queueOf (← get) fid with
  | none => ret (-1)
  | some q => do
      let content ← derefQueue q
      storeMessage count (pcountValue (← get) q content)
      ret 0

end Nebulea
