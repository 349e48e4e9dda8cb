import Nebulea.KernelStep
import Nebulea.LabelledPath

/-!
# The moves of the kernel

Every kernel entry is a sequence of moves between states in which no record is
half updated: a process changes its state together with the list it is chained
in, a semaphore its counter together with its waiting list.  The moves are the
labels of a labelled system; `KernelStepMoves` shows that the code performs
them, and the properties of runs are proved on them.
-/

namespace Nebulea

/-- A process that has not ended. -/
def Process.Living (p : Process) : Prop :=
  p.state ≠ .zombie ∧ p.state ≠ .finished

instance (p : Process) : Decidable p.Living :=
  inferInstanceAs (Decidable (_ ∧ _))

/-- The mode in which a receiver that was blocked continues. -/
def Mode.Receiving : Mode → Prop
  | .kernel (.preceive _ _ _) => True
  | _ => False

namespace KState

/-- The lists after `r` has left `source` and then entered `target`. -/
def relinkLists (s : KState) (r : ProcRef) (p : Process)
    (source target : Option Head) : Head → List ProcRef :=
  let unchained := match source with
    | some h => Function.update s.lists h ((s.lists h).erase r)
    | none => s.lists
  match target with
  | some h =>
      Function.update unchained h
        ((unchained h).orderedInsert (fun first second =>
          (s.setProc r p).prio first ≤ (s.setProc r p).prio second) r)
  | none => unchained

/-- Give record `r` the content `p` and move it from one list to another. -/
@[simps]
def relink (s : KState) (r : ProcRef) (p : Process)
    (source target : Option Head) : KState :=
  { s with
    procs := Function.update s.procs r
      (some { p with
        link := target
        stamp := if target = none then p.stamp else s.stamp })
    lists := s.relinkLists r p source target
    stamp := if target = none then s.stamp else s.stamp + 1 }

/-- The record becomes activable. -/
@[simps!]
def wake (s : KState) (r : ProcRef) (p : Process) (source : Option Head) :
    KState :=
  s.relink r { p with state := .activable } source (some .activable)

/-- The first half of `virtual_ctx_sw`. -/
@[simps]
def save (s : KState) (k : Context) (old : ProcRef) : KState :=
  { s with
    procs := fun x => (s.procs x).map fun p =>
      { p with
        stack := if x = s.running then k else p.stack
        registers := if x = old then some k else p.registers } }

/-- The second half of `virtual_ctx_sw`. -/
@[simps]
def load (s : KState) (new : ProcRef) (restored : Context) : KState :=
  { s with
    procs := fun x => (s.procs x).map fun p =>
      { p with registers := if x = new then none else p.registers }
    running := new
    mode := .kernel restored }

/-- Release the finished records other than `keep`, which is chained again. -/
@[simps]
def purge (s : KState) (keep : Option ProcRef) : KState :=
  { s with
    procs := fun x =>
      if x ∈ s.lists .finished then
        if keep = some x then
          (s.procs x).map fun p =>
            { p with link := some .finished, stamp := s.stamp }
        else none
      else s.procs x
    lists := Function.update s.lists .finished keep.toList
    stamp := if keep = none then s.stamp else s.stamp + 1 }

/-- The record leaves the process table and waits for its release. -/
@[simps!]
def finish (s : KState) (pid : Int) (r : ProcRef) (p : Process)
    (source : Option Head) : KState :=
  { s.relink r { p with state := .finished } source (some .finished) with
    processTable := Function.update s.processTable pid none }

/-- One unit of the semaphore `p` waited for comes back when `p` is killed. -/
@[simps]
def giveBack (s : KState) (p : Process) : KState :=
  { s with
    sems :=
      if p.state = .inSem then
        match s.semaphoreTable p.waitedSem with
        | some x =>
            match s.sems x with
            | some content =>
                Function.update s.sems x
                  (some { content with count := short (content.count + 1) })
            | none => s.sems
        | none => s.sems
      else s.sems }

/-- The record `start` fills, in no list yet. -/
def created (s : KState) (pid prio : Int) : Process :=
  { Process.zeroed with
    pid := pid
    priority := prio
    fatherPid := s.currentPid
    children := some []
    registers := some .fresh }

/-- A new process, and its entry in the children of the running one. -/
@[simps]
def adopt (s : KState) (pid prio : Int) (p : Process)
    (children : List Child) : KState :=
  { s with
    procs := Function.update
      (Function.update s.procs s.nextRef (some (s.created pid prio)))
      s.running
      (some { p with children := some (addChild ⟨pid, 1⟩ children) })
    processTable := Function.update s.processTable pid (some s.nextRef)
    nextRef := s.nextRef + 1 }

/-- The processes of a semaphore become activable, the first of them first. -/
def release (s : KState) (x : SemRef) : List ProcRef → KState
  | [] => s
  | r :: others =>
      match s.procs r with
      | some p => (s.wake r p (some (.sem x))).release x others
      | none => s.release x others

/-- `r` is on the processor and elected, with record `p`. -/
def OnCpu (s : KState) (p : Process) : Prop :=
  s.procs s.running = some p ∧ p.state = .elected

/-- The process on the processor has still to learn that its message queue was
emptied or deleted. -/
def Skipping (s : KState) : Prop :=
  ∃ k p, s.mode = .kernel k ∧ s.procs s.running = some p ∧
    p.skipMessage = true

/-- No process sleeps past its date. -/
def Punctual (s : KState) : Prop :=
  ∀ r p, s.procs r = some p → p.state = .asleep → s.timeCount < p.wakeupDate

/-- The `old_process` that `__scheduler` computes. -/
def OldProcess (s : KState) (old : ProcRef) : Prop :=
  (s.lists .finished).getLast? = some old ∨
    s.lists .finished = [] ∧ s.processTable s.currentPid = some old

/-- What the record of the process on the processor looks like when it calls
`__scheduler` with continuation `k`. -/
def Fits (s : KState) (p : Process) : Context → Prop
  | .psend r q =>
      r = s.running ∧ p.state = .inMsgqueue ∧ p.link = some (.queue q) ∧
        ∃ content, s.queues q = some content ∧ content.nbMsg = content.capacity
  | .preceive r q _ =>
      r = s.running ∧ p.state = .inMsgqueue ∧ p.link = some (.queue q) ∧
        ∃ content, s.queues q = some content ∧ ¬ 0 < content.nbMsg
  | .wait x => p.state = .inSem ∧ p.link = some (.sem x)
  | .waitpid pid _ =>
      p.state = .waitingPid ∧
        (0 ≤ pid → ∃ r child, s.processTable pid = some r ∧
          s.procs r = some child ∧ child.fatherPid = p.pid)
  | .returning _ =>
      p.state = .activable ∨ p.state = .asleep ∨ p.state = .zombie ∨
        p.state = .finished
  | .interrupted => p.state = .activable
  | .exiting => p.state = .zombie ∨ p.state = .finished
  | _ => False

end KState

/-- Events that no counter or buffer depends on. -/
def Event.Neutral : Event → Prop
  | .finishZombie _ _ _ | .store _ _ => True
  | _ => False

/-- Who ended a process, as it is recorded. -/
inductive Ending where
  | exit (retval : Int)
  | kill

namespace Ending

def event (r : ProcRef) : Ending → Event
  | .exit retval => .exited r retval
  | .kill => .killed r

def retval : Ending → Int
  | .exit retval => retval
  | .kill => 0

end Ending

/-- The labels.  Records that a move reads are part of it. -/
inductive Move where
  | settle (mode : Mode) (eax : Int)
  | fault
  | note (e : Event)
  | tick
  | yield (p : Process)
  | sleep (p : Process) (wakeup : Nat)
  | awaitChild (p : Process)
  | awaitSend (p : Process) (fid : Int) (q : QueueRef) (message : Int)
  | awaitReceive (p : Process) (fid : Int) (q : QueueRef)
  | awaitSem (p : Process) (sem : Int) (x : SemRef) (content : Semaphore)
  | purge (keep : Option ProcRef)
  | wakeSleeper (r : ProcRef) (p : Process)
  | dispatch (k : Context) (r : ProcRef) (p : Process) (old : ProcRef)
      (restored : Context)
  | create (pid prio : Int) (p : Process) (children : List Child)
  | createElect (pid prio : Int) (p : Process) (children : List Child)
  | endProcess (pid : Int) (r : ProcRef) (p : Process) (how : Ending)
      (father : Option (ProcRef × Process))
  | endFatherless (pid : Int) (r : ProcRef) (p : Process) (how : Ending)
  | orphan (r : ProcRef) (p : Process)
  | finish (pid : Int) (r : ProcRef) (p : Process)
  | reap (pid : Int) (r : ProcRef) (p caller : Process)
      (children : List Child)
  | reprio (r : ProcRef) (p : Process) (newprio : Int)
  | clearSkip (r : ProcRef) (p : Process)
  | refuse (r : ProcRef) (p : Process)
  | newQueue (fid capacity : Int)
  | flush (r : ProcRef) (p : Process) (q : QueueRef)
  | deleteQueue (fid : Int) (q : QueueRef)
  | resetQueue (q : QueueRef) (content : MessageQueue)
  | put (q : QueueRef) (content : MessageQueue) (p : Process) (message : Int)
  | take (q : QueueRef) (content : MessageQueue)
  | refill (q : QueueRef) (content : MessageQueue) (r : ProcRef) (p : Process)
  | handOver (q : QueueRef) (content : MessageQueue) (message : Int)
      (sender : Process) (r : ProcRef) (p : Process) (restored : Context)
  | receive (r : ProcRef) (q : QueueRef) (content : MessageQueue)
  | newSem (sem count : Int)
  | acquire (x : SemRef) (content : Semaphore)
  | post (x : SemRef) (content : Semaphore)
  | postWake (x : SemRef) (content : Semaphore) (r : ProcRef) (p : Process)
      (clear : Bool)
  | clearReset (x : SemRef) (content : Semaphore)
  | resetSem (x : SemRef) (content : Semaphore) (count : Int)
  | deleteSem (sem : Int) (x : SemRef)

namespace KState

/-- `q` is the record of an existing queue. -/
def HasQueue (s : KState) (q : QueueRef) (content : MessageQueue) : Prop :=
  (∃ fid, s.queueTable fid = some q) ∧ s.queues q = some content

/-- `x` is the record of an existing semaphore. -/
def HasSem (s : KState) (x : SemRef) (content : Semaphore) : Prop :=
  (∃ sem, s.semaphoreTable sem = some x) ∧ s.sems x = some content

/-- `r`, with record `p`, is the next process `queue_out` takes from `h`. -/
def NextOut (s : KState) (h : Head) (r : ProcRef) (p : Process) : Prop :=
  (s.lists h).getLast? = some r ∧ s.procs r = some p

/-- `r`, with record `p`, is the process of this pid. -/
def HasPid (s : KState) (pid : Int) (r : ProcRef) (p : Process) : Prop :=
  s.processTable pid = some r ∧ s.procs r = some p

/-- The father that a process ending in `s` wakes up. -/
def WokenFather (s : KState) (r : ProcRef) (p : Process) :
    Option (ProcRef × Process) → Prop
  | some (f, father) =>
      f ≠ r ∧ s.procs f = some father ∧ father.link = some .waitingPid ∧
        father.pid = p.fatherPid
  | none =>
      ∀ f father, f ≠ r → s.procs f = some father →
        father.link = some .waitingPid → father.pid ≠ p.fatherPid

end KState

namespace Move

/-- The condition under which a move applies. -/
def Guard : Move → KState → Prop
  | .settle mode _, s => mode = .user ∧ ¬ s.mode.Receiving ∧ ¬ s.Skipping
  | .fault, s => ¬ s.Skipping
  | .note e, _ => e.Neutral
  | .tick, _ => True
  | .yield p, s => s.OnCpu p
  | .sleep p _, s => s.OnCpu p
  | .awaitChild p, s => s.OnCpu p
  | .awaitSend p fid q _, s | .awaitReceive p fid q, s =>
      s.OnCpu p ∧ 0 ≤ fid ∧ fid < nbQueue ∧ s.queueTable fid = some q
  | .awaitSem p sem x content, s =>
      s.mode = .user ∧ s.OnCpu p ∧ 0 ≤ sem ∧ sem < nbSemaphore ∧
        s.semaphoreTable sem = some x ∧ s.sems x = some content ∧
        -semaphoreMaxSize < content.count ∧ content.count ≤ 0
  | .purge keep, s =>
      keep = s.findPid .finished s.currentPid ∧
        ∀ x ∈ s.lists .finished, keep ≠ some x → ∀ p, s.procs x = some p →
          p.pid ≠ s.currentPid
  | .wakeSleeper r p, s =>
      s.procs r = some p ∧ p.state = .asleep ∧ p.wakeupDate ≤ s.timeCount ∧
        ∃ current, s.procs s.running = some current ∧ current.state ≠ .elected
  | .dispatch k r p old restored, s =>
      (∀ context, s.mode ≠ .kernel context) ∧ s.NextOut .activable r p ∧
        s.OldProcess old ∧ (∃ content, s.procs old = some content) ∧
        (∀ x ∈ s.lists .finished, ∀ content, s.procs x = some content →
          content.pid = s.currentPid) ∧
        (∃ content, s.procs s.running = some content ∧
          content.state ≠ .elected ∧ s.Fits content k) ∧
        (if r = old then some k else p.registers) = some restored ∧ s.Punctual
  | .create pid prio p children, s =>
      s.mode = .user ∧ s.OnCpu p ∧ s.processTable s.currentPid = some s.running ∧
        p.children = some children ∧ 0 ≤ pid ∧ pid < nbProc ∧
        s.processTable pid = none ∧ prio ≤ p.priority
  | .createElect pid prio p children, s =>
      s.mode = .user ∧ s.OnCpu p ∧ s.processTable s.currentPid = some s.running ∧
        p.children = some children ∧ 0 ≤ pid ∧ pid < nbProc ∧
        s.processTable pid = none ∧ p.priority < prio
  | .endProcess pid r p _ father, s =>
      s.HasPid pid r p ∧ p.Living ∧ p.fatherPid ≠ -1 ∧
        (∃ content, s.OnCpu content) ∧ s.WokenFather r p father
  | .endFatherless pid r p _, s =>
      s.HasPid pid r p ∧ p.Living ∧ p.fatherPid = -1 ∧
        ∃ content, s.OnCpu content
  | .orphan r p, s =>
      s.procs r = some p ∧ p.state ≠ .finished ∧
        ∀ x content, s.procs x = some content → content.Living →
          content.pid ≠ p.fatherPid
  | .finish pid r p, s =>
      s.HasPid pid r p ∧ p.state = .zombie ∧ p.fatherPid = -1 ∧
        r ≠ s.running
  | .reap pid r p caller children, s =>
      ¬ s.mode.Receiving ∧ ¬ s.Skipping ∧ s.HasPid pid r p ∧ p.link = none ∧
        p.fatherPid = s.currentPid ∧ r ≠ s.running ∧ s.OnCpu caller ∧
        ∃ before, caller.children = some before ∧ children.Sublist before ∧
          (∀ child ∈ children, child.pid ≠ pid) ∧
          ∀ child ∈ before, child.pid ≠ pid → child ∈ children
  | .reprio r p newprio, s =>
      s.procs r = some p ∧ p.Living ∧ p.pid ≠ 0 ∧ 0 < newprio ∧
        newprio ≤ maxPrio
  | .clearSkip r p, s => s.procs r = some p
  | .refuse r p, s =>
      s.procs r = some p ∧ p.skipMessage = true ∧
        ((∃ q, s.mode = .kernel (.psend r q)) ∨
          ∃ q message, s.mode = .kernel (.preceive r q message))
  | .newQueue fid capacity, s =>
      0 ≤ fid ∧ fid < nbQueue ∧ s.queueTable fid = none ∧ 0 < capacity
  | .flush r p q, s =>
      s.NextOut (.queue q) r p ∧ (∃ fid, s.queueTable fid = some q) ∧
        ∃ content, s.OnCpu content
  | .deleteQueue fid q, s =>
      s.queueTable fid = some q ∧ s.lists (.queue q) = []
  | .resetQueue q content, s =>
      s.HasQueue q content ∧ s.lists (.queue q) = []
  | .put q content p _, s =>
      s.HasQueue q content ∧ s.mode = .user ∧ s.OnCpu p ∧
        ¬ (content.nbMsg = 0 ∧ s.lists (.queue q) ≠ []) ∧
        content.nbMsg ≠ content.capacity
  | .take q content, s =>
      s.HasQueue q content ∧ s.mode = .user ∧ 0 < content.nbMsg ∧
        ¬ (content.nbMsg = content.capacity ∧ s.lists (.queue q) ≠ [])
  | .refill q content r p, s =>
      s.HasQueue q content ∧ s.mode = .user ∧ 0 < content.nbMsg ∧
        content.nbMsg = content.capacity ∧ s.NextOut (.queue q) r p
  | .handOver q content _ sender r p restored, s =>
      s.HasQueue q content ∧ s.mode = .user ∧ content.nbMsg = 0 ∧
        s.NextOut (.queue q) r p ∧ s.OnCpu sender ∧
        p.registers = some restored
  | .receive r q content, s =>
      s.queues q = some content ∧
        (∃ message, s.mode = .kernel (.preceive r q message)) ∧
        ∃ p, s.procs r = some p ∧ p.skipMessage = false
  | .newSem sem count, s =>
      0 ≤ sem ∧ sem < nbSemaphore ∧ s.semaphoreTable sem = none ∧
        0 ≤ count ∧ count ≤ semaphoreMaxSize
  | .acquire x content, s => s.HasSem x content ∧ 0 < content.count
  | .post x content, s =>
      s.HasSem x content ∧ 0 ≤ content.count ∧
        content.count < semaphoreMaxSize
  | .postWake x content r p _, s =>
      s.HasSem x content ∧ content.count < 0 ∧ s.NextOut (.sem x) r p
  | .clearReset x content, s => s.HasSem x content
  | .resetSem x content count, s =>
      s.HasSem x content ∧ 0 ≤ count ∧ count ≤ semaphoreMaxSize
  | .deleteSem sem x, s => s.semaphoreTable sem = some x

/-- The state a move leads to. -/
def effect : Move → KState → KState
  | .settle mode eax, s => { s with mode := mode, eax := eax }
  | .fault, s => { s with mode := .pageFault }
  | .note e, s => s.note e
  | .tick, s => { s with timeCount := (s.timeCount + 1) % 0x100000000 }
  | .yield p, s => s.wake s.running p none
  | .sleep p wakeup, s =>
      s.setProc s.running { p with state := .asleep, wakeupDate := wakeup }
  | .awaitChild p, s =>
      s.relink s.running { p with state := .waitingPid } none
        (some .waitingPid)
  | .awaitSend p _ q message, s =>
      (s.note (.sending s.running q message)).relink s.running
        { p with message := message, state := .inMsgqueue } none
        (some (.queue q))
  | .awaitReceive p _ q, s =>
      s.relink s.running { p with state := .inMsgqueue } none
        (some (.queue q))
  | .awaitSem p sem x content, s =>
      (s.setSem x { content with count := short (content.count - 1) }).relink
        s.running { p with state := .inSem, waitedSem := sem } none
        (some (.sem x))
  | .purge keep, s => s.purge keep
  | .wakeSleeper r p, s => s.wake r p none
  | .dispatch k r p old restored, s =>
      (({ s.relink r { p with state := .elected } (some .activable) none with
          currentPid := p.pid }.note
        (.contextSwitch s.running old (s.lists .finished))).save k old).load
          r restored
  | .create pid prio p children, s =>
      (s.adopt pid prio p children).wake s.nextRef (s.created pid prio) none
  | .createElect pid prio p children, s =>
      ({ (s.adopt pid prio p children).wake s.running
          { p with children := some (addChild ⟨pid, 1⟩ children) } none with
          currentPid := pid }.save (.start s.nextRef) s.running).load
        s.nextRef .fresh
  | .endProcess pid r p how father, s =>
      let ended := ((s.giveBack p).relink r
        { p with retval := how.retval, state := .zombie } p.link none).note
          (how.event r)
      match father with
      | some (f, father) =>
          ended.wake f { father with waitedPid := pid } (some .waitingPid)
      | none => ended
  | .endFatherless pid r p how, s =>
      ((s.giveBack p).finish pid r { p with retval := how.retval } p.link).note
        (how.event r)
  | .orphan r p, s => s.setProc r { p with fatherPid := -1 }
  | .finish pid r p, s => s.finish pid r p none
  | .reap pid r p caller children, s =>
      { (s.setProc s.running { caller with children := some children }).finish
          pid r p none with
        mode := .user
        eax := pid }
  | .reprio r p newprio, s =>
      s.relink r { p with priority := newprio } p.link p.link
  | .clearSkip r p, s => s.setProc r { p with skipMessage := false }
  | .refuse r p, s =>
      { s.setProc r { p with skipMessage := false } with
        mode := .user
        eax := -1 }
  | .newQueue fid capacity, s =>
      { s with
        queues := Function.update s.queues s.nextRef
          (some ⟨fid, capacity, 0, 0, 0, fun _ => 0⟩)
        queueTable := Function.update s.queueTable fid (some s.nextRef)
        lists := Function.update s.lists (.queue s.nextRef) []
        nextRef := s.nextRef + 1 }
  | .flush r p q, s =>
      s.wake r { p with skipMessage := true } (some (.queue q))
  | .deleteQueue fid q, s =>
      { s with
        queueTable := Function.update s.queueTable fid none
        queues := Function.update s.queues q none }
  | .resetQueue q content, s =>
      s.setQueue q { content with nbMsg := 0, head := 0, tail := 0 }
  | .put q content p message, s =>
      (((s.setProc s.running { p with message := message }).note
        (.sending s.running q message)).setQueue q
          (content.push message)).note (.put q s.running message)
  | .take q content, s =>
      (s.note (.take q s.running (content.buffer content.tail))).setQueue q
        content.pop
  | .refill q content r p, s =>
      (((s.note (.take q s.running (content.buffer content.tail))).setQueue q
        (content.skip.write p.message)).note (.put q r p.message)).wake r p
          (some (.queue q))
  | .handOver q content message sender r p restored, s =>
      ({ ((((s.note (.sending s.running q message)).setQueue q
            (content.push message)).note (.put q s.running message)).relink r
              { p with state := .elected } (some (.queue q)) none).wake
                s.running { sender with message := message } none with
          currentPid := p.pid }.save .handedOver s.running).load r restored
  | .receive r q content, s =>
      { (s.note (.take q r (content.buffer content.tail))).setQueue q
          content.pop with
        mode := .user
        eax := 0 }
  | .newSem sem count, s =>
      { s with
        sems := Function.update s.sems s.nextRef
          (some ⟨sem, count, false, false⟩)
        semaphoreTable := Function.update s.semaphoreTable sem (some s.nextRef)
        lists := Function.update s.lists (.sem s.nextRef) []
        nextRef := s.nextRef + 1 }
  | .acquire x content, s =>
      (s.setSem x { content with count := short (content.count - 1) }).note
        (.granted x s.running)
  | .post x content, s =>
      (s.setSem x { content with count := short (content.count + 1) }).note
        (.signalled x)
  | .postWake x content r p clear, s =>
      (((s.setSem x
        { content with
          count := short (content.count + 1)
          wasReset := content.wasReset && !clear }).note
            (.signalled x)).note (.granted x r)).wake r p (some (.sem x))
  | .clearReset x content, s =>
      s.setSem x { content with wasReset := false }
  | .resetSem x content count, s =>
      ((s.release x (s.lists (.sem x)).reverse).setSem x
        { content with count := count, wasReset := true }).note (.reset x)
  | .deleteSem sem x, s =>
      let released := s.release x (s.lists (.sem x)).reverse
      { released with
        semaphoreTable := Function.update released.semaphoreTable sem none }

end Move

/-- Moves that may be taken in any step. -/
def Move.Plain : Move → Prop
  | .fault | .note (.finishZombie _ _ _) | .note (.store _ _) | .tick
  | .sleep _ _
  | .awaitChild _ | .awaitSend _ _ _ _ | .awaitReceive _ _ _
  | .awaitSem _ _ _ _ | .dispatch (.waitpid _ _) _ _ _ _ | .create _ _ _ _
  | .createElect _ _ _ _ | .endProcess _ _ _ _ _ | .endFatherless _ _ _ _
  | .orphan _ _ | .reap _ _ _ _ _
  | .clearSkip _ _ | .flush _ _ _ | .deleteQueue _ _ | .resetQueue _ _
  | .put _ _ _ _ | .take _ _
  | .refill _ _ _ _ | .handOver _ _ _ _ _ _ _ | .postWake _ _ _ _ _
  | .clearReset _ _ | .resetSem _ _ _ | .deleteSem _ _ => False
  | _ => True

theorem Move.plain_dispatch {k : Context}
    (other : ∀ pid retvalp, k ≠ .waitpid pid retvalp) (r : ProcRef)
    (p : Process) (old : ProcRef) (restored : Context) :
    (Move.dispatch k r p old restored).Plain := by
  cases k with
  | waitpid pid retvalp => exact absurd rfl (other pid retvalp)
  | _ => trivial

/-- Moves that change the mode. -/
def Move.Shifts : Move → Prop
  | .settle _ _ | .dispatch _ _ _ _ _ | .reap _ _ _ _ _ | .refuse _ _
  | .receive _ _ _ => True
  | _ => False

/-- The code that started in `s` may take every plain move, but moves that
change the mode only while it is in the mode it started in. -/
def Allows (allowed : Move → KState → Prop) (s : KState) : Prop :=
  ∀ m t, m.Plain → (m.Shifts → t.mode = s.mode) → allowed m t

theorem Allows.dispatch {allowed : Move → KState → Prop} {s : KState}
    (plain : Allows allowed s) {k : Context}
    (other : ∀ pid retvalp, k ≠ .waitpid pid retvalp) (u : KState)
    (r : ProcRef) (p : Process) (old : ProcRef) (restored : Context)
    (mode : u.mode = s.mode) : allowed (.dispatch k r p old restored) u :=
  plain _ _ (Move.plain_dispatch other r p old restored) fun _ => mode

/-- Sequences of moves, restricted to those allowed where they are taken. -/
abbrev Moves (allowed : Move → KState → Prop) : KState → KState → Prop :=
  Labelled.Path Move.Guard Move.effect allowed

theorem Moves.single {allowed : Move → KState → Prop} {s : KState} (m : Move)
    (permitted : allowed m s) (applies : m.Guard s) :
    Moves allowed s (m.effect s) :=
  (Labelled.Path.refl s).move m permitted applies

end Nebulea
