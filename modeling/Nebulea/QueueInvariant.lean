import Nebulea.KernelFootprints
import Nebulea.KernelIdle
import Nebulea.MessageBuffers
import Nebulea.QueueFrames

/-!
# The invariant of a message queue

Senders and receivers wait in one list, and only `nb_msg` tells which of them
it holds.  Between the hand-over of a message by `psend` and the end of the
`preceive` that takes it the queue is in a state of its own: one message is
stored, and there may still be receivers in the list.  The invariant says so,
and that nothing but a hand-over resumes a receiver whose `skip_message` is not
set.  It is kept as long as no process is started and no message is received
through a pointer that faults.
-/

namespace Nebulea

open ExceptState

/-! ## The invariant -/

/-- No rest of `start`, and no message to store through a pointer that
faults. -/
def Context.Regular : Context → Prop
  | .start _ => False
  | .preceive _ _ message => message.addr = 0 ∨ message.faults = false
  | _ => True

/-- The action starts no process, and receives no message through a pointer
that faults. -/
def Action.Regular : Action → Prop
  | .call (.start _ _ _) => False
  | .call (.preceive _ message) => message.addr = 0 ∨ message.faults = false
  | _ => True

namespace KState

/-- The process on the processor has a message of `q` to take that was handed
over to it. -/
def HandingOver (s : KState) (q : QueueRef) : Prop :=
  ∃ r message p, s.mode = .kernel (.preceive r q message) ∧
    s.procs s.running = some p ∧ p.skipMessage = false

/-- The processes in the list of `q` wait for what its buffer says. -/
def Waiting (s : KState) (q : QueueRef) (content : MessageQueue)
    (r : ProcRef) (p : Process) : Prop :=
  (∃ message, p.stack = .preceive r q message) ∧
      (content.nbMsg = 0 ∨ s.HandingOver q) ∨
    p.stack = .psend r q ∧ content.nbMsg = content.capacity ∧
      ¬ s.HandingOver q

end KState

/-- The queue `q` at any point of a run. -/
structure QueueOk (s : KState) (q : QueueRef) : Prop where
  shows_ : ∀ content, s.HasQueue q content → ∃ ring, content.Shows ring
  handed : s.HandingOver q → ∃ content, s.HasQueue q content ∧
    content.nbMsg = 1
  waiting : ∀ content r p, s.HasQueue q content → s.procs r = some p →
    r ≠ s.running → p.link = some (.queue q) → s.Waiting q content r p
  /-- A receiver made activable learns that the queue was emptied. -/
  roused : ∀ r p message, s.procs r = some p → r ≠ s.running →
    p.state = .activable → p.stack = .preceive r q message →
      p.skipMessage = true

/-- Contexts are regular, but for the one of `but`. -/
structure RegularBut (but : ProcRef) (s : KState) : Prop where
  saved : ∀ r p, s.procs r = some p → p.Living → r ≠ s.running → r ≠ but →
    p.stack.Regular
  loaded : ∀ k, s.mode = .kernel k → k.Regular

section Moves

variable {b s : KState} {a : Action} {m : Move} {q : QueueRef}

/-- A process that has not ended had not ended before. -/
theorem Move.living_before (ok : Coherent s) (applies : m.Guard s)
    {x : ProcRef} {p n : Process} (record : s.procs x = some p)
    (found : (m.effect s).procs x = some n) (living : n.Living) :
    p.Living := by
  constructor
  · intro zombie
    rcases Ended.move (.inl ⟨p, record, zombie⟩) ok applies with
      ⟨c, after, ended⟩ | gone
    · rw [found, Option.some.injEq] at after
      exact living.1 (after ▸ ended)
    · exact living.2 (gone.2 n found)
  · intro finished
    have gone : Gone s x := by
      refine ⟨ok.lt_nextRef record, ?_⟩
      intro c isRecord
      rw [record, Option.some.injEq] at isRecord
      exact isRecord ▸ finished
    exact living.2 ((gone.move ok applies).2 n found)

/-- The running process does not change while a receiver is resumed. -/
theorem Move.running_of_kernel (ok : Coherent s) (applies : m.Guard s)
    {k : Context} (mode : s.mode = .kernel k) :
    (m.effect s).running = s.running := by
  by_cases stays : ¬ m.Switches
  · exact (m.unswitched stays ok applies).running
  rw [not_not] at stays
  cases m with
  | dispatch left r p old restored => exact absurd mode (applies.1 k)
  | create => rfl
  | createElect => cases applies.1.symm.trans mode
  | handOver => cases applies.2.1.symm.trans mode
  | _ => exact absurd stays id

/-- A process is resumed where it was suspended. -/
theorem Move.dispatch_stack (sound : Sound s) {k restored : Context}
    {r old : ProcRef} {p : Process}
    (applies : (Move.dispatch k r p old restored).Guard s) :
    (if r = s.running then k else p.stack) = restored := by
  have after := sound.context.move sound.coherent sound.cpu applies
  have isNew := dispatch_procs (s := s) (k := k) (r := r) (p := p) (o := old)
    (c := restored) r
  rw [if_pos rfl] at isNew
  exact after.loaded restored _ rfl isNew

/-- A process that goes on at once goes on at the end of its call. -/
theorem Move.dispatch_self (sound : Sound s) {k restored : Context}
    {old : ProcRef} {p : Process}
    (applies : (Move.dispatch k s.running p old restored).Guard s) :
    k = .interrupted ∨ ∃ value, k = .returning value := by
  obtain ⟨-, next, -, -, -, ⟨content, record, -, fits⟩, -⟩ := applies
  have state := sound.coherent.activable_of_nextOut next
  rw [next.2, Option.some.injEq] at record
  subst record
  cases k with
  | interrupted => exact .inl rfl
  | returning value => exact .inr ⟨value, rfl⟩
  | fresh | start | handedOver => exact absurd fits id
  | exiting =>
      rcases fits with zombie | finished
      · cases state.symm.trans zombie
      · cases state.symm.trans finished
  | waitpid pid retvalp => cases state.symm.trans fits.1
  | psend r q => cases state.symm.trans fits.2.1
  | preceive r q message => cases state.symm.trans fits.2.1
  | wait x => cases state.symm.trans fits.1

/-- No dispatch resumes a receiver that was not told that its queue is
empty. -/
theorem QueueOk.dispatch_skips (ok : QueueOk s q) (sound : Sound s)
    {k : Context} {r r' old : ProcRef} {p : Process} {message : UserPtr}
    (applies : (Move.dispatch k r p old (.preceive r' q message)).Guard s) :
    p.skipMessage = true := by
  have next := applies.2.1
  have state := sound.coherent.activable_of_nextOut next
  have stack := Move.dispatch_stack sound applies
  by_cases isRunning : r = s.running
  · rw [if_pos isRunning] at stack
    subst isRunning
    rcases Move.dispatch_self sound applies with rfl | ⟨value, rfl⟩ <;>
      cases stack
  · rw [if_neg isRunning] at stack
    have owner : r' = r := by
      have owner := sound.context.owner r p next.2
      rw [stack] at owner
      exact owner
    rw [owner] at stack
    exact ok.roused r p message next.2 isRunning state stack

/-- What a step may do within the runs of this module. -/
structure Within (b : KState) (a : Action) (s : KState) : Prop where
  sound : Sound s
  stays : Stays b s
  regular : RegularBut b.running s
  action : a.Regular
  entered : ∀ c, a = .call c → b.mode = .user

namespace Within

/-- In user mode the process that entered the kernel is still on the
processor. -/
theorem running_of_outside (within : Within b a s)
    (outside : ∀ k, s.mode ≠ .kernel k) : s.running = b.running := by
  rcases within.stays with same | ⟨-, k, inKernel⟩
  · exact same
  · exact absurd inKernel (outside k)

/-- While a resumed process goes on in the kernel its `skip_message` stays as
it is. -/
theorem skip_of_running (within : Within b a s) (permitted : m.By b a s)
    (applies : m.Guard s) {k : Context} (before : s.mode = .kernel k)
    (inKernel : (m.effect s).mode ≠ .user) :
    ∃ p n, s.procs s.running = some p ∧
      (m.effect s).procs s.running = some n ∧
      n.skipMessage = p.skipMessage := by
  have sound := within.sound
  have ok := sound.coherent
  obtain ⟨c, current, -⟩ := sound.cpu.current
  obtain ⟨n, after, -⟩ := (sound.move applies).cpu.current
  rw [m.running_of_kernel ok applies before] at after
  obtain ⟨p, record, carries⟩ :=
    m.carries_after ok applies after (ok.lt_nextRef current).ne
  refine ⟨p, n, record, after, ?_⟩
  rcases carries.skip with same | writes
  · exact same
  cases m with
  | clearSkip r x =>
      -- the rest of `start` is not among the contexts of these runs
      obtain ⟨rfl, isStart⟩ := permitted
      exact absurd (within.regular.loaded _ isStart) id
  | refuse r x => exact absurd rfl inKernel
  | flush r x q =>
      obtain ⟨next, -, content, onCpu⟩ := applies
      exact absurd writes (ok.running_ne_of_nextOut next onCpu)
  | _ => exact absurd writes id

/-- Contexts stay regular. -/
theorem regular_move (within : Within b a s) (permitted : m.By b a s)
    (applies : m.Guard s) : RegularBut b.running (m.effect s) := by
  have sound := within.sound
  have ok := sound.coherent
  constructor
  · intro x n found living other notBut
    rcases m.suspended_after ok applies found other with
      ⟨suspended, p, record, stack⟩ | ⟨isRunning, -⟩ | ⟨-, fresh⟩
    · rw [stack]
      exact within.regular.saved x p record
        (m.living_before ok applies record found living) suspended notBut
    · rcases within.stays with same | ⟨-, k, inKernel⟩
      · exact absurd (isRunning.trans same) notBut
      · rw [m.running_of_kernel ok applies inKernel] at other
        exact absurd isRunning other
    · rw [fresh]
      trivial
  · intro k mode
    rcases m.kernel_before applies mode with
      ⟨left, r, p, old, rfl⟩ | ⟨-, -, -, -, -, rfl⟩ |
        ⟨q, content, message, sender, r, p, rfl⟩ | before
    · have next := applies.2.1
      have stack := Move.dispatch_stack sound applies
      by_cases isRunning : r = s.running
      · rw [if_pos isRunning] at stack
        subst isRunning
        subst stack
        rcases Move.dispatch_self sound applies with rfl | ⟨value, rfl⟩ <;>
          trivial
      · rw [if_neg isRunning] at stack
        have state := ok.activable_of_nextOut next
        rw [← stack]
        refine within.regular.saved r p next.2
          (by simp [Process.Living, state]) isRunning ?_
        rwa [← within.running_of_outside applies.1]
    · trivial
    · obtain ⟨-, user, -, next, onCpu, registers⟩ := applies
      have distinct := ok.running_ne_of_nextOut next onCpu
      have state := ok.inMsgqueue_of_nextOut next
      rw [sound.context.saved r p next.2 (by simp [state]) distinct.symm k
        registers]
      refine within.regular.saved r p next.2
        (by simp [Process.Living, state]) distinct.symm ?_
      rw [← within.running_of_outside (by simp [user])]
      exact distinct.symm
    · exact within.regular.loaded k before

theorem move (within : Within b a s) (permitted : m.By b a s)
    (applies : m.Guard s) : Within b a (m.effect s) where
  sound := within.sound.move applies
  stays := within.stays.move within.sound.coherent permitted applies
  regular := within.regular_move permitted applies
  action := within.action
  entered := within.entered

end Within

/-- A hand-over of `q` was going on before, or begins with this move. -/
theorem QueueOk.handingOver_before (ok : QueueOk s q) (within : Within b a s)
    (permitted : m.By b a s) (applies : m.Guard s)
    (handing : (m.effect s).HandingOver q) :
    s.HandingOver q ∧ (m.effect s).mode = s.mode ∨
      ∃ content message sender r p restored,
        m = .handOver q content message sender r p restored := by
  have sound := within.sound
  obtain ⟨r, message, n, mode, found, clear⟩ := handing
  rcases m.kernel_before applies mode with
    ⟨left, r', p, old, rfl⟩ | ⟨-, -, -, -, -, isFresh⟩ |
      ⟨x, content, value, sender, r', p, rfl⟩ | before
  · have isSet := ok.dispatch_skips sound applies
    rw [show (Move.effect _ s).running = r' from rfl, Move.dispatch_procs,
      if_pos rfl, Option.some.injEq] at found
    rw [← found] at clear
    exact absurd (clear.symm.trans isSet) (by simp)
  · cases isFresh
  · -- the receiver waited in the list of the queue that its stack names
    right
    obtain ⟨-, -, -, next, onCpu, registers⟩ := applies
    have distinct := sound.coherent.running_ne_of_nextOut next onCpu
    have link := sound.coherent.link_of_nextOut next
    have state := sound.coherent.inMsgqueue_of_nextOut next
    have isStack := sound.context.saved r' p next.2 (by simp [state])
      distinct.symm _ registers
    have blocked := sound.context.blocked r' p next.2
      (by simp [Process.Living, state]) distinct.symm
    rcases blocked.queue x link with sends | ⟨pointer, receives⟩
    · cases isStack.trans sends
    · cases isStack.trans receives
      exact ⟨content, value, sender, _, p, _, rfl⟩
  · left
    rw [m.running_of_kernel sound.coherent applies before] at found
    obtain ⟨p, c, record, after, sameSkip⟩ :=
      within.skip_of_running permitted applies before (by simp [mode])
    rw [found, Option.some.injEq] at after
    subst after
    exact ⟨⟨r, message, p, before, record, sameSkip ▸ clear⟩,
      mode.trans before.symm⟩

/-- What the records of `q` and of its waiting processes say after a move. -/
structure Handing (b : KState) (a : Action) (q : QueueRef) (s : KState) :
    Prop where
  ok : QueueOk s q
  /-- Only `psend` hands a message over. -/
  sent : s.HandingOver q → ∀ c, a = .call c → ∃ fid message, c = .psend fid message

namespace Handing

variable (handing : Handing b a q s) (within : Within b a s)
variable (applies : m.Guard s)

include handing within applies

theorem sent_move (permitted : m.By b a s) :
    (m.effect s).HandingOver q → ∀ c, a = .call c →
      ∃ fid message, c = .psend fid message := by
  intro later c isCall
  rcases handing.ok.handingOver_before within permitted applies later with
    ⟨before, -⟩ | ⟨content, message, sender, r, p, restored, rfl⟩
  · exact handing.sent before c isCall
  · obtain ⟨-, fid, -, isSend⟩ := permitted
    rw [isSend, Action.call.injEq] at isCall
    exact ⟨fid, message, isCall.symm⟩

/-- A receiver that goes on has a message to take. -/
theorem stored_of_receive {r : ProcRef} {content : MessageQueue}
    (isReceive : m = .receive r q content) :
    s.HandingOver q ∧ s.HasQueue q content ∧ content.nbMsg = 1 := by
  subst isReceive
  obtain ⟨record, ⟨message, mode⟩, p, found, clear⟩ := applies
  have owner : r = s.running := within.sound.owner_running mode
  have before : s.HandingOver q := ⟨r, message, p, mode, owner ▸ found, clear⟩
  obtain ⟨c, has, isOne⟩ := handing.ok.handed before
  have same := has.2.symm.trans record
  rw [Option.some.injEq] at same
  subst same
  exact ⟨before, has, isOne⟩

theorem shows_move (content : MessageQueue)
    (has : (m.effect s).HasQueue q content) : ∃ ring, content.Shows ring := by
  rcases m.queue_before applies has with
    ⟨before, hasBefore, rfl⟩ | ⟨fid, capacity, rfl, -, rfl⟩
  swap
  · exact ⟨_, .new fid applies.2.2.2 _⟩
  obtain ⟨ring, shows_⟩ := handing.ok.shows_ before hasBefore
  have same {x : QueueRef} {c : MessageQueue} (record : s.queues x = some c)
      (isQ : x = q) : c = before := by
    subst isQ
    exact Option.some.inj (record.symm.trans hasBefore.2)
  have bounded := ring.count_le
  have positive := ring.capacity_pos
  have isCount := shows_.nbMsg
  have isCapacity := shows_.capacity
  cases m with
  | put x c p message =>
      simp only [Move.rewrites]
      split
      · rename_i isQ
        have isC := same applies.1.2 isQ
        have notFull := applies.2.2.2.2
        rw [isC] at notFull
        exact ⟨_, shows_.push (by omega) message⟩
      · exact ⟨ring, shows_⟩
  | take x c =>
      simp only [Move.rewrites]
      split
      · rename_i isQ
        have isC := same applies.1.2 isQ
        have stored := applies.2.2.1
        rw [isC] at stored
        exact ⟨_, shows_.pop (by omega)⟩
      · exact ⟨ring, shows_⟩
  | refill x c r p =>
      simp only [Move.rewrites]
      split
      · rename_i isQ
        have isC := same applies.1.2 isQ
        have stored := applies.2.2.1
        rw [isC] at stored
        have popped := shows_.pop (by omega)
        rw [MessageQueue.refill_eq]
        exact ⟨_, popped.push (by change ring.count - 1 < ring.capacity; omega)
          p.message⟩
      · exact ⟨ring, shows_⟩
  | handOver x c message sender r p restored =>
      simp only [Move.rewrites]
      split
      · rename_i isQ
        have isC := same applies.1.2 isQ
        have isEmpty := applies.2.2.1
        rw [isC] at isEmpty
        exact ⟨_, shows_.push (by omega) message⟩
      · exact ⟨ring, shows_⟩
  | receive r x c =>
      simp only [Move.rewrites]
      split
      · rename_i isQ
        subst isQ
        obtain ⟨-, hasC, isOne⟩ :=
          handing.stored_of_receive within applies rfl
        rw [same hasC.2 rfl] at isOne
        exact ⟨_, shows_.pop (by omega)⟩
      · exact ⟨ring, shows_⟩
  | resetQueue x c =>
      simp only [Move.rewrites]
      split
      · obtain ⟨emptied, shows', -⟩ := shows_.reset
        exact ⟨emptied, shows'⟩
      · exact ⟨ring, shows_⟩
  | _ => exact ⟨ring, shows_⟩

/-- A hand-over goes on until the receiver takes the message. -/
theorem handingOver_after (permitted : m.By b a s)
    (before : s.HandingOver q) :
    (m.effect s).HandingOver q ∨ ∃ r content, m = .receive r q content := by
  obtain ⟨r, message, p, mode, record, clear⟩ := before
  have receiving : s.mode.Receiving := by
    rw [mode]
    trivial
  by_cases keeps : ¬ m.SetsMode
  · left
    have after := (m.mode_effect keeps).trans mode
    obtain ⟨c, n, isRecord, found, same⟩ :=
      within.skip_of_running permitted applies mode (by simp [after])
    rw [record, Option.some.injEq] at isRecord
    subst isRecord
    rw [← m.running_of_kernel within.sound.coherent applies mode] at found
    exact ⟨r, message, n, after, found, same.trans clear⟩
  rw [not_not] at keeps
  cases m with
  | settle => exact absurd receiving applies.2.1
  | reap => exact absurd receiving applies.1
  | dispatch => exact absurd mode (applies.1 _)
  | createElect => cases applies.1.symm.trans mode
  | handOver => cases applies.2.1.symm.trans mode
  | fault =>
      obtain ⟨sameMode, mayFault⟩ := permitted
      rw [mode] at sameMode
      cases a with
      | call c => cases (within.entered c rfl).symm.trans sameMode.symm
      | tick => exact absurd mayFault id
      | resume =>
          rcases mayFault with
            ⟨pid, retvalp, isWaiting⟩ |
              ⟨r', x, pointer, isReceiving, notNull, faults⟩
          · cases isWaiting.symm.trans sameMode.symm
          · cases isReceiving.symm.trans sameMode.symm
            rcases within.regular.loaded _ mode with isNull | writable
            · exact absurd isNull notNull
            · exact absurd (faults.symm.trans writable) (by simp)
  | refuse r' n =>
      -- the receiver was told, and this one was not
      obtain ⟨found, isSet, refuses⟩ := applies
      have isRunning : r' = s.running := by
        rcases refuses with ⟨x, isSend⟩ | ⟨x, pointer, isReceive⟩
        · cases isSend.symm.trans mode
        · exact within.sound.owner_running isReceive
      rw [isRunning, record, Option.some.injEq] at found
      rw [← found, clear] at isSet
      cases isSet
  | receive r' x content =>
      obtain ⟨pointer, isReceive⟩ := applies.2.1
      cases isReceive.symm.trans mode
      exact .inr ⟨r, content, rfl⟩
  | _ => exact absurd keeps id

/-- Outside hand-overs nothing but `psend` begins one. -/
theorem handed_move (permitted : m.By b a s)
    (later : (m.effect s).HandingOver q) :
    ∃ content, (m.effect s).HasQueue q content ∧ content.nbMsg = 1 := by
  have ok := within.sound.coherent
  have fresh {content : MessageQueue} (has : s.HasQueue q content)
      (isNew : q = s.nextRef) {P : Prop} : P := by
    subst isNew
    cases (ok.heap.fresh _ (Nat.le_refl _)).2.1.symm.trans has.2
  rcases handing.ok.handingOver_before within permitted applies later with
    ⟨before, sameMode⟩ | ⟨content, message, sender, r, p, restored, rfl⟩
  · obtain ⟨content, has, isOne⟩ := handing.ok.handed before
    have isSend := handing.sent before
    obtain ⟨r, pointer, -, mode, -⟩ := before
    -- no other call is on the way
    have notCall {c : Syscall} (isCall : a = .call c)
        (other : ∀ fid message, c ≠ .psend fid message) {P : Prop} : P := by
      obtain ⟨fid, message, same⟩ := isSend c isCall
      exact absurd same (other fid message)
    have kept : ∀ fid, m ≠ .deleteQueue fid q := by
      rintro fid rfl
      exact notCall permitted.2 (by simp)
    obtain ⟨n, after⟩ := m.hasQueue_effect ok applies has kept
    refine ⟨n, after, ?_⟩
    rcases m.queue_before applies after with
      ⟨c, hasC, rfl⟩ | ⟨-, -, -, isNew, -⟩
    swap
    · exact fresh has isNew
    have same := hasC.2.symm.trans has.2
    rw [Option.some.injEq] at same
    subst same
    cases m with
    | put => cases applies.2.1.symm.trans mode
    | take => cases applies.2.1.symm.trans mode
    | refill => cases applies.2.1.symm.trans mode
    | handOver => cases applies.2.1.symm.trans mode
    | receive => cases sameMode.trans mode
    | resetQueue x old =>
        obtain ⟨fid, -, isReset⟩ := permitted
        exact notCall isReset (by simp)
    | _ => exact isOne
  · have has := applies.1
    obtain ⟨n, after⟩ := Move.hasQueue_effect ok applies has (by simp)
    refine ⟨n, after, ?_⟩
    rcases Move.queue_before applies after with
      ⟨c, hasC, rfl⟩ | ⟨fid, capacity, isNew, -⟩
    swap
    · cases isNew
    have same := hasC.2.symm.trans has.2
    rw [Option.some.injEq] at same
    subst same
    have isEmpty := applies.2.2.1
    simp only [Move.rewrites, if_true, MessageQueue.push]
    omega

/-- A receiver that goes on waiting after a move. -/
theorem receiver_waits (permitted : m.By b a s) {content : MessageQueue}
    (has : s.HasQueue q content) (notEmpty : s.lists (.queue q) ≠ [])
    (waits : content.nbMsg = 0 ∨ s.HandingOver q) :
    (m.rewrites q content).nbMsg = 0 ∨ (m.effect s).HandingOver q := by
  have user {P : Prop} (isUser : s.mode = .user)
      (stored : ¬ content.nbMsg = 0) : P := by
    obtain ⟨r, message, -, mode, -⟩ := waits.resolve_left stored
    cases isUser.symm.trans mode
  have same {x : QueueRef} {c : MessageQueue} (record : s.queues x = some c)
      (isQ : x = q) : c = content := by
    subst isQ
    exact Option.some.inj (record.symm.trans has.2)
  have goesOn (kept : m.rewrites q content = content)
      (notReceive : ∀ r c, m ≠ .receive r q c) :
      (m.rewrites q content).nbMsg = 0 ∨ (m.effect s).HandingOver q := by
    rw [kept]
    refine waits.imp_right fun before => ?_
    rcases handing.handingOver_after within applies permitted before with
      later | ⟨r, c, isReceive⟩
    · exact later
    · exact absurd isReceive (notReceive r c)
  cases m with
  | put x c p message =>
      by_cases isQ : x = q
      · have refused := applies.2.2.2.1
        rw [same applies.1.2 isQ, isQ] at refused
        exact user applies.2.1 fun isEmpty => refused ⟨isEmpty, notEmpty⟩
      · exact goesOn (if_neg isQ) (by simp)
  | take x c =>
      by_cases isQ : x = q
      · have stored := applies.2.2.1
        rw [same applies.1.2 isQ] at stored
        exact user applies.2.1 (by omega)
      · exact goesOn (if_neg isQ) (by simp)
  | refill x c r p =>
      by_cases isQ : x = q
      · have stored := applies.2.2.1
        rw [same applies.1.2 isQ] at stored
        exact user applies.2.1 (by omega)
      · exact goesOn (if_neg isQ) (by simp)
  | handOver x c message sender r p restored =>
      by_cases isQ : x = q
      · -- the receiver that is resumed has this message to take
        right
        subst isQ
        have sound := within.sound
        obtain ⟨-, isUser, -, next, onCpu, registers⟩ := applies
        have distinct := sound.coherent.running_ne_of_nextOut next onCpu
        have link := sound.coherent.link_of_nextOut next
        have state := sound.coherent.inMsgqueue_of_nextOut next
        have isStack := sound.context.saved r p next.2 (by simp [state])
          distinct.symm restored registers
        have notSkipped : p.skipMessage = false := by
          by_contra isSet
          rw [Bool.not_eq_false] at isSet
          have suspended := (sound.skip r p next.2
            (by simp [Process.Living, state]) isSet).2.1 distinct.symm
          cases state.symm.trans suspended
        rcases handing.ok.waiting content r p has next.2 distinct.symm link with
          ⟨⟨pointer, receives⟩, -⟩ | ⟨sends, full, -⟩
        · refine ⟨r, pointer, { p with
            state := .elected
            link := none
            registers := none }, ?_, ?_, notSkipped⟩
          · exact congrArg Mode.kernel (isStack.trans receives)
          · exact (Move.handOver_procs distinct r).trans (if_pos rfl)
        · obtain ⟨ring, shows_⟩ := handing.ok.shows_ content has
          have positive := ring.capacity_pos
          rw [← shows_.capacity, ← full] at positive
          exact user isUser positive.ne'
      · exact goesOn (if_neg isQ) (by simp)
  | receive r x c =>
      by_cases isQ : x = q
      · subst isQ
        obtain ⟨-, hasC, isOne⟩ :=
          handing.stored_of_receive within applies rfl
        rw [same hasC.2 rfl] at isOne
        left
        simp only [Move.rewrites, if_true, MessageQueue.pop]
        omega
      · refine goesOn (if_neg isQ) ?_
        rintro r' c' isReceive
        cases isReceive
        exact isQ rfl
  | resetQueue x c =>
      by_cases isQ : x = q
      · left
        simp [Move.rewrites, isQ]
      · exact goesOn (if_neg isQ) (by simp)
  | _ => exact goesOn rfl (by simp)

/-- A sender that goes on waiting after a move. -/
theorem sender_waits (permitted : m.By b a s) {content : MessageQueue}
    (has : s.HasQueue q content) (notEmpty : s.lists (.queue q) ≠ [])
    (full : content.nbMsg = content.capacity) (calm : ¬ s.HandingOver q) :
    (m.rewrites q content).nbMsg = (m.rewrites q content).capacity ∧
      ¬ (m.effect s).HandingOver q := by
  have same {x : QueueRef} {c : MessageQueue} (record : s.queues x = some c)
      (isQ : x = q) : c = content := by
    subst isQ
    exact Option.some.inj (record.symm.trans has.2)
  have notEmptied {P : Prop} (isEmpty : content.nbMsg = 0) : P := by
    obtain ⟨ring, shows_⟩ := handing.ok.shows_ content has
    have positive := ring.capacity_pos
    rw [← shows_.capacity, ← full] at positive
    exact absurd isEmpty positive.ne'
  constructor
  swap
  · intro later
    rcases handing.ok.handingOver_before within permitted applies later with
      ⟨before, -⟩ | ⟨c, message, sender, r, p, restored, rfl⟩
    · exact calm before
    · exact notEmptied (same applies.1.2 rfl ▸ applies.2.2.1)
  cases m with
  | put x c p message =>
      simp only [Move.rewrites]
      split
      · rename_i isQ
        have room := applies.2.2.2.2
        rw [same applies.1.2 isQ] at room
        exact absurd full room
      · exact full
  | take x c =>
      simp only [Move.rewrites]
      split
      · rename_i isQ
        have refused := applies.2.2.2
        rw [same applies.1.2 isQ, isQ] at refused
        exact absurd ⟨full, notEmpty⟩ refused
      · exact full
  | refill x c r p =>
      simp only [Move.rewrites]
      split
      · exact full
      · exact full
  | handOver x c message sender r p restored =>
      simp only [Move.rewrites]
      split
      · rename_i isQ
        exact notEmptied (same applies.1.2 isQ ▸ applies.2.2.1)
      · exact full
  | receive r x c =>
      simp only [Move.rewrites]
      split
      · rename_i isQ
        subst isQ
        exact absurd (handing.stored_of_receive within applies rfl).1 calm
      · exact full
  | resetQueue x c =>
      simp only [Move.rewrites]
      split
      · rename_i isQ
        exact absurd (isQ ▸ applies.2) notEmpty
      · exact full
  | _ => exact full

/-- The processes that wait after a move wait for what the buffer says. -/
theorem waiting_move (permitted : m.By b a s) {content : MessageQueue}
    {x : ProcRef} {n : Process} (has : (m.effect s).HasQueue q content)
    (found : (m.effect s).procs x = some n)
    (other : x ≠ (m.effect s).running) (link : n.link = some (.queue q)) :
    (m.effect s).Waiting q content x n := by
  have sound := within.sound
  have ok := sound.coherent
  obtain ⟨state, -⟩ :=
    ((sound.move applies).coherent.procs.linked x n found).state_of_link link
  rcases m.blocked_before ok applies found (by simp [state, State.Blocks]) with
    ⟨p, record, rests⟩ | ⟨suspends, isRunning, -⟩
  swap
  · -- the process that has just started to wait is still on the processor
    rw [state] at suspends
    cases m with
    | awaitSend | awaitReceive => exact absurd isRunning other
    | _ => cases suspends
  have wasLinked : p.link = some (.queue q) := rests.link.symm.trans link
  have member := ok.lists.mem_of_link record wasLinked
  have notEmpty : s.lists (.queue q) ≠ [] := List.ne_nil_of_mem member
  obtain ⟨c, hasC, rfl⟩ := m.rewritten_of_link ok applies record wasLinked has
  rcases m.suspended_after ok applies found other with
    ⟨suspended, p', record', stack⟩ | ⟨isRunning, leaves⟩ | ⟨isNew, -⟩
  · rw [record, Option.some.injEq] at record'
    subst record'
    rw [KState.Waiting, stack]
    rcases handing.ok.waiting c x p hasC record suspended wasLinked with
      ⟨receives, waits⟩ | ⟨sends, full, calm⟩
    · exact .inl ⟨receives, handing.receiver_waits within applies permitted hasC
        notEmpty waits⟩
    · exact .inr ⟨sends, handing.sender_waits within applies permitted hasC
        notEmpty full calm⟩
  · subst isRunning
    have blocked : p.state = .inMsgqueue := rests.state.symm.trans state
    have occupied {c : Process} (onCpu : s.OnCpu c) {P : Prop} : P := by
      have same := onCpu.1
      rw [record, Option.some.injEq] at same
      cases blocked.symm.trans ((congrArg Process.state same).trans onCpu.2)
    generalize isStack : n.stack = k at leaves
    cases leaves with
    | createElect => exact occupied applies.2.1
    | handOver => exact occupied applies.2.2.2.2.1
    | dispatch k r p' old restored =>
        have guard := applies
        obtain ⟨outside, -, -, -, -, ⟨current, record', -, fits⟩, -⟩ := applies
        rw [record, Option.some.injEq] at record'
        subst record'
        obtain ⟨ring, shows_⟩ := handing.ok.shows_ c hasC
        have nonneg := ring.count_nonneg
        rw [← shows_.nbMsg] at nonneg
        cases k with
        | psend r' q' =>
            obtain ⟨rfl, -, link', c', isC, full⟩ := fits
            cases wasLinked.symm.trans link'
            cases hasC.2.symm.trans isC
            refine .inr ⟨isStack, full, ?_⟩
            intro later
            rcases handing.ok.handingOver_before within permitted guard
                later with ⟨before, -⟩ | ⟨_, _, _, _, _, _, isHandOver⟩
            · obtain ⟨r', pointer, -, mode, -⟩ := before
              exact outside _ mode
            · cases isHandOver
        | preceive r' q' message =>
            obtain ⟨rfl, -, link', c', isC, notStored⟩ := fits
            cases wasLinked.symm.trans link'
            cases hasC.2.symm.trans isC
            exact .inl ⟨⟨message, isStack⟩, .inl (by
              change c.nbMsg = 0
              omega)⟩
        | fresh | start | handedOver => exact absurd fits id
        | interrupted => cases blocked.symm.trans fits
        | returning value =>
            rcases fits with isState | isState | isState | isState <;>
              cases blocked.symm.trans isState
        | exiting =>
            rcases fits with isState | isState <;>
              cases blocked.symm.trans isState
        | waitpid pid retvalp => cases blocked.symm.trans fits.1
        | wait y => cases blocked.symm.trans fits.1
  · exact absurd isNew (ok.lt_nextRef record).ne

/-- A receiver made activable has its `skip_message` set. -/
theorem roused_move (permitted : m.By b a s) {x : ProcRef} {n : Process}
    {message : UserPtr} (found : (m.effect s).procs x = some n)
    (other : x ≠ (m.effect s).running) (state : n.state = .activable)
    (stack : n.stack = .preceive x q message) : n.skipMessage = true := by
  have sound := within.sound
  have ok := sound.coherent
  rcases m.suspended_after ok applies found other with
    ⟨suspended, before⟩ | ⟨isRunning, leaves⟩ | ⟨-, isFresh⟩
  · obtain ⟨p, record, sameStack⟩ := before
    rw [stack] at sameStack
    have living := m.living_before ok applies record found
      (by simp [Process.Living, state])
    have blocked := sound.context.blocked x p record living suspended
    obtain ⟨c, isRecord, carries⟩ :=
      m.carries_after ok applies found (ok.lt_nextRef record).ne
    rw [record, Option.some.injEq] at isRecord
    subst isRecord
    have isSet : p.state = .activable → n.skipMessage = true := by
      intro activable
      have wasSet := handing.ok.roused x p message record suspended activable
        sameStack.symm
      rcases carries.skip with same | writes
      · exact same.trans wasSet
      cases m with
      | clearSkip r c =>
          obtain ⟨rfl, isStart⟩ := permitted
          exact absurd (within.regular.loaded _ isStart) id
      | refuse r c =>
          have isRunning : r = s.running := by
            rcases applies.2.2 with ⟨y, isSend⟩ | ⟨y, pointer, isReceive⟩
            · exact sound.owner_running isSend
            · exact sound.owner_running isReceive
          exact absurd ((show x = r from writes).trans isRunning) suspended
      | flush r c y =>
          cases show x = r from writes
          exact congrArg Process.skipMessage (Option.some.inj
            (found.symm.trans (Function.update_self ..)))
      | _ => exact absurd writes id
    rcases carries.activable state with activable | isRunning | wakes
    · exact isSet activable
    · exact absurd isRunning suspended
    · cases wakes with
      | sleeper _ asleep =>
          obtain ⟨value, isReturning⟩ := blocked.asleep asleep
          cases sameStack.trans isReturning
      | father _ waiting =>
          obtain ⟨pid, retvalp, isWaiting⟩ := blocked.child waiting
          cases sameStack.trans isWaiting
      | ofSem _ y link => cases sameStack.trans (blocked.sem y link)
      | flush y =>
          exact congrArg Process.skipMessage (Option.some.inj
            (found.symm.trans (Function.update_self ..)))
      | refill y content =>
          obtain ⟨has, isUser, stored, -, next⟩ := applies
          have link := ok.link_of_nextOut next
          rcases blocked.queue y link with sends | ⟨pointer, receives⟩
          · cases sameStack.trans sends
          cases sameStack.trans receives
          rcases handing.ok.waiting content x p has record suspended link with
            ⟨-, isEmpty | ⟨r, pointer, -, mode, -⟩⟩ | ⟨sends, -⟩
          · omega
          · cases isUser.symm.trans mode
          · cases sameStack.trans sends
  · rw [stack] at leaves
    cases leaves with
    | dispatch k r p old restored =>
        obtain ⟨-, -, -, -, -, ⟨c, record, -, fits⟩, -⟩ := applies
        rw [Move.dispatch_procs, if_neg (show x ≠ r from other), isRunning,
          record, Option.map_some, Option.some.injEq] at found
        rw [← found] at state
        cases state.symm.trans fits.2.1
  · cases stack.symm.trans isFresh

/-- The invariant is kept by the moves of these runs. -/
theorem move (permitted : m.By b a s) : Handing b a q (m.effect s) where
  ok := {
    shows_ := handing.shows_move within applies
    handed := handing.handed_move within applies permitted
    waiting := fun _ _ _ has found other link =>
      handing.waiting_move within applies permitted has found other link
    roused := fun _ _ _ found other state stack =>
      handing.roused_move within applies permitted found other state stack }
  sent := handing.sent_move within applies permitted

end Handing

end Moves

/-! ## Steps and runs -/

/-- The invariant of these runs, for the queue `q`. -/
structure Tidy (q : QueueRef) (s : KState) : Prop where
  saved : ∀ r p, s.procs r = some p → p.Living → r ≠ s.running →
    p.stack.Regular
  loaded : ∀ k, s.mode = .kernel k → k.Regular
  queue : QueueOk s q

section Steps

variable {s t : KState} {a : Action} {q : QueueRef}

/-- While a call other than `psend` and `preceive` runs, its caller is not
blocked in a message queue. -/
structure Unqueued (b s : KState) : Prop where
  left : s.running ≠ b.running → ∀ p, s.procs b.running = some p →
    p.stack.Regular
  present : s.running = b.running → ∀ p, s.procs b.running = some p →
    p.state ≠ .inMsgqueue

theorem Unqueued.move {b : KState} {m : Move} (unqueued : Unqueued b s)
    (within : Within b a s) (notSend : ∀ fid message, a ≠ .call (.psend fid message))
    (notReceive : ∀ fid message, a ≠ .call (.preceive fid message))
    (permitted : m.By b a s) (applies : m.Guard s) :
    Unqueued b (m.effect s) := by
  have ok := within.sound.coherent
  constructor
  · intro other n found
    rcases m.suspended_after ok applies found other.symm with
      ⟨suspended, p, record, stack⟩ | ⟨isRunning, leaves⟩ | ⟨-, isFresh⟩
    · rw [stack]
      exact unqueued.left suspended.symm p record
    · generalize n.stack = k at leaves
      cases leaves with
      | createElect pid prio p children new =>
          obtain ⟨-, -, name, ssize, rfl, -⟩ := permitted
          exact absurd within.action id
      | handOver => trivial
      | dispatch k r p old restored =>
          obtain ⟨-, -, -, -, -, ⟨c, record, -, fits⟩, -⟩ := applies
          rw [← isRunning] at record
          have notBlocked := unqueued.present isRunning.symm c record
          cases k with
          | start => exact absurd fits id
          | preceive r' q' message => exact absurd fits.2.1 notBlocked
          | _ => trivial
    · rw [isFresh]
      trivial
  · intro same n found blocked
    have before : s.running = b.running := by
      rcases within.stays with stays | ⟨-, k, inKernel⟩
      · exact stays
      · exact (m.running_of_kernel ok applies inKernel).symm.trans same
    rcases m.blocked_before ok applies found (by simp [blocked, State.Blocks])
      with ⟨p, record, rests⟩ | ⟨suspends, -⟩
    · exact unqueued.present before p record (rests.state.symm.trans blocked)
    · rw [blocked] at suspends
      cases m with
      | awaitSend p fid x message =>
          exact notSend fid message permitted.2.2
      | awaitReceive p fid x =>
          obtain ⟨-, -, message, isReceive⟩ := permitted
          exact notReceive fid message isReceive
      | _ => cases suspends

/-- What holds within a step that starts in a state with the invariant. -/
theorem Tidy.within (tidy : Tidy q s) (settled : Settled s)
    (regular : a.Regular) (next : step a s = .next t) {u : KState}
    (path : Moves (Move.By s a) s u) : Within s a u ∧ Handing s a q u := by
  have entered : ∀ c, a = .call c → s.mode = .user := by
    rintro c rfl
    exact mode_of_call next
  have start : Within s a s :=
    ⟨settled.sound, .inl rfl,
      ⟨fun r p record living other _ => tidy.saved r p record living other,
        tidy.loaded⟩, regular, entered⟩
  have calm : s.HandingOver q → ∀ c, a = .call c →
      ∃ fid message, c = .psend fid message := by
    rintro ⟨r, message, -, mode, -⟩ c isCall
    cases (entered c isCall).symm.trans mode
  refine path.keeps (I := fun u => Within s a u ∧ Handing s a q u) ?_
    ⟨start, tidy.queue, calm⟩
  rintro m u permitted applies ⟨within, handing⟩
  exact ⟨within.move permitted applies,
    handing.move within applies permitted⟩

/-- A process that leaves the processor in such a step is suspended in a
regular context. -/
theorem Tidy.suspended (tidy : Tidy q s) (settled : Settled s)
    (regular : a.Regular) (next : step a s = .next t)
    (left : s.running ≠ t.running) {p : Process}
    (record : t.procs s.running = some p) : p.stack.Regular := by
  have path := (settled.stepped next).path
  have inKernel : ∃ k, t.mode = .kernel k := by
    rcases (tidy.within settled regular next path).1.stays with
      same | ⟨-, inKernel⟩
    · exact absurd same.symm left
    · exact inKernel
  by_cases sends : ∃ fid message, a = .call (.psend fid message)
  · obtain ⟨fid, message, rfl⟩ := sends
    have kind := (parks_psend fid message).after_step next inKernel record
    generalize p.stack = k at kind
    cases k with
    | start | preceive => exact absurd kind id
    | _ => trivial
  by_cases receives : ∃ fid message, a = .call (.preceive fid message)
  · obtain ⟨fid, message, rfl⟩ := receives
    have kind := (parks_preceive fid message).after_step next inKernel record
    generalize p.stack = k at kind
    cases k with
    | start => exact absurd kind id
    | preceive r x pointer =>
        cases (show pointer = message from kind)
        exact regular
    | _ => trivial
  have start := (tidy.within settled regular next (.refl s)).1
  have both : Within s a t ∧ Unqueued s t := by
    refine path.keeps (I := fun u => Within s a u ∧ Unqueued s u) ?_
      ⟨start, fun other => absurd rfl other, ?_⟩
    · rintro m u permitted applies ⟨within, unqueued⟩
      exact ⟨within.move permitted applies,
        unqueued.move within
          (fun fid message isSend => sends ⟨fid, message, isSend⟩)
          (fun fid message isReceive => receives ⟨fid, message, isReceive⟩)
          permitted applies⟩
    · intro _ n found blocked
      obtain ⟨c, current, elected⟩ := settled.onCpu
      rw [found, Option.some.injEq] at current
      cases blocked.symm.trans ((congrArg Process.state current).trans elected)
  exact both.2.left left.symm p record

theorem Tidy.after (tidy : Tidy q s) (settled : Settled s)
    (regular : a.Regular) (next : step a s = .next t) : Tidy q t := by
  obtain ⟨within, handing⟩ :=
    tidy.within settled regular next (settled.stepped next).path
  refine ⟨?_, within.regular.loaded, handing.ok⟩
  intro r p record living other
  by_cases isCaller : r = s.running
  · subst isCaller
    exact tidy.suspended settled regular next other record
  · exact within.regular.saved r p record living other isCaller

theorem Tidy.run (tidy : Tidy q s) (settled : Settled s)
    (run : Run (fun _ a => a.Regular) s t) : Tidy q t := by
  induction run with
  | refl => exact tidy
  | step front regular next ih =>
      exact ih.after (front.settled settled) regular next

end Steps

end Nebulea
