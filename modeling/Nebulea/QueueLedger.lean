import Nebulea.FaultingReceivers

/-!
# Messages in and out of a queue

The trace records each message that is put into a buffer and each that is taken
out of it.  Between the two it is in the buffer, so that what was taken and what
is stored are together what was put.  It records as well which message a
process begins to send.  That message is put once, at once or when a receiver
makes room for it, and until then it is in the record of the blocked sender.
-/

namespace Nebulea

open ExceptState

namespace Event

/-- The message put into `q`. -/
@[simp]
def putIn (q : QueueRef) : Event → Option Int
  | .put x _ message => if x = q then some message else none
  | _ => none

/-- The message taken out of `q`. -/
@[simp]
def takenFrom (q : QueueRef) : Event → Option Int
  | .take x _ message => if x = q then some message else none
  | _ => none

/-- The message of `r` put into `q`. -/
@[simp]
def putBy (q : QueueRef) (r : ProcRef) : Event → Option Int
  | .put x sender message => if x = q ∧ sender = r then some message else none
  | _ => none

/-- The message that `r` begins to send to `q`. -/
@[simp]
def sentBy (q : QueueRef) (r : ProcRef) : Event → Option Int
  | .sending sender x message =>
      if x = q ∧ sender = r then some message else none
  | _ => none

/-- The event is about the queue `q`. -/
def OfQueue (q : QueueRef) : Event → Prop
  | .sending _ x _ | .put x _ _ | .take x _ _ => x = q
  | _ => False

variable {q : QueueRef} {r : ProcRef} {since : List Event}

/-- Nothing is recorded of a queue that no event is about. -/
theorem recorded_of_others (others : ∀ e ∈ since, ¬ e.OfQueue q)
    {kind : Event → Option Int} (ignores : ∀ e, ¬ e.OfQueue q → kind e = none) :
    recorded kind since = [] := by
  rw [recorded, List.reverse_eq_nil_iff, List.filterMap_eq_nil_iff]
  exact fun e member => ignores e (others e member)

theorem putIn_of_other (e : Event) (other : ¬ e.OfQueue q) :
    putIn q e = none := by
  cases e <;> simp [OfQueue] at other <;> simp [other]

theorem takenFrom_of_other (e : Event) (other : ¬ e.OfQueue q) :
    takenFrom q e = none := by
  cases e <;> simp [OfQueue] at other <;> simp [other]

theorem putBy_of_other (e : Event) (other : ¬ e.OfQueue q) :
    putBy q r e = none := by
  cases e <;> simp [OfQueue] at other <;> simp [other]

theorem sentBy_of_other (e : Event) (other : ¬ e.OfQueue q) :
    sentBy q r e = none := by
  cases e <;> simp [OfQueue] at other <;> simp [other]

end Event

/-- The action neither empties nor deletes the queue `q`. -/
def Action.Keeps (s : KState) (q : QueueRef) (a : Action) : Prop :=
  a.Regular ∧ ∀ fid, a = .call (.pdelete fid) ∨ a = .call (.preset fid) →
    queueOf s fid ≠ some q

namespace MessageQueue

variable {content : MessageQueue} {ring : RingBuffer Int}

theorem stored_push (shows_ : content.Shows ring)
    (room : content.nbMsg < content.capacity) (message : Int) :
    (content.push message).stored = content.stored ++ [message] := by
  rw [shows_.nbMsg, shows_.capacity] at room
  rw [(shows_.push room message).stored_eq, RingBuffer.toList_push,
    shows_.stored_eq]

theorem stored_pop (shows_ : content.Shows ring) (some_ : 0 < content.nbMsg) :
    content.stored = content.buffer content.tail :: content.pop.stored := by
  rw [shows_.nbMsg] at some_
  rw [shows_.stored_eq, RingBuffer.toList_pop _ some_,
    (shows_.pop some_).stored_eq, shows_.buffer, shows_.tail]

end MessageQueue

namespace Move

/-- The move carries a message to or from the queue `q`. -/
def Transfers (q : QueueRef) : Move → Prop
  | .awaitSend _ _ x _ | .put x _ _ _ | .handOver x _ _ _ _ _ _ | .take x _
  | .receive _ x _ | .refill x _ _ _ => x = q
  | _ => False

variable {s : KState} {m : Move} {q : QueueRef}

/-- The other moves record nothing of the queue. -/
theorem events_others (applies : m.Guard s) (others : ¬ m.Transfers q) :
    ∀ e ∈ m.events s, ¬ e.OfQueue q := by
  cases m with
  | note e =>
      have neutral : e.Neutral := applies
      cases e <;> simp [Event.Neutral] at neutral <;>
        simp [events, Event.OfQueue]
  | endProcess pid r p how father =>
      cases how <;> simp [events, Ending.event, Event.OfQueue]
  | endFatherless pid r p how =>
      cases how <;> simp [events, Ending.event, Event.OfQueue]
  | _ =>
      simp [Transfers] at others
      simp [events, Event.OfQueue, others]

end Move

section Moves

variable {b s : KState} {a : Action} {m : Move} {q : QueueRef}

/-- The buffer gains what a move puts and loses what it takes. -/
theorem Handing.balance (handing : Handing b a q s) (within : Within b a s)
    (applies : m.Guard s) (permitted : m.By b a s) (kept : a.Keeps b q)
    {content : MessageQueue} (has : s.HasQueue q content) :
    recorded (Event.takenFrom q) (m.events s) ++
        (m.rewrites q content).stored =
      content.stored ++ recorded (Event.putIn q) (m.events s) := by
  obtain ⟨ring, shows_⟩ := handing.ok.shows_ content has
  by_cases transfers : m.Transfers q
  swap
  · have others := m.events_others applies transfers
    have same : m.rewrites q content = content := by
      cases m with
      | resetQueue x c =>
          obtain ⟨fid, designates, isCall⟩ := permitted
          refine if_neg ?_
          rintro rfl
          exact kept.2 fid (.inr isCall) designates
      | put | handOver | take | receive | refill => exact if_neg transfers
      | _ => rfl
    rw [same, Event.recorded_of_others others Event.takenFrom_of_other,
      Event.recorded_of_others others Event.putIn_of_other, List.nil_append,
      List.append_nil]
  cases m with
  | awaitSend p fid x message => simp [Move.rewrites, Move.events]
  | put x c p message =>
      cases transfers
      obtain ⟨hasC, -, -, -, notFull⟩ := applies
      cases hasC.2.symm.trans has.2
      have bound := ring.count_le
      rw [← shows_.nbMsg, ← shows_.capacity] at bound
      simp [Move.rewrites, Move.events,
        MessageQueue.stored_push shows_ (lt_of_le_of_ne bound notFull)]
  | handOver x c message sender r p restored =>
      cases transfers
      obtain ⟨hasC, -, isEmpty, -⟩ := applies
      cases hasC.2.symm.trans has.2
      have positive := ring.capacity_pos
      rw [← shows_.capacity, ← isEmpty] at positive
      simp [Move.rewrites, Move.events,
        MessageQueue.stored_push shows_ positive]
  | take x c =>
      cases transfers
      obtain ⟨hasC, -, positive, -⟩ := applies
      cases hasC.2.symm.trans has.2
      simp [Move.rewrites, Move.events,
        MessageQueue.stored_pop shows_ positive]
  | receive r x c =>
      cases transfers
      cases applies.1.symm.trans has.2
      have isOne := (handing.stored_of_receive within applies rfl).2.2
      have positive : 0 < content.nbMsg := by omega
      simp [Move.rewrites, Move.events,
        MessageQueue.stored_pop shows_ positive]
  | refill x c r p =>
      cases transfers
      obtain ⟨hasC, -, positive, isFull, -⟩ := applies
      cases hasC.2.symm.trans has.2
      have isRing : 0 < ring.count := shows_.nbMsg ▸ positive
      have room : content.pop.nbMsg < content.pop.capacity := by
        change content.nbMsg - 1 < content.capacity
        omega
      simp [Move.rewrites, Move.events, MessageQueue.refill_eq,
        MessageQueue.stored_push (shows_.pop isRing) room,
        MessageQueue.stored_pop shows_ positive]
  | _ => exact absurd transfers id

/-! ## What a process still has to put -/

/-- The action is a call of `psend`. -/
def Action.isPsend : Action → Bool
  | .call (.psend _ _) => true
  | _ => false

/-- The message of a process that waits in the list of `q` as a sender. -/
def Process.unsent (p : Process) (q : QueueRef) (sends : Bool) : List Int :=
  if p.link = some (.queue q) ∧ sends = true then [p.message] else []

/-- A process that waits does so as a sender.  Until the step ends, the stack of
the process that entered the kernel does not say so. -/
def waitsToSend (b : KState) (a : Action) (r : ProcRef) (p : Process) : Bool :=
  if r = b.running then a.isPsend else p.stack.isPsend

theorem Process.unsent_nil {p : Process} {sends : Bool}
    (other : p.link ≠ some (.queue q)) : p.unsent q sends = [] :=
  if_neg fun waits => other waits.1

/-- Moves do not change what a process waits for. -/
theorem Within.waitsToSend_eq (within : Within b a s) (applies : m.Guard s)
    {r : ProcRef} {p n : Process} (record : s.procs r = some p)
    (found : (m.effect s).procs r = some n) :
    waitsToSend b a r n = waitsToSend b a r p := by
  have ok := within.sound.coherent
  unfold waitsToSend
  split
  · rfl
  rename_i other
  rcases m.stack_after ok applies found with
    ⟨c, isRecord, stack⟩ | ⟨isRunning, leaves⟩ | ⟨isNew, -⟩
  · cases record.symm.trans isRecord
    rw [stack]
  · -- only the process that entered the kernel leaves the processor
    have outside : ∀ k, s.mode ≠ .kernel k := by
      generalize n.stack = k at leaves
      cases leaves with
      | dispatch => exact applies.1
      | createElect => simp [applies.1]
      | handOver => simp [applies.2.1]
    exact absurd (isRunning.trans (within.running_of_outside outside)) other
  · exact absurd isNew (ok.lt_nextRef record).ne

/-- A process that waits in the list of `q` after a move neither began to send
nor put a message in it, unless it starts to wait now. -/
theorem recorded_of_rests (ok : Coherent s) (applies : m.Guard s)
    {r : ProcRef} {p n : Process} (record : s.procs r = some p)
    (link : p.link = some (.queue q))
    (found : (m.effect s).procs r = some n) (rests : Rests p n) :
    recorded (Event.sentBy q r) (m.events s) = [] ∧
      recorded (Event.putBy q r) (m.events s) = [] := by
  by_cases transfers : m.Transfers q
  swap
  · have others := m.events_others applies transfers
    exact ⟨Event.recorded_of_others others Event.sentBy_of_other,
      Event.recorded_of_others others Event.putBy_of_other⟩
  obtain ⟨state, -⟩ := (ok.procs.linked r p record).state_of_link link
  have suspended {c : Process} (onCpu : s.OnCpu c) : s.running ≠ r := by
    rintro rfl
    cases onCpu.1.symm.trans record
    cases onCpu.2.symm.trans state
  cases m with
  | awaitSend p fid x message =>
      simp [Move.events, suspended applies.1]
  | put x c p message =>
      simp [Move.events, suspended applies.2.2.1]
  | handOver x c message sender r' p' restored =>
      simp [Move.events, suspended applies.2.2.2.2.1]
  | take | receive => simp [Move.events]
  | refill x c r' p' =>
      have other : r' ≠ r := by
        rintro rfl
        cases found.symm.trans (Function.update_self ..)
        cases rests.link.trans link
      simp [Move.events, other]
  | _ => exact absurd transfers id

/-- A message that a process begins to send is put by the same move, or waits in
its record until a move puts it. -/
theorem Handing.settles (handing : Handing b a q s) (within : Within b a s)
    (settled : Settled b) (applies : m.Guard s) (permitted : m.By b a s) (kept : a.Keeps b q)
    {r : ProcRef} {p n : Process} (record : s.procs r = some p)
    (found : (m.effect s).procs r = some n) (living : n.Living) :
    p.unsent q (waitsToSend b a r p) ++
        recorded (Event.sentBy q r) (m.events s) =
      recorded (Event.putBy q r) (m.events s) ++
        n.unsent q (waitsToSend b a r n) := by
  have sound := within.sound
  have ok := sound.coherent
  rw [within.waitsToSend_eq applies record found]
  by_cases wasLinked : p.link = some (.queue q)
  · rcases m.rests_after ok applies record wasLinked with
      ⟨c, isRecord, rests⟩ | dislodges
    · cases found.symm.trans isRecord
      obtain ⟨notSent, notPut⟩ :=
        recorded_of_rests ok applies record wasLinked found rests
      rw [notSent, notPut, Process.unsent, Process.unsent, rests.link,
        rests.message, List.append_nil, List.nil_append]
    · obtain ⟨content, has⟩ := ok.hasQueue_of_link record wasLinked
      cases dislodges with
      | flush =>
          obtain ⟨fid, designates, isCall⟩ := permitted
          exact absurd designates (kept.2 fid isCall)
      | refill c =>
          cases applies.1.2.symm.trans has.2
          obtain ⟨-, user, positive, -⟩ := applies
          obtain ⟨⟨trace, rfl⟩, -⟩ := permitted
          have suspended : r ≠ b.running :=
            settled.suspended_of_link record wasLinked
          have sends : p.stack = .psend r q := by
            rcases handing.ok.waiting content r p has record suspended
              wasLinked with ⟨-, isEmpty | ⟨_, _, _, mode, -⟩⟩ | ⟨sends, -⟩
            · omega
            · cases user.symm.trans mode
            · exact sends
          cases found.symm.trans (Function.update_self ..)
          simp [Move.events, Process.unsent, waitsToSend, suspended, sends,
            wasLinked, Context.isPsend]
      | handOver c message sender restored =>
          obtain ⟨hasC, -, isEmpty, next, onCpu, -⟩ := applies
          cases hasC.2.symm.trans has.2
          obtain ⟨rfl, -⟩ := permitted
          have distinct := ok.running_ne_of_nextOut next onCpu
          have receives : p.stack.isPsend = false := by
            rcases handing.ok.waiting content r p has record distinct.symm
              wasLinked with ⟨⟨message, receives⟩, -⟩ | ⟨-, full, -⟩
            · rw [receives]
              rfl
            · obtain ⟨ring, shows_⟩ := handing.ok.shows_ content has
              have positive := ring.capacity_pos
              rw [← shows_.capacity] at positive
              omega
          rw [Move.handOver_procs distinct, if_pos rfl,
            Option.some.injEq] at found
          rw [← found]
          simp [Move.events, Process.unsent, waitsToSend, distinct,
            distinct.symm, receives]
      | endProcess pid how father =>
          cases father with
          | none =>
              cases found.symm.trans (Function.update_self ..)
              exact absurd rfl living.1
          | some father =>
              obtain ⟨f, content⟩ := father
              obtain ⟨-, -, -, -, distinct, isFather, link, -⟩ := applies
              have other : r ≠ f := by
                rintro rfl
                cases isFather.symm.trans record
                cases link.symm.trans wasLinked
              rw [Move.endProcess_procs distinct, if_neg other, if_pos rfl,
                Option.some.injEq] at found
              exact absurd (found ▸ rfl) living.1
      | endFatherless pid how =>
          cases found.symm.trans (Function.update_self ..)
          exact absurd rfl living.2
  · rw [Process.unsent_nil wasLinked, List.nil_append]
    by_cases linked : n.link = some (.queue q)
    · obtain ⟨state, -⟩ := ((sound.move applies).coherent.procs.linked r n
        found).state_of_link linked
      rcases m.blocked_before ok applies found (by simp [state, State.Blocks])
        with ⟨c, isRecord, rests⟩ | ⟨suspends, isRunning, -⟩
      · cases record.symm.trans isRecord
        exact absurd (rests.link.symm.trans linked) wasLinked
      · rw [state] at suspends
        cases m with
        | awaitSend c fid x message =>
            obtain ⟨rfl, -, rfl⟩ := permitted
            subst isRunning
            cases found.symm.trans (Function.update_self ..)
            cases linked
            simp [Move.events, Process.unsent, waitsToSend, Action.isPsend]
        | awaitReceive c fid x =>
            obtain ⟨rfl, -, message, rfl⟩ := permitted
            subst isRunning
            simp [Move.events, Process.unsent, waitsToSend, Action.isPsend]
        | _ => cases suspends
    · rw [Process.unsent_nil linked, List.append_nil]
      by_cases transfers : m.Transfers q
      swap
      · have others := m.events_others applies transfers
        rw [Event.recorded_of_others others Event.sentBy_of_other,
          Event.recorded_of_others others Event.putBy_of_other]
      cases m with
      | awaitSend c fid x message =>
          cases transfers
          have other : s.running ≠ r := by
            rintro rfl
            cases found.symm.trans (Function.update_self ..)
            exact linked rfl
          simp [Move.events, other]
      | put | handOver | take | receive => simp [Move.events]
      | refill x c r' p' =>
          cases transfers
          have next := applies.2.2.2.2
          have other : r' ≠ r := by
            rintro rfl
            cases next.2.symm.trans record
            exact wasLinked (ok.link_of_nextOut next)
          simp [Move.events, other]
      | _ => exact absurd transfers id

end Moves

/-! ## Runs -/

section Runs

variable {s t : KState} {q : QueueRef}

/-- A run rule for what the events since `s` say: `J` holds between the moves of
a step, and `I` between steps. -/
theorem Tidy.run_since (tidy : Tidy q s) (settled : Settled s)
    {meets : KState → Action → Prop} (run : Run meets s t)
    (regular : ∀ b a, meets b a → a.Regular)
    {I : List Event → KState → Prop}
    {J : KState → Action → List Event → KState → Prop}
    (enter : ∀ b a since, Settled b → I since b → J b a since b)
    (keep : ∀ b a u (m : Move) since, meets b a → Settled b → Within b a u →
      Handing b a q u → m.By b a u → m.Guard u → J b a since u →
        J b a (m.events u ++ since) (m.effect u))
    (leave : ∀ b a c since, meets b a → Settled b → Tidy q b →
      step a b = .next c → J b a since c → I since c)
    (start : I [] s) :
    ∃ since, t.trace = since ++ s.trace ∧ I since t := by
  induction run with
  | refl => exact ⟨[], rfl, start⟩
  | step front met next ih =>
      rename_i b c a
      obtain ⟨past, trace, before⟩ := ih
      have settledB := front.settled settled
      have tidyB := tidy.run settled (front.mono regular)
      have path := (settledB.stepped next).path
      obtain ⟨within, handing⟩ :=
        tidyB.within settledB (regular b a met) next (.refl b)
      have all : Within b a c ∧ Handing b a q c ∧
          ∃ since, c.trace = since ++ s.trace ∧ J b a since c := by
        refine path.keeps (I := fun u => Within b a u ∧ Handing b a q u ∧
          ∃ since, u.trace = since ++ s.trace ∧ J b a since u) ?_
          ⟨within, handing, past, trace, enter b a past settledB before⟩
        rintro m u permitted applies ⟨within, handing, since, traceU, kept⟩
        refine ⟨within.move permitted applies,
          handing.move within applies permitted, m.events u ++ since, ?_,
          keep b a u m since met settledB within handing permitted applies kept⟩
        rw [m.trace_effect, traceU, List.append_assoc]
      obtain ⟨-, -, since, traceC, kept⟩ := all
      exact ⟨since, traceC, leave b a c since met settledB tidyB next kept⟩

/-- The process that entered the kernel with another call than `psend` and
`preceive` does not wait in the list of a queue when the step ends. -/
theorem Settled.unqueued_after (settled : Settled s) {a : Action}
    (next : step a s = .next t)
    (notSend : ∀ fid message, a ≠ .call (.psend fid message))
    (notReceive : ∀ fid message, a ≠ .call (.preceive fid message))
    {n : Process} (found : t.procs s.running = some n) :
    n.link ≠ some (.queue q) := by
  refine settled.keeps next (I := fun u => ∀ n, u.procs s.running = some n →
    n.link ≠ some (.queue q)) ?_ ?_ n found
  · intro u m sound permitted applies before n found link
    have admits : m.suspends ≠ some .inMsgqueue := by
      cases m with
      | awaitSend p fid x message => exact absurd permitted.2.2 (notSend _ _)
      | awaitReceive p fid x =>
          obtain ⟨-, -, message, isCall⟩ := permitted
          exact absurd isCall (notReceive _ _)
      | _ => simp [Move.suspends]
    obtain ⟨p, record, wasLinked⟩ := m.linked_before sound.coherent
      (sound.move applies).coherent applies admits found link
    exact before p record wasLinked
  · intro p record link
    exact settled.suspended_of_link record link rfl

/-- When a step ends, the stack of a process that waits in the list of `q` says
whether it waits to send. -/
theorem Settled.waitsToSend_after (settled : Settled s) {a : Action}
    (next : step a s = .next t) {r : ProcRef} {p : Process}
    (record : t.procs r = some p) (link : p.link = some (.queue q)) :
    waitsToSend s a r p = p.stack.isPsend := by
  unfold waitsToSend
  split
  swap
  · rfl
  rename_i isCaller
  subst isCaller
  have settledT := settled.after next
  have suspended := settledT.suspended_of_link record link
  obtain ⟨state, -⟩ :=
    (settledT.sound.coherent.procs.linked _ p record).state_of_link link
  have living : p.Living := by simp [Process.Living, state]
  have inKernel : ∃ k, t.mode = .kernel k := by
    have stays : Stays s t := settled.keeps next (I := Stays s)
      (fun u m sound permitted applies stays =>
        stays.move sound.coherent permitted applies) (.inl rfl)
    rcases stays with same | ⟨-, inKernel⟩
    · exact absurd same.symm suspended
    · exact inKernel
  rcases (settledT.sound.context.blocked _ p record living suspended).queue q
    link with sends | ⟨pointer, receives⟩
  · rw [sends]
    by_cases isSend : ∃ fid message, a = .call (.psend fid message)
    · obtain ⟨fid, message, rfl⟩ := isSend
      rfl
    by_cases isReceive : ∃ fid message, a = .call (.preceive fid message)
    · obtain ⟨fid, message, rfl⟩ := isReceive
      have kind := (parks_preceive fid message).after_step next inKernel record
      rw [sends] at kind
      exact kind.elim
    · exact absurd link (settled.unqueued_after next
        (fun fid message same => isSend ⟨fid, message, same⟩)
        (fun fid message same => isReceive ⟨fid, message, same⟩) record)
  · rw [receives]
    by_cases isSend : ∃ fid message, a = .call (.psend fid message)
    · obtain ⟨fid, message, rfl⟩ := isSend
      have kind := (parks_psend fid message).after_step next inKernel record
      rw [receives] at kind
      exact kind.elim
    · cases a with
      | call c =>
          cases c with
          | psend fid message => exact absurd ⟨fid, message, rfl⟩ isSend
          | _ => rfl
      | _ => rfl

/-- Each message that `r` began to send was put once, or waits in its record. -/
def Booked (q : QueueRef) (r : ProcRef) (since : List Event) (s : KState) :
    Prop :=
  ∀ p, s.procs r = some p → p.Living →
    recorded (Event.sentBy q r) since =
      recorded (Event.putBy q r) since ++ p.unsent q p.stack.isPsend

/-- The messages of the process on the processor are booked from now on. -/
theorem Tidy.booked (tidy : Tidy q s) (settled : Settled s)
    (run : Run (fun b a => a.Keeps b q) s t) :
    ∃ since, t.trace = since ++ s.trace ∧ Booked q s.running since t := by
  obtain ⟨current, onCpu⟩ := settled.onCpu
  have known := settled.sound.coherent.lt_nextRef onCpu.1
  suffices rule : ∃ since, t.trace = since ++ s.trace ∧
      s.running < t.nextRef ∧ Booked q s.running since t by
    obtain ⟨since, trace, -, booked⟩ := rule
    exact ⟨since, trace, booked⟩
  refine tidy.run_since settled run (fun _ _ kept => kept.1)
    (I := fun since u => s.running < u.nextRef ∧ Booked q s.running since u)
    (J := fun b a since u => s.running < u.nextRef ∧
      ∀ p, u.procs s.running = some p → p.Living →
        recorded (Event.sentBy q s.running) since =
          recorded (Event.putBy q s.running) since ++
            p.unsent q (waitsToSend b a s.running p)) ?_ ?_ ?_ ⟨known, ?_⟩
  · rintro b a since settledB ⟨old, before⟩
    refine ⟨old, fun p record living => ?_⟩
    rw [before p record living]
    by_cases isCaller : s.running = b.running
    · have unlinked : p.link ≠ some (.queue q) := fun link =>
        settledB.suspended_of_link record link isCaller
      rw [Process.unsent_nil unlinked, Process.unsent_nil unlinked]
    · rw [waitsToSend, if_neg isCaller]
  · rintro b a u m since kept settledB within handing permitted applies
      ⟨old, before⟩
    have ok := within.sound.coherent
    refine ⟨old.trans_le (m.nextRef_le u), fun n found living => ?_⟩
    obtain ⟨p, record, -⟩ := m.carries_after ok applies found old.ne
    have settles := handing.settles within settledB applies permitted kept
      record found living
    rw [recorded_append, recorded_append, before p record
      (m.living_before ok applies record found living), List.append_assoc,
      settles, List.append_assoc]
  · rintro b a c since - settledB - next ⟨old, after⟩
    refine ⟨old, fun p record living => ?_⟩
    rw [after p record living]
    by_cases link : p.link = some (.queue q)
    · rw [settledB.waitsToSend_after next record link]
    · rw [Process.unsent_nil link, Process.unsent_nil link]
  · intro p record living
    have unlinked : p.link ≠ some (.queue q) := fun link =>
      settled.suspended_of_link record link rfl
    rw [Process.unsent_nil unlinked]
    rfl

end Runs

end Nebulea
