import Nebulea.MessageQueueRuns

/-!
# Receivers whose message cannot be stored

`preceive` stores the message before it updates the queue, so a pointer that
faults ends the process with the message still counted.  The queue was sound
before a plain receipt and still is.  A hand-over is different: `psend` has
counted the message for a receiver that never takes it, and every other process
of the list now waits for a message although one is stored.
-/

namespace Nebulea

open ExceptState

/-- A process receives a message of `q` through a pointer that faults, at once
or when `psend` hands it over, and is ended; `u` is the state in which the next
process runs. -/
inductive FaultsReceiving (s : KState) (q : QueueRef)
    (content : MessageQueue) : KState → Prop
  | atOnce {fid : Int} {message : UserPtr} {t u : KState}
      (designates : queueOf s fid = some q)
      (record : s.queues q = some content) (stored : 0 < content.nbMsg)
      (notNull : message.addr ≠ 0) (faults : message.faults = true)
      (receives : step (.call (.preceive fid message)) s = .next t)
      (ends : step .resume t = .next u) : FaultsReceiving s q content u
  | handedOver {fid value : Int} {message : UserPtr} {r : ProcRef}
      {p : Process} {t v u : KState}
      (designates : queueOf s fid = some q)
      (record : s.queues q = some content) (empty : content.nbMsg = 0)
      (next : s.NextOut (.queue q) r p)
      (waits : p.stack = .preceive r q message)
      (notNull : message.addr ≠ 0) (faults : message.faults = true)
      (sends : step (.call (.psend fid value)) s = .next t)
      (resumes : step .resume t = .next v)
      (ends : step .resume v = .next u) : FaultsReceiving s q content u

/-! ## A queue while other processes run -/

/-- The record of the queue `x` is in order, and the processes of its list wait
off the processor for what the buffer says. -/
structure AtRest (s : KState) (x : QueueRef) : Prop where
  shows_ : ∀ content, s.HasQueue x content → ∃ ring, content.Shows ring
  waiting : ∀ content r p, s.HasQueue x content → s.procs r = some p →
    p.link = some (.queue x) → r ≠ s.running ∧
      (content.nbMsg = 0 ∧ p.stack.isPreceive = true ∨
        content.nbMsg = content.capacity ∧ p.stack.isPsend = true)

/-- A receiver waits in the list of `x` although a message is stored. -/
def Overlooked (s : KState) (x : QueueRef) : Prop :=
  ∃ r p content, s.procs r = some p ∧ r ≠ s.running ∧
    p.link = some (.queue x) ∧ p.stack.isPreceive = true ∧
    s.HasQueue x content ∧ 0 < content.nbMsg

section Rest

variable {s : KState} {x : QueueRef} {content : MessageQueue}

theorem atRest_of_queueSound (settled : Settled s)
    (sound : ∀ old, s.HasQueue x old → s.QueueSound x old) : AtRest s x where
  shows_ old has := (sound old has).shows_
  waiting old r p has record link := by
    have member :=
      settled.sound.coherent.lists.mem_of_link record link
    refine ⟨settled.suspended_of_link record link, ?_⟩
    rcases (sound old has).waiting (List.ne_nil_of_mem member) with
      ⟨isEmpty, receive⟩ | ⟨full, send⟩
    · obtain ⟨c, isRecord, -, -, receives⟩ := receive r member
      cases record.symm.trans isRecord
      exact .inl ⟨isEmpty, receives⟩
    · obtain ⟨c, isRecord, -, -, sends⟩ := send r member
      cases record.symm.trans isRecord
      exact .inr ⟨full, sends⟩

theorem AtRest.queueSound (rest : AtRest s x) (settled : Settled s)
    (has : s.HasQueue x content) : s.QueueSound x content := by
  refine KState.queueSound_of_waits (rest.shows_ content has) ?_
  intro r member
  obtain ⟨p, record, link⟩ := settled.sound.coherent.record_of_mem member
  obtain ⟨state, -⟩ :=
    (settled.sound.coherent.procs.linked r p record).state_of_link link
  rcases (rest.waiting content r p has record link).2 with
    ⟨isEmpty, receives⟩ | ⟨full, sends⟩
  · exact .inl ⟨isEmpty, p, record, state, link, receives⟩
  · exact .inr ⟨full, p, record, state, link, sends⟩

/-- A queue with an overlooked receiver is not sound. -/
theorem Overlooked.not_queueSound (overlooked : Overlooked s x)
    (settled : Settled s) :
    ∃ content, s.HasQueue x content ∧ ¬ s.QueueSound x content := by
  obtain ⟨r, p, content, record, -, link, receives, has, stored⟩ := overlooked
  refine ⟨content, has, ?_⟩
  intro sound
  have member := settled.sound.coherent.lists.mem_of_link record link
  rcases sound.waiting (List.ne_nil_of_mem member) with
    ⟨isEmpty, -⟩ | ⟨-, send⟩
  · omega
  · obtain ⟨c, isRecord, -, -, sends⟩ := send r member
    cases record.symm.trans isRecord
    cases stack : p.stack <;> simp [stack, Context.isPreceive,
      Context.isPsend] at receives sends

end Rest

/-! ## Moves that leave a queue alone -/

/-- The move changes neither the queue `x` nor the processes that wait in its
list. -/
structure Move.Spares (s : KState) (x : QueueRef) (m : Move) : Prop where
  admits : m.suspends ≠ some .inMsgqueue
  rewrites : ∀ content, m.rewrites x content = content
  deletes : ∀ fid, m ≠ .deleteQueue fid x
  dislodges : ∀ y p, y ≠ s.running → ¬ m.Dislodges y p x

section Moves

variable {s : KState} {m : Move} {x : QueueRef}

/-- A process of the list of `x` was in it before. -/
theorem Move.linked_before (ok : Coherent s) (after : Coherent (m.effect s))
    (applies : m.Guard s) (admits : m.suspends ≠ some .inMsgqueue)
    {r : ProcRef} {n : Process} (found : (m.effect s).procs r = some n)
    (link : n.link = some (.queue x)) :
    ∃ p, s.procs r = some p ∧ p.link = some (.queue x) := by
  obtain ⟨state, -⟩ := (after.procs.linked r n found).state_of_link link
  rcases m.blocked_before ok applies found (by simp [state, State.Blocks])
    with ⟨p, record, rests⟩ | ⟨suspends, -⟩
  · exact ⟨p, record, rests.link.symm.trans link⟩
  · rw [state] at suspends
    exact absurd suspends admits

theorem AtRest.move (rest : AtRest s x) (sound : Sound s)
    (applies : m.Guard s) (spares : m.Spares s x) :
    AtRest (m.effect s) x := by
  have ok := sound.coherent
  constructor
  · intro n has
    rcases m.queue_before applies has with
      ⟨content, before, rfl⟩ | ⟨fid, capacity, rfl, -, rfl⟩
    · rw [spares.rewrites]
      exact rest.shows_ content before
    · exact ⟨_, .new fid applies.2.2.2 _⟩
  · intro content r n has found link
    obtain ⟨p, record, wasLinked⟩ :=
      m.linked_before ok (sound.move applies).coherent applies spares.admits
        found link
    obtain ⟨old, hasOld, rfl⟩ :=
      m.rewritten_of_link ok applies record wasLinked has
    rw [spares.rewrites]
    obtain ⟨suspended, waits⟩ := rest.waiting old r p hasOld record wasLinked
    rcases m.queued_after ok applies record wasLinked suspended with
      ⟨c, isRecord, lingers, other⟩ | dislodged
    · cases found.symm.trans isRecord
      rw [lingers.stack]
      exact ⟨other, waits⟩
    · exact absurd dislodged (spares.dislodges r p suspended)

theorem Overlooked.move (overlooked : Overlooked s x) (sound : Sound s)
    (applies : m.Guard s) (spares : m.Spares s x) :
    Overlooked (m.effect s) x := by
  have ok := sound.coherent
  obtain ⟨r, p, content, record, suspended, link, receives, has, stored⟩ :=
    overlooked
  obtain ⟨n, hasN⟩ := m.hasQueue_effect ok applies has spares.deletes
  obtain ⟨old, hasOld, rfl⟩ := m.rewritten_of_link ok applies record link hasN
  cases has.2.symm.trans hasOld.2
  rw [spares.rewrites] at hasN
  rcases m.queued_after ok applies record link suspended with
    ⟨c, isRecord, lingers, other⟩ | dislodged
  · exact ⟨r, c, content, isRecord, other, lingers.link.trans link,
      lingers.stack ▸ receives, hasN, stored⟩
  · exact absurd dislodged (spares.dislodges r p suspended)

/-- `exit(0)` for a page fault leaves the queues alone. -/
theorem Move.spares_of_pageFault {v w : KState} (mode : v.mode = .pageFault)
    (permitted : m.By v .resume w) (applies : m.Guard w) (x : QueueRef) :
    m.Spares w x := by
  constructor
  · cases m with
    | awaitSend p fid y message => cases permitted.2.2
    | awaitReceive p fid y =>
        obtain ⟨-, -, message, isCall⟩ := permitted
        cases isCall
    | _ => simp [suspends]
  · intro content
    cases m with
    | resetQueue y c =>
        obtain ⟨fid, -, isCall⟩ := permitted
        cases isCall
    | put y c p message | handOver y c message sender r p restored =>
        obtain ⟨-, fid, -, isCall⟩ := permitted
        cases isCall
    | take y c | refill y c r p =>
        obtain ⟨-, fid, message, -, isCall⟩ := permitted
        cases isCall
    | receive r y c =>
        obtain ⟨-, ⟨message, inKernel⟩, -⟩ := applies
        cases (inKernel.symm.trans permitted).trans mode
    | _ => rfl
  · rintro fid rfl
    cases permitted.2
  · intro y p suspended dislodges
    cases dislodges with
    | flush =>
        obtain ⟨fid, -, isCall | isCall⟩ := permitted <;> cases isCall
    | refill content =>
        obtain ⟨-, fid, message, -, isCall⟩ := permitted
        cases isCall
    | handOver content message sender restored =>
        obtain ⟨-, fid, -, isCall⟩ := permitted
        cases isCall
    | endProcess pid how father =>
        obtain ⟨rfl, ended⟩ := permitted
        cases how with
        | exit retval => exact suspended ended.1
        | kill => cases ended.1
    | endFatherless pid how =>
        obtain ⟨rfl, ended⟩ := permitted
        cases how with
        | exit retval => exact suspended ended.1
        | kill => cases ended.1

end Moves

/-! ## The steps of a faulting receiver -/

section Steps

variable {s t u v : KState} {q : QueueRef} {content : MessageQueue}
variable {fid : Int} {message : UserPtr}

/-- `storeMessage` faults before anything is changed. -/
theorem wp_storeMessage_faults {post : Unit → KState → Prop}
    {fault : Fault → KState → Prop} (notNull : message.addr ≠ 0)
    (faults : message.faults = true) (value : Int) :
    wp (storeMessage message value) post fault s = fault .page s := by
  rw [storeMessage, wp_ite, if_pos notNull, wp_storeUser, if_pos faults]

/-- A receiver that finds a message faults before it updates the queue. -/
theorem fault_of_preceive (settled : Settled s)
    (designates : queueOf s fid = some q) (record : s.queues q = some content)
    (stored : 0 < content.nbMsg) (notNull : message.addr ≠ 0)
    (faults : message.faults = true)
    (receives : step (.call (.preceive fid message)) s = .next t) :
    t = { s with mode := .pageFault } := by
  obtain ⟨current, onCpu⟩ := settled.onCpu
  have self := settled.sound.hasPid_current onCpu
  refine post_of_step (fun t => t = { s with mode := .pageFault })
    (by rw [mode_of_call receives]; rfl) receives ?_
  rw [syscall, preceive, wp_bind, wp_get, designates]
  simp only [wp_bind, wp_get]
  rw [wp_entry self.1, wp_bind, wp_derefQueue record, wp_ite, if_pos stored,
    wp_bind, wp_storeMessage_faults notNull faults]
  exact fun _ => rfl

/-- A sender that finds a receiver hands its message over. -/
theorem handOver_of_psend (settled : Settled s) {value : Int}
    (designates : queueOf s fid = some q) (record : s.queues q = some content)
    (empty : content.nbMsg = 0) (notEmpty : s.lists (.queue q) ≠ [])
    (sends : step (.call (.psend fid value)) s = .next t) :
    ∃ sender r p restored,
      (Move.handOver q content value sender r p restored).Guard s ∧
        t = (Move.handOver q content value sender r p restored).effect s := by
  have user := mode_of_call sends
  obtain ⟨sender, onCpu⟩ := settled.onCpu
  have self := settled.sound.hasPid_current onCpu
  obtain ⟨-, -, entry, -⟩ := exists_of_queueOf settled.sound.coherent designates
  have has : s.HasQueue q content := ⟨⟨fid, entry⟩, record⟩
  have recordThen : (s.addressed sender q value).queues q = some content :=
    record
  refine post_of_step (fun t => ∃ sender r p restored,
      (Move.handOver q content value sender r p restored).Guard s ∧
        t = (Move.handOver q content value sender r p restored).effect s)
    (by rw [user]; rfl) sends ?_
  rw [syscall, psend, wp_bind, wp_get, designates]
  simp only [wp_bind, wp_get]
  rw [wp_entry self.1, wp_bind, wp_modifyProc _ self.2, wp_bind, wp_emit]
  change wp _ _ _ (s.addressed sender q value)
  rw [wp_bind, wp_derefQueue recordThen, wp_bind, wp_get, wp_ite,
    if_pos ⟨empty, notEmpty⟩, wp_bind, wp_modifyQueue _ recordThen, wp_bind,
    wp_emit]
  refine wp_handOver settled.sound onCpu user has empty notEmpty ?_ ?_
  · rintro r p u - - isPage
    cases isPage
  · intro r p restored applies
    exact ⟨sender, r, p, restored, applies, rfl⟩

/-- A receiver that was handed a message faults before it takes it. -/
theorem fault_of_resume {r : ProcRef} {p : Process}
    (mode : t.mode = .kernel (.preceive r q message))
    (record : t.procs r = some p) (clear : p.skipMessage = false)
    (has : t.HasQueue q content) (notNull : message.addr ≠ 0)
    (faults : message.faults = true) (resumes : step .resume t = .next v) :
    v = { t with mode := .pageFault } := by
  refine post_of_step (fun v => v = { t with mode := .pageFault })
    (by rw [mode]; rfl) resumes ?_
  rw [resume, preceiveTail, wp_bind, wp_derefProc record, wp_ite,
    if_neg (by simp [clear]), wp_bind, wp_derefQueue has.2, wp_bind,
    wp_storeMessage_faults notNull faults]
  exact fun _ => rfl

/-- The process that faulted is ended without a change to a queue. -/
theorem AtRest.ended (settled : Settled v) (mode : v.mode = .pageFault)
    {x : QueueRef} (rest : AtRest v x) (ends : step .resume v = .next u) :
    AtRest u x :=
  settled.keeps ends (I := fun u => AtRest u x)
    (fun _ _ sound permitted applies rest =>
      rest.move sound applies
        (Move.spares_of_pageFault mode permitted applies x)) rest

theorem Overlooked.ended (settled : Settled v) (mode : v.mode = .pageFault)
    {x : QueueRef} (overlooked : Overlooked v x)
    (ends : step .resume v = .next u) : Overlooked u x :=
  settled.keeps ends (I := fun u => Overlooked u x)
    (fun _ _ sound permitted applies overlooked =>
      overlooked.move sound applies
        (Move.spares_of_pageFault mode permitted applies x)) overlooked

/-- A hand-over leaves the queues at rest, but for receivers that go on
waiting. -/
theorem AtRest.handOver {x : QueueRef} {value : Int} {sender p : Process}
    {r : ProcRef} {restored : Context} (rest : AtRest s x) (sound : Sound s)
    (applies : (Move.handOver q content value sender r p restored).Guard s)
    (alone : q = x → s.lists (.queue q) = [r]) :
    AtRest ((Move.handOver q content value sender r p restored).effect s)
      x := by
  have ok := sound.coherent
  by_cases same : q = x
  swap
  · refine rest.move sound applies ⟨by simp [Move.suspends], ?_, ?_, ?_⟩
    · intro old
      rw [Move.rewrites, if_neg same]
    · rintro fid isDelete
      cases isDelete
    · intro y n _ dislodges
      cases dislodges
      exact same rfl
  subst same
  have guard := applies
  obtain ⟨has, -, empty, next, onCpu, -⟩ := guard
  constructor
  · intro n hasN
    rcases Move.queue_before applies hasN with
      ⟨old, before, rfl⟩ | ⟨fid, capacity, isNew, -⟩
    · cases has.2.symm.trans before.2
      obtain ⟨ring, shows_⟩ := rest.shows_ content has
      have room : ring.count < ring.capacity := by
        rw [← shows_.nbMsg, empty]
        exact ring.capacity_pos
      rw [Move.rewrites, if_pos rfl]
      exact ⟨_, shows_.push room value⟩
    · cases isNew
  · intro n y c _ found link
    obtain ⟨old, record, wasLinked⟩ := Move.linked_before ok
      (sound.move applies).coherent applies (by simp [Move.suspends]) found link
    have member := ok.lists.mem_of_link record wasLinked
    rw [alone rfl, List.mem_singleton] at member
    rw [member, Move.handOver_procs (ok.running_ne_of_nextOut next onCpu),
      if_pos rfl, Option.some.injEq] at found
    cases found
    cases link

/-- Every receiver that goes on waiting is overlooked. -/
theorem overlooked_of_handOver {value : Int} {sender p : Process}
    {r y : ProcRef} {restored : Context} (settled : Settled s)
    (sound : s.QueueSound q content)
    (applies : (Move.handOver q content value sender r p restored).Guard s)
    (member : y ∈ s.lists (.queue q)) (other : y ≠ r) :
    Overlooked ((Move.handOver q content value sender r p restored).effect s)
      q := by
  have ok := settled.sound.coherent
  have has := applies.1
  have empty := applies.2.2.1
  have positive : 0 < content.capacity := by
    obtain ⟨low, high⟩ := sound.tail
    omega
  obtain ⟨n, record, -, link, receives⟩ :
      s.BlockedOn q Context.isPreceive y := by
    rcases sound.waiting (List.ne_nil_of_mem member) with
      ⟨-, receive⟩ | ⟨full, -⟩
    · exact receive y member
    · omega
  have suspended := settled.suspended_of_link record link
  obtain ⟨new, hasNew⟩ :=
    Move.hasQueue_effect ok applies has fun fid isDelete => by cases isDelete
  obtain ⟨old, hasOld, rfl⟩ :=
    Move.rewritten_of_link ok applies record link hasNew
  cases has.2.symm.trans hasOld.2
  have stored : 0 < (content.push value).nbMsg := by
    change 0 < content.nbMsg + 1
    omega
  rw [Move.rewrites, if_pos rfl] at hasNew
  rcases Move.queued_after ok applies record link suspended with
    ⟨c, isRecord, lingers, away⟩ | dislodges
  · exact ⟨y, c, _, isRecord, away, lingers.link.trans link,
      lingers.stack ▸ receives, hasNew, stored⟩
  · cases dislodges
    exact absurd rfl other

/-- A receiver that is handed a message it cannot store is ended in the state
that the hand-over led to. -/
theorem handedOver_faults {value : Int} {r : ProcRef} {p : Process}
    (settled : Settled s) (designates : queueOf s fid = some q)
    (record : s.queues q = some content) (empty : content.nbMsg = 0)
    (next : s.NextOut (.queue q) r p) (waits : p.stack = .preceive r q message)
    (notNull : message.addr ≠ 0) (faults : message.faults = true)
    (sends : step (.call (.psend fid value)) s = .next t)
    (resumes : step .resume t = .next v) :
    ∃ sender restored,
      (Move.handOver q content value sender r p restored).Guard s ∧
        v = { (Move.handOver q content value sender r p restored).effect s with
          mode := .pageFault } := by
  have ok := settled.sound.coherent
  have notEmpty : s.lists (.queue q) ≠ [] :=
    List.ne_nil_of_mem (List.mem_of_getLast? next.1)
  obtain ⟨sender, r', p', restored, applies, rfl⟩ :=
    handOver_of_psend settled designates record empty notEmpty sends
  obtain ⟨has, -, -, next', onCpu, registers⟩ := id applies
  cases next.1.symm.trans next'.1
  cases next.2.symm.trans next'.2
  have link := ok.link_of_nextOut next
  have suspended := settled.suspended_of_link next.2 link
  have state := ok.inMsgqueue_of_nextOut next
  have isRestored : restored = .preceive r q message :=
    (settled.sound.context.saved r p next.2 (by simp [state]) suspended _
      registers).trans waits
  have clear : p.skipMessage = false := by
    cases isSet : p.skipMessage with
    | false => rfl
    | true =>
        have activable := (settled.sound.skip r p next.2
          (by simp [Process.Living, state]) isSet).2.1 suspended
        cases state.symm.trans activable
  have elected := Move.handOver_procs (q := q) (c := content) (m := value)
    (n := sender) (p := p) (k := restored)
    (ok.running_ne_of_nextOut next onCpu) r
  rw [if_pos rfl] at elected
  obtain ⟨new, hasNew⟩ :=
    Move.hasQueue_effect ok applies has fun fid isDelete => by cases isDelete
  refine ⟨sender, restored, applies, ?_⟩
  exact fault_of_resume (by rw [← isRestored]; rfl) elected clear hasNew
    notNull faults resumes

/-- Ending a receiver whose pointer faults keeps every sound queue sound exactly
when the receiver found its message at once or was the only one to wait. -/
theorem faulting_receiver_sound_iff (settled : Settled s)
    (sound : s.QueueSound q content) (faulted : FaultsReceiving s q content u) :
    (∀ x, (∀ old, s.HasQueue x old → s.QueueSound x old) →
      ∀ new, u.HasQueue x new → u.QueueSound x new) ↔
      0 < content.nbMsg ∨ (s.lists (.queue q)).length = 1 := by
  have ok := settled.sound.coherent
  cases faulted with
  | atOnce designates record stored notNull faults receives ends =>
      have isFault := fault_of_preceive settled designates record stored
        notNull faults receives
      have settledT := settled.after receives
      subst isFault
      refine ⟨fun _ => .inl stored, fun _ x before new has => ?_⟩
      obtain ⟨shows_, waiting⟩ := atRest_of_queueSound settled before
      have rest : AtRest { s with mode := .pageFault } x := ⟨shows_, waiting⟩
      exact (rest.ended settledT rfl ends).queueSound (settledT.after ends) has
  | handedOver designates record empty next waits notNull faults sends resumes
      ends =>
      rename_i fid value message r p t v
      have settledV := (settled.after sends).after resumes
      obtain ⟨sender, restored, applies, rfl⟩ := handedOver_faults settled
        designates record empty next waits notNull faults sends resumes
      obtain ⟨front, isList⟩ := List.getLast?_eq_some_iff.mp next.1
      cases front with
      | nil =>
          -- the only receiver is gone
          refine ⟨fun _ => .inr (by rw [isList]; rfl),
            fun _ x before new has => ?_⟩
          have handed := (atRest_of_queueSound settled before).handOver
            settled.sound applies fun _ => isList
          have rest : AtRest { (Move.handOver q content value sender r p
              restored).effect s with mode := .pageFault } x :=
            ⟨handed.shows_, handed.waiting⟩
          exact (rest.ended settledV rfl ends).queueSound
            (settledV.after ends) has
      | cons y others =>
          have member : y ∈ s.lists (.queue q) := by rw [isList]; simp
          have other : y ≠ r := by
            rintro rfl
            have nodup := ok.lists.nodup (.queue q)
            rw [isList] at nodup
            simp at nodup
          have overlooked :=
            overlooked_of_handOver settled sound applies member other
          have stays : Overlooked { (Move.handOver q content value sender r p
              restored).effect s with mode := .pageFault } q := overlooked
          obtain ⟨new, has, broken⟩ :=
            (stays.ended settledV rfl ends).not_queueSound
              (settledV.after ends)
          constructor
          · intro keeps
            refine absurd (keeps q ?_ new has) broken
            intro old hasOld
            cases record.symm.trans hasOld.2
            exact sound
          · rintro (stored | alone)
            · omega
            · rw [isList] at alone
              simp at alone

/-- Two receivers wait for a message, the first of them with a pointer that
faults, and the process below them runs. -/
def twoReceivers : List Action :=
  firstTicks ++
    [.call (.pcreate 2),
      .call (.start "a" 4096 200), .resume,
      .call (.preceive 0 ⟨0x20000000, true⟩), .resume,
      .call (.start "b" 4096 150), .resume,
      .call (.preceive 0 ⟨0x40000000, false⟩), .resume]

/-- The second receiver is overlooked when the first one is ended. -/
theorem twoReceivers_run :
    ∃ s content u new, Reachable s ∧ s.HasQueue 2 content ∧
      s.QueueSound 2 content ∧ FaultsReceiving s 2 content u ∧
      u.HasQueue 2 new ∧ 0 < new.nbMsg ∧ ¬ u.QueueSound 2 new := by
  obtain ⟨u, performed, -, checked⟩ := exists_of_runActions
    ["idle", "autotest", "a", "b"]
    (twoReceivers ++ ([.call (.psend 0 5)] ++ ([.resume] ++ [.resume])))
    (fun u => u.queueTable 0 == some 2 &&
      (u.queues 2).any fun new => 0 < new.nbMsg && !u.QueueSound 2 new)
    (by decide) (by decide) (by decide +kernel)
  rw [runActions_append, Option.bind_eq_some_iff] at performed
  obtain ⟨s, toS, performed⟩ := performed
  rw [runActions_append, Option.bind_eq_some_iff] at performed
  obtain ⟨t, sends, performed⟩ := performed
  rw [runActions_append, Option.bind_eq_some_iff] at performed
  obtain ⟨v, resumes, ends⟩ := performed
  have before := check_of_runActions toS
    (fun s => queueOf s 0 == some 2 && s.queueTable 0 == some 2 &&
      (s.lists (.queue 2)).getLast? == some 3 &&
      (s.queues 2).any (fun content =>
        content.nbMsg == 0 && s.QueueSound 2 content) &&
      (s.procs 3).any fun p =>
        p.stack == .preceive 3 2 ⟨0x20000000, true⟩) (by decide +kernel)
  simp only [Bool.and_eq_true, beq_iff_eq, Option.any_eq_true,
    decide_eq_true_eq] at before
  obtain ⟨⟨⟨⟨designates, entry⟩, last⟩, content, record, empty, sound⟩, p,
    found, waits⟩ := before
  simp only [Bool.and_eq_true, beq_iff_eq, Option.any_eq_true,
    decide_eq_true_eq, Bool.not_eq_true', decide_eq_false_iff_not] at checked
  obtain ⟨entryThen, new, recordThen, stored, broken⟩ := checked
  exact ⟨s, content, u, new, reachable_of_runActions (by decide) (by decide) toS,
    ⟨⟨0, entry⟩, record⟩, sound,
    .handedOver designates record empty ⟨last, found⟩ waits (by simp) rfl
      (step_of_runActions sends) (step_of_runActions resumes)
      (step_of_runActions ends),
    ⟨⟨0, entryThen⟩, recordThen⟩, stored, broken⟩

/-- A queue is not sound in the state in which the next process runs. -/
theorem faulting_receiver_leaves_unsound :
    ∃ s q content u new, Reachable s ∧ s.HasQueue q content ∧
      s.QueueSound q content ∧ FaultsReceiving s q content u ∧
      u.HasQueue q new ∧ 0 < new.nbMsg ∧ ¬ u.QueueSound q new := by
  obtain ⟨s, content, u, new, run⟩ := twoReceivers_run
  exact ⟨s, 2, content, u, new, run⟩

/-- In that run neither side of the equivalence holds. -/
theorem faulting_receiver_of_two :
    ∃ s content u, Reachable s ∧ s.QueueSound 2 content ∧
      FaultsReceiving s 2 content u ∧
      ((∀ x, (∀ old, s.HasQueue x old → s.QueueSound x old) →
        ∀ new, u.HasQueue x new → u.QueueSound x new) ↔
        0 < content.nbMsg ∨ (s.lists (.queue 2)).length = 1) := by
  obtain ⟨s, content, u, new, reached, -, sound, faulted, -⟩ :=
    twoReceivers_run
  exact ⟨s, content, u, reached, sound, faulted,
    faulting_receiver_sound_iff reached.settled sound faulted⟩

end Steps

end Nebulea
