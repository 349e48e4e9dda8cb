import Nebulea.QueueInvariant

/-!
# Message queues in runs without `start`

Whenever such a run is in user mode, the indices of every queue are in range
and agree, and the processes in its list all wait for the same thing: for a
message when the buffer is empty, for room when it is full.  So `pcount` tells
senders from receivers.
-/

namespace Nebulea

open ExceptState

/-- The rest of `preceive`. -/
def Context.isPreceive : Context → Bool
  | .preceive _ _ _ => true
  | _ => false

/-- The rest of `psend`, blocked on a full buffer. -/
def Context.isPsend : Context → Bool
  | .psend _ _ => true
  | _ => false

namespace KState

/-- The processor is in user mode and every other process was interrupted there
or has not run yet. -/
structure Outside (s : KState) : Prop where
  user : s.mode = .user
  others : ∀ r p, s.procs r = some p → p.Living → r ≠ s.running →
    p.stack = .fresh ∨ p.stack = .interrupted

/-- `r` is blocked in a call of this kind on the queue `q`. -/
def BlockedOn (s : KState) (q : QueueRef) (kind : Context → Bool)
    (r : ProcRef) : Prop :=
  ∃ p, s.procs r = some p ∧ p.state = .inMsgqueue ∧
    p.link = some (.queue q) ∧ kind p.stack = true

/-- The processes of the list of `q` that are blocked in a call of this
kind. -/
def blocked (s : KState) (q : QueueRef) (kind : Context → Bool) : Nat :=
  (s.lists (.queue q)).countP fun r =>
    (s.procs r).any fun p => kind p.stack

/-- The buffer and the waiting list of a queue agree. -/
structure QueueSound (s : KState) (q : QueueRef) (content : MessageQueue) :
    Prop where
  nbMsg : 0 ≤ content.nbMsg ∧ content.nbMsg ≤ content.capacity
  head : 0 ≤ content.head ∧ content.head < content.capacity
  tail : 0 ≤ content.tail ∧ content.tail < content.capacity
  position : content.head = (content.tail + content.nbMsg) % content.capacity
  waiting : s.lists (.queue q) ≠ [] →
    content.nbMsg = 0 ∧
        (∀ r ∈ s.lists (.queue q), s.BlockedOn q Context.isPreceive r) ∨
      content.nbMsg = content.capacity ∧
        ∀ r ∈ s.lists (.queue q), s.BlockedOn q Context.isPsend r

instance (s : KState) (q : QueueRef) (kind : Context → Bool) (r : ProcRef) :
    Decidable (s.BlockedOn q kind r) :=
  decidable_of_iff
    ((s.procs r).any fun p =>
      p.state = .inMsgqueue ∧ p.link = some (.queue q) ∧ kind p.stack = true)
    (by simp [BlockedOn, Option.any_eq_true])

instance (s : KState) (q : QueueRef) (content : MessageQueue) :
    Decidable (s.QueueSound q content) :=
  decidable_of_iff
    ((0 ≤ content.nbMsg ∧ content.nbMsg ≤ content.capacity) ∧
      (0 ≤ content.head ∧ content.head < content.capacity) ∧
      (0 ≤ content.tail ∧ content.tail < content.capacity) ∧
      content.head = (content.tail + content.nbMsg) % content.capacity ∧
      (s.lists (.queue q) ≠ [] →
        content.nbMsg = 0 ∧
            (∀ r ∈ s.lists (.queue q), s.BlockedOn q Context.isPreceive r) ∨
          content.nbMsg = content.capacity ∧
            ∀ r ∈ s.lists (.queue q), s.BlockedOn q Context.isPsend r))
    ⟨fun ⟨nbMsg, head, tail, position, waiting⟩ =>
        ⟨nbMsg, head, tail, position, waiting⟩,
      fun ⟨nbMsg, head, tail, position, waiting⟩ =>
        ⟨nbMsg, head, tail, position, waiting⟩⟩

/-- All the processes of the list are counted. -/
theorem blocked_eq {s : KState} {q : QueueRef} {kind : Context → Bool}
    (all : ∀ r ∈ s.lists (.queue q), s.BlockedOn q kind r) :
    s.blocked q kind = (s.lists (.queue q)).length := by
  refine List.countP_eq_length.mpr ?_
  intro r member
  obtain ⟨p, record, -, -, isKind⟩ := all r member
  rw [record]
  exact isKind

end KState

namespace MessageQueue

theorem Shows.inRange {content : MessageQueue} {ring : RingBuffer Int}
    (shows_ : content.Shows ring) :
    (0 ≤ content.nbMsg ∧ content.nbMsg ≤ content.capacity) ∧
      (0 ≤ content.head ∧ content.head < content.capacity) ∧
      (0 ≤ content.tail ∧ content.tail < content.capacity) ∧
      content.head = (content.tail + content.nbMsg) % content.capacity := by
  rw [shows_.nbMsg, shows_.capacity, shows_.head, shows_.tail]
  exact ⟨⟨ring.count_nonneg, ring.count_le⟩,
    ⟨ring.index_nonneg _, ring.index_lt _⟩,
    ⟨ring.tail_nonneg, ring.tail_lt⟩, rfl⟩

end MessageQueue

section Runs

variable {s u : KState} {q : QueueRef} {content : MessageQueue}

theorem KState.QueueSound.shows_ (sound : s.QueueSound q content) :
    ∃ ring, content.Shows ring := by
  obtain ⟨⟨nonneg, bounded⟩, -, ⟨tailNonneg, tailLt⟩, position, -⟩ := sound
  exact ⟨⟨content.capacity, content.nbMsg, content.tail, content.buffer, nonneg,
    bounded, tailNonneg, tailLt⟩, rfl, rfl, position, rfl, rfl⟩

/-- A queue is sound when its record describes a ring buffer and each process of
its list waits for what the buffer says. -/
theorem KState.queueSound_of_waits (shows_ : ∃ ring, content.Shows ring)
    (waits : ∀ r ∈ s.lists (.queue q),
      content.nbMsg = 0 ∧ s.BlockedOn q Context.isPreceive r ∨
        content.nbMsg = content.capacity ∧
          s.BlockedOn q Context.isPsend r) : s.QueueSound q content := by
  obtain ⟨ring, isRing⟩ := shows_
  obtain ⟨nbMsg, head, tail, position⟩ := isRing.inRange
  have distinct : content.capacity ≠ 0 := by omega
  refine ⟨nbMsg, head, tail, position, ?_⟩
  intro notEmpty
  obtain ⟨first, member⟩ := List.exists_mem_of_ne_nil _ notEmpty
  rcases waits first member with ⟨isEmpty, -⟩ | ⟨full, -⟩
  · refine .inl ⟨isEmpty, fun r isIn => ?_⟩
    rcases waits r isIn with ⟨-, receives⟩ | ⟨full, -⟩
    · exact receives
    · exact absurd (full.symm.trans isEmpty) distinct
  · refine .inr ⟨full, fun r isIn => ?_⟩
    rcases waits r isIn with ⟨isEmpty, -⟩ | ⟨-, sends⟩
    · exact absurd (full.symm.trans isEmpty) distinct
    · exact sends

/-- In user mode the invariant of a queue is what its fields and its list
say. -/
theorem QueueOk.queueSound (ok : QueueOk s q) (settled : Settled s)
    (outside : ∀ k, s.mode ≠ .kernel k) (has : s.HasQueue q content) :
    s.QueueSound q content := by
  have calm : ¬ s.HandingOver q := by
    rintro ⟨r, message, p, mode, -⟩
    exact outside _ mode
  refine KState.queueSound_of_waits (ok.shows_ content has) ?_
  intro r member
  obtain ⟨p, record, link⟩ := settled.sound.coherent.record_of_mem member
  obtain ⟨state, -⟩ :=
    (settled.sound.coherent.procs.linked r p record).state_of_link link
  have suspended := settled.suspended_of_link record link
  rcases ok.waiting content r p has record suspended link with
    ⟨⟨message, receives⟩, isEmpty⟩ | ⟨sends, full, -⟩
  · exact .inl ⟨isEmpty.resolve_right calm, p, record, state, link,
      by rw [receives]; rfl⟩
  · exact .inr ⟨full, p, record, state, link, by rw [sends]; rfl⟩

/-- The invariant holds when every process is outside the kernel. -/
theorem KState.Outside.tidy (outside : s.Outside) (settled : Settled s)
    (start : ∀ old, s.HasQueue q old → s.QueueSound q old) : Tidy q s := by
  have ok := settled.sound.coherent
  have inUser {k : Context} (mode : s.mode = .kernel k) {P : Prop} : P := by
    cases outside.user.symm.trans mode
  refine ⟨?_, fun k mode => inUser mode, ?_, ?_, ?_, ?_⟩
  · intro r p record living other
    rcases outside.others r p record living other with stack | stack <;>
      (rw [stack]; trivial)
  · exact fun old has => (start old has).shows_
  · rintro ⟨r, message, p, mode, -⟩
    exact inUser mode
  · intro old r p _ record other link
    obtain ⟨state, -⟩ := (ok.procs.linked r p record).state_of_link link
    have living : p.Living := by simp [Process.Living, state]
    have blocked := settled.sound.context.blocked r p record living other
    rcases blocked.queue q link with stack | ⟨message, stack⟩ <;>
      rcases outside.others r p record living other with isOther | isOther <;>
        cases stack.symm.trans isOther
  · intro r p message record other state stack
    rcases outside.others r p record (by simp [Process.Living, state]) other
      with isOther | isOther <;> cases stack.symm.trans isOther

/-- `pcount` comes back with the number of processes that wait, and of
messages. -/
theorem pcount_reports (user : s.mode = .user)
    (has : s.HasQueue q content) (sound : s.QueueSound q content) {fid : Int}
    {count : UserPtr} (designates : queueOf s fid = some q)
    (notNull : count.addr ≠ 0) (writable : count.faults = false) :
    step (.call (.pcount fid count)) s = .next { s with
      eax := 0
      trace := .store count.addr
        (if content.nbMsg = 0 then -(s.blocked q Context.isPreceive : Int)
          else content.nbMsg + s.blocked q Context.isPsend) :: s.trace } := by
  have value : pcountValue s q content =
      if content.nbMsg = 0 then -(s.blocked q Context.isPreceive : Int)
        else content.nbMsg + s.blocked q Context.isPsend := by
    have positive : 0 < content.capacity := by
      obtain ⟨nonneg, small⟩ := sound.tail
      omega
    unfold pcountValue nbWaitingProc
    by_cases noneWaits : s.lists (.queue q) = []
    · simp [KState.blocked, noneWaits]
    rcases sound.waiting noneWaits with ⟨isEmpty, receive⟩ | ⟨full, send⟩
    · rw [if_pos isEmpty, if_pos isEmpty, KState.blocked_eq receive]
    · have stored : content.nbMsg ≠ 0 := by omega
      rw [if_neg stored, if_neg stored, KState.blocked_eq send, Int.add_comm]
  refine step_call_of_wp user ?_
  rw [syscall, pcount, wp_bind, wp_get, designates]
  simp only []
  rw [wp_bind, wp_derefQueue has.2, wp_bind, wp_get, wp_bind, storeMessage,
    wp_ite, if_pos notNull, wp_storeUser, if_neg (by simp [writable]), wp_ret,
    value, KState.note, user]

/-- In every run without `start`, from a state in which no process is inside a
system call, a queue that is created on the way or was sound at the beginning
is sound whenever the processor is in user mode, and `pcount` tells how many
receivers or senders are blocked on it. -/
theorem queues_stay_sound (reached : Reachable s) (outside : s.Outside)
    (run : Run (fun _ a => a.Regular) s u) (user : u.mode = .user)
    (has : u.HasQueue q content)
    (start : ∀ old, s.HasQueue q old → s.QueueSound q old) :
    u.QueueSound q content ∧
      ∀ fid count, queueOf u fid = some q → count.addr ≠ 0 →
        count.faults = false →
          step (.call (.pcount fid count)) u = .next { u with
            eax := 0
            trace := .store count.addr
              (if content.nbMsg = 0 then
                -(u.blocked q Context.isPreceive : Int)
              else content.nbMsg + u.blocked q Context.isPsend) ::
                u.trace } := by
  have settled := reached.settled
  have settledU := run.settled settled
  have tidy := (outside.tidy settled start).run settled run
  have sound := tidy.queue.queueSound settledU (by simp [user]) has
  exact ⟨sound, fun _ _ designates notNull writable =>
    pcount_reports user has sound designates notNull writable⟩

/-- The test that no process is inside a system call. -/
def KState.isOutside (s : KState) : Bool :=
  s.mode == .user && (List.range s.nextRef).all fun r =>
    match s.procs r with
    | some p =>
        !decide p.Living || r == s.running || p.stack == .fresh ||
          p.stack == .interrupted
    | none => true

theorem KState.outside_of_test (settled : Settled s)
    (test : s.isOutside = true) : s.Outside := by
  unfold isOutside at test
  rw [Bool.and_eq_true, beq_iff_eq, List.all_eq_true] at test
  refine ⟨test.1, ?_⟩
  intro r p record living other
  have known := settled.sound.coherent.lt_nextRef record
  have passes := test.2 r (List.mem_range.mpr known)
  simpa [record, living, other] using passes

/-- A second message for a buffer of one: the first process is blocked and the
second one runs. -/
def sendTwice : List Action :=
  [.call (.pcreate 1), .call (.psend 0 5), .call (.psend 0 6), .resume]

/-- There is such a state, in which `pcount` counts the message and the
sender. -/
theorem full_queue_sound :
    ∃ s u content, Reachable s ∧ s.Outside ∧
      Run (fun _ a => a.Regular) s u ∧ u.mode = .user ∧ u.HasQueue 3 content ∧
      u.blocked 3 Context.isPsend = 1 ∧ u.QueueSound 3 content ∧
      step (.call (.pcount 0 ⟨0x40000000, false⟩)) u = .next { u with
        eax := 0
        trace := .store 0x40000000
          (if content.nbMsg = 0 then -(u.blocked 3 Context.isPreceive : Int)
            else content.nbMsg + u.blocked 3 Context.isPsend) :: u.trace } := by
  obtain ⟨u, performed, -, checked⟩ := exists_of_runActions
    ["idle", "autotest", "a"]
    ((firstTicks ++ [.call (.start "a" 4096 50)]) ++ sendTwice)
    (fun u => u.mode == .user && queueOf u 0 == some 3 &&
      (u.queues 3).isSome && u.blocked 3 Context.isPsend == 1)
    (by decide) (by decide) (by decide +kernel)
  simp only [Bool.and_eq_true, beq_iff_eq] at checked
  obtain ⟨⟨⟨user, designates⟩, exists_⟩, sender⟩ := checked
  obtain ⟨content, record⟩ := Option.isSome_iff_exists.mp exists_
  rw [runActions_append, Option.bind_eq_some_iff] at performed
  obtain ⟨s, toS, sends⟩ := performed
  have reached : Reachable s :=
    reachable_of_runActions (by decide) (by decide) toS
  have settled := reached.settled
  have start := check_of_runActions toS
    (fun s => s.isOutside && (s.queues 3).isNone) (by decide +kernel)
  rw [Bool.and_eq_true, Option.isNone_iff_eq_none] at start
  have outside := KState.outside_of_test settled start.1
  have run : Run (fun _ a => a.Regular) s u := by
    refine run_of_forall sends fun a member _ => ?_
    simp only [sendTwice, List.mem_cons, List.not_mem_nil, or_false] at member
    rcases member with rfl | rfl | rfl | rfl <;> trivial
  have entry : u.queueTable 0 = some 3 := by
    simpa [queueOf, nbQueue] using designates
  have has : u.HasQueue 3 content := ⟨⟨0, entry⟩, record⟩
  have result := queues_stay_sound reached outside run user has
    (fun old isOld => absurd (start.2.symm.trans isOld.2) (by simp))
  exact ⟨s, u, content, reached, outside, run, user, has, sender, result.1,
    result.2 0 ⟨0x40000000, false⟩ designates (by simp) rfl⟩

end Runs

end Nebulea
