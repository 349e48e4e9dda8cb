import Nebulea.FaultingReceivers
import Nebulea.KernelWakeups

/-!
# Processes woken because their queue is emptied or deleted

`pdelete` and `preset` leave the reason of a wake-up in the record of the
process they wake.  It stays there until the process runs again, unless its
father gets the processor back inside the `start` that created it.
-/

namespace Nebulea

open ExceptState

namespace KState

/-- The `skip_message` of `r` has this value. -/
def Flagged (s : KState) (r : ProcRef) (skip : Bool) : Prop :=
  ∃ p, s.procs r = some p ∧ p.skipMessage = skip

/-- The next step returns -1 to the process `r` on the processor, and does so
whatever the records of the queues say. -/
def Refuses (s : KState) (r : ProcRef) : Prop :=
  ∃ p, s.procs r = some p ∧ ∀ queues,
    step .resume { s with queues := queues } = .next { s with
      queues := queues
      procs := Function.update s.procs r (some { p with skipMessage := false })
      mode := .user
      eax := -1 }

end KState

section Moves

variable {b u : KState} {a : Action} {m : Move} {r : ProcRef} {q : QueueRef}
  {k : Context} {skip : Bool}

/-- Between two runs of the process, only the rest of the `start` that created
it writes its `skip_message`. -/
theorem Move.By.keeps_skip (permitted : m.By b a u) (applies : m.Guard u)
    (settled : Settled b) (ok : Coherent u) (other : b.running ≠ r)
    (spared : b.mode ≠ .kernel (.start r)) {p : Process}
    (record : u.procs r = some p) (runs : p.state.Runs) :
    ¬ m.WritesSkip r := by
  intro writes
  cases m with
  | clearSkip x n =>
      cases writes
      exact spared permitted.2
  | refuse x n =>
      cases writes
      have sameMode : u.mode = b.mode := permitted
      rcases applies.2.2 with ⟨q, mode⟩ | ⟨q, message, mode⟩
      · exact other (settled.sound.owner_running (sameMode.symm.trans mode)).symm
      · exact other (settled.sound.owner_running (sameMode.symm.trans mode)).symm
  | flush x n q =>
      cases writes
      have next := applies.1
      cases record.symm.trans next.2
      have state := ok.inMsgqueue_of_nextOut next
      rw [state] at runs
      exact runs
  | _ => exact writes

/-- A process that waits for the processor keeps its flag. -/
theorem KState.Flagged.move (flagged : u.Flagged r skip)
    (pending : u.Pending r k) (still : (m.effect u).Pending r k)
    (settled : Settled b) (ok : Coherent u) (other : b.running ≠ r)
    (spared : b.mode ≠ .kernel (.start r)) (permitted : m.By b a u)
    (applies : m.Guard u) : (m.effect u).Flagged r skip := by
  obtain ⟨p, record, isSkip⟩ := flagged
  obtain ⟨⟨c, isRecord, runs, -⟩, -⟩ := pending
  cases record.symm.trans isRecord
  obtain ⟨⟨n, found, -, -⟩, -⟩ := still
  obtain ⟨c, isRecord, carries⟩ :=
    Move.carries_after ok applies found (ok.lt_nextRef record).ne
  cases record.symm.trans isRecord
  have kept := carries.skip.resolve_right
    (permitted.keeps_skip applies settled ok other spared record runs)
  exact ⟨n, found, kept.trans isSkip⟩

/-- A process that waits in the list of a queue leaves it woken by `pdelete` or
`preset`, or ends, when one of these calls runs. -/
theorem KState.Parked.flushed {fid : Int} (parked : u.Parked r (.queue q) k)
    (ok : Coherent u)
    (empties : a = .call (.pdelete fid) ∨ a = .call (.preset fid))
    (permitted : m.By b a u) (applies : m.Guard u) :
    (m.effect u).Parked r (.queue q) k ∨
      (m.effect u).Pending r k ∧ (m.effect u).Flagged r true ∨
      Ended (m.effect u) r := by
  have other := parked.1
  rcases parked.move ok applies with still | ⟨p, record, stack, unlinks⟩
  · exact .inl still
  cases unlinks with
  | dislodge q m dislodges =>
      cases dislodges with
      | flush =>
          refine .inr (.inl ⟨⟨⟨_, Function.update_self .., trivial, stack⟩, ?_⟩,
            _, Function.update_self .., rfl⟩)
          exact fun elected => absurd elected other
      | refill content =>
          obtain ⟨-, fid', message, -, rfl⟩ := permitted
          rcases empties with isCall | isCall <;> cases isCall
      | handOver content message sender restored =>
          obtain ⟨-, fid', -, rfl⟩ := permitted
          rcases empties with isCall | isCall <;> cases isCall
      | endProcess pid how father => exact .inr (.inr (Ended.endProcess applies))
      | endFatherless pid how => exact .inr (.inr (Ended.endFatherless ok applies))
  | endProcess h pid how father => exact .inr (.inr (Ended.endProcess applies))
  | endFatherless h pid how => exact .inr (.inr (Ended.endFatherless ok applies))

end Moves

section Steps

variable {s t b c : KState} {a : Action} {r : ProcRef} {q : QueueRef}
  {k : Context} {skip : Bool}

namespace KState

/-- `r` is about to go on with `k` and has this `skip_message`. -/
def Told (s : KState) (r : ProcRef) (k : Context) (skip : Bool) : Prop :=
  s.Pending r k ∧ s.Flagged r skip

/-- A process in the list of a queue is inside `psend` or `preceive`. -/
theorem Parked.context (parked : s.Parked r (.queue q) k)
    (settled : Settled s) :
    k = .psend r q ∨ ∃ message, k = .preceive r q message := by
  obtain ⟨other, p, record, link, rfl⟩ := parked
  obtain ⟨state, -⟩ :=
    (settled.sound.coherent.procs.linked r p record).state_of_link link
  have living : p.Living := by simp [Process.Living, state]
  exact (settled.sound.context.blocked r p record living other).queue q link

end KState

/-- A move of a step of another process, other than the rest of the `start` that
created the process. -/
theorem KState.PendingSince.move_flagged {u : KState} {m : Move}
    (told : b.PendingSince u r k ∧ u.Flagged r skip) (sound : Sound u)
    (settled : Settled b) (other : b.running ≠ r)
    (spared : b.mode ≠ .kernel (.start r)) (permitted : m.By b a u)
    (applies : m.Guard u) :
    b.PendingSince (m.effect u) r k ∧ (m.effect u).Flagged r skip ∨
      Ended (m.effect u) r := by
  refine (told.1.move sound other permitted applies).imp_left ?_
  intro still
  exact ⟨still, told.2.move told.1.1 still.1 settled sound.coherent other spared
    permitted applies⟩

/-- `pdelete` and `preset` tell every process in the list of their queue. -/
theorem Settled.told_of_emptying (settled : Settled s) {fid : Int}
    (parked : s.Parked r (.queue q) k) (designates : queueOf s fid = some q)
    (empties : a = .call (.pdelete fid) ∨ a = .call (.preset fid))
    (next : step a s = .next t) : t.Told r k true ∨ Ended t r := by
  have user : s.mode = .user := by
    rcases empties with rfl | rfl <;> exact mode_of_call next
  have outside : ∀ c, s.mode ≠ .kernel c := by simp [user]
  have kept : t.Parked r (.queue q) k ∨
      s.PendingSince t r k ∧ t.Flagged r true ∨ Ended t r := by
    refine settled.keeps next (I := fun u => u.Parked r (.queue q) k ∨
      s.PendingSince u r k ∧ u.Flagged r true ∨ Ended u r) ?_ (.inl parked)
    rintro u m sound permitted applies (waits | told | ended)
    · refine (waits.flushed sound.coherent empties permitted applies).imp_right ?_
      exact Or.imp_left fun woken => ⟨⟨woken.1, fun _ => outside⟩, woken.2⟩
    · exact .inr (KState.PendingSince.move_flagged told sound settled parked.1.symm
        (outside _) permitted applies)
    · exact .inr (.inr (ended.move sound.coherent applies))
  rcases kept with ⟨-, p, record, link, -⟩ | told
  swap
  · exact told.imp_left (And.imp_left And.left)
  -- the loop ends with an empty list
  have empty : t.lists (.queue q) = [] := by
    rcases empties with rfl | rfl <;>
      exact (settled.stepped next).result (.inr id) q designates
  have member :=
    (settled.after next).sound.coherent.lists.mem_of_link record link
  rw [empty] at member
  cases member

/-- A step of another process leaves the flag alone, unless it is the rest of
the `start` that created the process. -/
theorem Settled.told_after (settled : Settled b) (other : b.running ≠ r)
    (spared : b.mode ≠ .kernel (.start r)) (next : step a b = .next c)
    (told : b.Told r k skip ∨ Ended b r) : c.Told r k skip ∨ Ended c r := by
  have kept : b.PendingSince c r k ∧ c.Flagged r skip ∨ Ended c r := by
    refine settled.keeps next
      (I := fun u => b.PendingSince u r k ∧ u.Flagged r skip ∨ Ended u r) ?_
      (told.imp_left (And.imp_left fun pending => pending.since other))
    rintro u m sound permitted applies (told | ended)
    · exact KState.PendingSince.move_flagged told sound settled other spared permitted applies
    · exact .inr (ended.move sound.coherent applies)
  exact kept.imp_left (And.imp_left And.left)

/-- The rest of `start` clears the flag of the process it created. -/
theorem KState.Told.cleared (told : b.Told r k skip) (other : b.running ≠ r)
    (mode : b.mode = .kernel (.start r)) (next : step a b = .next c) :
    c.Told r k false := by
  obtain ⟨⟨⟨p, record, runs, stack⟩, -⟩, -⟩ := told
  have clears : step .resume b = .next { b.setProc r
      { p with skipMessage := false } with mode := .user, eax := p.pid } := by
    refine step_of_wp (by rw [mode]; rfl) ?_
    have assigned : (b.setProc r { p with skipMessage := false }).procs r =
        some { p with skipMessage := false } := by
      simp
    rw [resume, startTail, wp_bind, wp_modifyProc _ record, wp_bind,
      wp_derefProc assigned, wp_ret]
  have isResume : a = .resume := by
    unfold step at next
    rw [mode] at next
    cases a with
    | resume => rfl
    | call => cases next
    | tick => cases next
  rw [isResume, clears, Outcome.next.injEq] at next
  subst next
  refine ⟨⟨⟨_, Function.update_self .., runs, stack⟩, ?_⟩,
    _, Function.update_self .., rfl⟩
  exact fun elected => absurd elected.symm other

/-- A process that has not learnt of it yet does so when it gets the
processor. -/
theorem KState.Told.refuses (told : s.Told r k true) (onCpu : r = s.running)
    (isCall : k = .psend r q ∨ ∃ message, k = .preceive r q message) :
    s.Refuses r := by
  obtain ⟨⟨-, loaded⟩, p, record, isSet⟩ := told
  have mode := loaded onCpu
  refine ⟨p, record, ?_⟩
  intro queues
  have recordThen : KState.procs { s with queues := queues } r = some p := record
  refine step_of_wp (by rw [mode]; rfl) ?_
  rcases isCall with rfl | ⟨message, rfl⟩
  · rw [resume, psendTail, wp_bind, wp_derefProc recordThen, wp_ite,
      if_pos isSet, wp_bind, wp_modifyProc _ recordThen, wp_ret]
    rfl
  · rw [resume, preceiveTail, wp_bind, wp_derefProc recordThen, wp_ite,
      if_pos isSet, wp_bind, wp_modifyProc _ recordThen, wp_ret]
    rfl

/-- Once its flag is cleared it goes on as if it had been served. -/
theorem KState.Told.not_refuses (told : s.Told r k false)
    (onCpu : r = s.running)
    (isCall : k = .psend r q ∨ ∃ message, k = .preceive r q message) :
    ¬ s.Refuses r := by
  obtain ⟨⟨-, loaded⟩, p, record, clear⟩ := told
  have mode := loaded onCpu
  rintro ⟨n, -, refuses⟩
  have next : step .resume s = .next _ := refuses s.queues
  have isClear : ¬ p.skipMessage = true := by simp [clear]
  have result := post_of_step (fun u => u.mode = .user → u.eax ≠ -1)
    (by rw [mode]; rfl) next ?_
  · exact result rfl rfl
  rcases isCall with rfl | ⟨message, rfl⟩
  · rw [resume, psendTail, wp_bind, wp_derefProc record, wp_ite,
      if_neg isClear, wp_ret]
    simp
  · rw [resume, preceiveTail, wp_bind, wp_derefProc record, wp_ite,
      if_neg isClear, wp_bind]
    refine wp_derefQueue_of (fun isPage => by cases isPage) ?_
    intro content found
    have stored (u : KState) (queues : u.queues = s.queues) :
        wp (do
            emit (.take q r (content.buffer content.tail))
            modifyQueue q fun content => content.pop
            ret 0) (fun _ u => u.mode = .user → u.eax ≠ -1)
          (fun failure u => failure = .page →
            Mode.pageFault = .user → u.eax ≠ -1) u := by
      have foundThen : (u.note
          (.take q r (content.buffer content.tail))).queues q =
            some content := by
        simp [KState.note, queues, found]
      rw [wp_bind, wp_emit, wp_bind, wp_modifyQueue _ foundThen, wp_ret]
      simp
    rw [wp_bind, storeMessage, wp_ite]
    split
    · rw [wp_storeUser]
      split
      · exact fun _ inUser => by cases inUser
      · exact stored _ rfl
    · rw [wp_pure]
      exact stored s rfl

end Steps

section Runs

variable {s t v : KState} {a : Action} {r : ProcRef} {q : QueueRef}
  {k : Context}

/-- While other processes run, the flag stays set as long as the father does
not go on with the `start` that created the process. -/
theorem Run.told (settled : Settled t) (told : t.Told r k true ∨ Ended t r)
    (run : Run (fun b _ => b.running ≠ r ∧ b.mode ≠ .kernel (.start r)) t v) :
    v.Told r k true ∨ Ended v r := by
  induction run with
  | refl => exact told
  | step front met next ih =>
      exact (front.settled settled).told_after met.1 met.2 next ih

/-- Either no step of the run was the rest of that `start`, or the flag is clear
from there on. -/
theorem Run.told_or_cleared (settled : Settled t)
    (told : t.Told r k true ∨ Ended t r)
    (run : Run (fun b _ => b.running ≠ r) t v) :
    Run (fun b _ => b.running ≠ r ∧ b.mode ≠ .kernel (.start r)) t v ∨
      v.Told r k false ∨ Ended v r := by
  induction run with
  | refl => exact .inl .refl
  | step front other next ih =>
      rename_i b c action
      have settledB := front.settled settled
      by_cases starts : b.mode = .kernel (.start r)
      · right
        have toldB : (∃ skip, b.Told r k skip) ∨ Ended b r := by
          rcases ih with spared | toldB | ended
          · exact (spared.told settled told).imp_left fun toldB => ⟨_, toldB⟩
          · exact .inl ⟨_, toldB⟩
          · exact .inr ended
        rcases toldB with ⟨skip, toldB⟩ | ended
        · exact .inl (toldB.cleared other starts next)
        · exact .inr (settledB.ended_after next ended)
      · rcases ih with spared | toldB
        · exact .inl (spared.step ⟨other, starts⟩ next)
        · exact .inr (settledB.told_after other starts next toldB)

/-- A process that waits in the list of a queue when the queue is deleted or
emptied learns of it when it runs again, and its call comes back with -1 without
access to any queue, if and only if its father has not gone on, in the meantime,
with the `start` that created it. -/
theorem refuses_iff_start_over {fid : Int} (reached : Reachable s)
    (waits : r ∈ s.lists (.queue q)) (designates : queueOf s fid = some q)
    (empties : a = .call (.pdelete fid) ∨ a = .call (.preset fid))
    (next : step a s = .next t) (run : Run (fun b _ => b.running ≠ r) t v)
    (resumes : v.running = r) :
    v.Refuses r ↔
      Run (fun b _ => b.running ≠ r ∧ b.mode ≠ .kernel (.start r)) t v := by
  have settled := reached.settled
  have settledT := settled.after next
  have settledV := run.settled settledT
  obtain ⟨p, record, link⟩ := settled.sound.coherent.record_of_mem waits
  have parked : s.Parked r (.queue q) p.stack :=
    ⟨settled.suspended_of_link record link, p, record, link, rfl⟩
  have isCall := parked.context settled
  have told := settled.told_of_emptying parked designates empties next
  constructor
  · intro refuses
    rcases run.told_or_cleared settledT told with spared | cleared | ended
    · exact spared
    · exact absurd refuses (cleared.not_refuses resumes.symm isCall)
    · exact absurd resumes (ended.not_running settledV)
  · intro spared
    rcases spared.told settledT told with told | ended
    · exact told.refuses resumes.symm isCall
    · exact absurd resumes (ended.not_running settledV)

/-- The first process starts a child above it, which creates a queue, starts a
second child and blocks in `preceive`; the second child then gives it this
priority. -/
def receiverBelow (priority : Int) : List Action :=
  firstTicks ++
    [.call (.start "a" 4096 200), .resume, .call (.pcreate 1),
      .call (.start "b" 4096 150), .call (.preceive 0 ⟨0, false⟩), .resume,
      .call (.chprio 2 priority), .resume]

/-- The second child empties the queue and falls asleep, and the process that
is then on top goes on. -/
def resetAndSleep : List Action :=
  [.resume, .call (.waitClock 1000)]

/-- No step of the run is one of the receiver, or the end of the `start` that
created it. -/
def sparesReceiver (b : KState) (_ : Action) : Bool :=
  b.running != 2 && b.mode != .kernel (.start 2)

/-- A receiver that stays above its father is refused. -/
theorem refuses_above_father :
    ∃ s t v, Reachable s ∧ 2 ∈ s.lists (.queue 3) ∧
      step (.call (.preset 0)) s = .next t ∧
      Run (fun b _ => b.running ≠ 2) t v ∧ v.running = 2 ∧ v.Refuses 2 := by
  obtain ⟨v, performed, -, resumes⟩ := exists_of_runActions
    ["idle", "autotest", "a", "b"]
    ((receiverBelow 140 ++ [.call (.preset 0)]) ++ resetAndSleep)
    (fun v => v.running == 2) (by decide) (by decide) (by decide +kernel)
  rw [runActions_append, Option.bind_eq_some_iff] at performed
  obtain ⟨t, toT, toV⟩ := performed
  have spares := check_of_runActions toT
    (allAlong sparesReceiver resetAndSleep) (by decide +kernel)
  rw [runActions_append, Option.bind_eq_some_iff] at toT
  obtain ⟨s, toS, empties⟩ := toT
  have reached : Reachable s :=
    reachable_of_runActions (by decide) (by decide) toS
  have start := check_of_runActions toS (fun s =>
    decide (2 ∈ s.lists (.queue 3)) && queueOf s 0 == some 3) (by decide +kernel)
  rw [Bool.and_eq_true, decide_eq_true_eq, beq_iff_eq] at start
  have next := step_of_runActions empties
  have spared : Run
      (fun b _ => b.running ≠ 2 ∧ b.mode ≠ .kernel (.start 2)) t v := by
    refine run_of_allAlong (reached.settled.after next) toV sparesReceiver ?_
      spares
    intro b _ _ test
    simpa [sparesReceiver] using test
  have run : Run (fun b _ => b.running ≠ 2) t v :=
    spared.mono fun _ _ met => met.1
  have onCpu := beq_iff_eq.mp resumes
  exact ⟨s, t, v, reached, start.1, next, run, onCpu,
    (refuses_iff_start_over reached start.1 start.2 (.inr rfl) next run
      onCpu).mpr spared⟩

/-- A receiver below its father goes on as if it had been served: it returns 0
and counts a message that was never sent. -/
theorem served_below_father :
    ∃ s t v w content, Reachable s ∧ 2 ∈ s.lists (.queue 3) ∧
      queueOf s 0 = some 3 ∧ step (.call (.preset 0)) s = .next t ∧
      Run (fun b _ => b.running ≠ 2) t v ∧ v.running = 2 ∧ ¬ v.Refuses 2 ∧
      step .resume v = .next w ∧ w.eax = 0 ∧ w.queues 3 = some content ∧
      content.nbMsg = -1 := by
  obtain ⟨w, performed, -, checked⟩ := exists_of_runActions
    ["idle", "autotest", "a", "b"]
    (((receiverBelow 50 ++ [.call (.preset 0)]) ++
      (resetAndSleep ++ resetAndSleep)) ++ [.resume])
    (fun w => w.eax == 0 &&
      (w.queues 3).any fun content => content.nbMsg == -1)
    (by decide) (by decide) (by decide +kernel)
  rw [Bool.and_eq_true, beq_iff_eq, Option.any_eq_true] at checked
  obtain ⟨value, content, record, negative⟩ := checked
  rw [runActions_append, Option.bind_eq_some_iff] at performed
  obtain ⟨v, toV, resumed⟩ := performed
  have onCpu := check_of_runActions toV (fun v => v.running == 2)
    (by decide +kernel)
  rw [runActions_append, Option.bind_eq_some_iff] at toV
  obtain ⟨t, toT, toV⟩ := toV
  have others := check_of_runActions toT
    (allAlong (fun b _ => b.running != 2) (resetAndSleep ++ resetAndSleep))
    (by decide +kernel)
  rw [runActions_append, Option.bind_eq_some_iff] at toT
  obtain ⟨s, toS, empties⟩ := toT
  have reached : Reachable s :=
    reachable_of_runActions (by decide) (by decide) toS
  have start := check_of_runActions toS (fun s =>
    decide (2 ∈ s.lists (.queue 3)) && queueOf s 0 == some 3) (by decide +kernel)
  rw [Bool.and_eq_true, decide_eq_true_eq, beq_iff_eq] at start
  have next := step_of_runActions empties
  have run : Run (fun b _ => b.running ≠ 2) t v := by
    refine run_of_allAlong (reached.settled.after next) toV
      (fun b _ => b.running != 2) ?_ others
    intro b _ _ test
    simpa using test
  have comesBack := step_of_runActions resumed
  refine ⟨s, t, v, w, content, reached, start.1, start.2, next, run,
    beq_iff_eq.mp onCpu, ?_, comesBack, value, record, beq_iff_eq.mp negative⟩
  rintro ⟨p, -, refuses⟩
  have refused : step .resume v = .next _ := refuses v.queues
  rw [comesBack, Outcome.next.injEq] at refused
  rw [refused] at value
  cases value

end Runs

end Nebulea
