import Nebulea.QueueFrames

/-!
# From a wake-up to the next run

A process that has been taken out of a list waits for the processor with the
context it was suspended in.  Whatever the other processes do meanwhile, it
goes on with that context, or it has been ended.
-/

namespace Nebulea

namespace KState

/-- `r` is suspended with `k` in the list `h`. -/
def Parked (s : KState) (r : ProcRef) (h : Head) (k : Context) : Prop :=
  r ≠ s.running ∧ ∃ p, s.procs r = some p ∧ p.link = some h ∧ p.stack = k

/-- `r` waits for the processor to go on with `k`, or has just got it. -/
def Pending (s : KState) (r : ProcRef) (k : Context) : Prop :=
  (∃ p, s.procs r = some p ∧ p.state.Runs ∧ p.stack = k) ∧
    (r = s.running → s.mode = .kernel k)

/-- `r` waits for the processor to go on with `k`, or has got it in the step
that started in `b`. -/
def PendingSince (b s : KState) (r : ProcRef) (k : Context) : Prop :=
  s.Pending r k ∧ (r = s.running → ∀ c, b.mode ≠ .kernel c)

end KState

section Moves

variable {b u : KState} {a : Action} {m : Move} {r : ProcRef} {h : Head}
  {k : Context}

/-- The moves that a step takes to block a process are taken in the state in
which the step starts. -/
theorem Move.By.start_of_suspends (permitted : m.By b a u)
    (suspends : m.suspends ≠ none) : u = b := by
  cases m with
  | sleep | awaitChild | awaitSend | awaitReceive | awaitSem =>
      exact permitted.1
  | _ => exact absurd rfl suspends

/-- A process that gets the processor goes on with what it is suspended in, and
the step that gives it the processor did not start in a restored context. -/
theorem Move.mode_of_elects (sound : Sound u) (permitted : m.By b a u)
    (applies : m.Guard u) {n : Process}
    (found : (m.effect u).procs (m.effect u).running = some n)
    (elects : (m.effect u).running ≠ u.running) :
    (m.effect u).mode = .kernel n.stack ∧ ∀ c, b.mode ≠ .kernel c := by
  have ok := sound.coherent
  have context := sound.context.move ok sound.cpu applies
  have restores {left : Context} (mode : (m.effect u).mode = .kernel left) :
      (m.effect u).mode = .kernel n.stack := by
    rw [context.loaded left n mode found]
    exact mode
  by_cases stays : ¬ m.Switches
  · exact absurd (m.unswitched stays ok applies).running elects
  rw [not_not] at stays
  cases m with
  | dispatch left x p old restored =>
      refine ⟨restores rfl, ?_⟩
      rw [← permitted.1]
      exact applies.1
  | createElect pid prio p children =>
      refine ⟨restores rfl, ?_⟩
      rw [← permitted.1, applies.1]
      simp
  | handOver q content message sender x p restored =>
      refine ⟨restores rfl, ?_⟩
      rw [← permitted.1, applies.2.1]
      simp
  | create => exact absurd rfl elects
  | _ => exact absurd stays id

/-- The processor is given away by kernel code only that has not just got it. -/
theorem Move.Leaves.outside {left : Context} (leaves : m.Leaves left)
    (applies : m.Guard u) (k : Context) : u.mode ≠ .kernel k := by
  cases leaves with
  | dispatch => exact applies.1 k
  | createElect =>
      rw [applies.1]
      simp
  | handOver =>
      rw [applies.2.1]
      simp

/-- The context in the processor stays there until the process that got it
runs. -/
theorem Move.mode_of_pending (permitted : m.By b a u) (applies : m.Guard u)
    (mode : u.mode = .kernel k) (outside : ∀ c, b.mode ≠ .kernel c) :
    (m.effect u).mode = .kernel k := by
  have elsewhere (sameMode : u.mode = b.mode) {P : Prop} : P :=
    absurd (sameMode.symm.trans mode) (outside k)
  by_cases keeps : ¬ m.SetsMode
  · rw [m.mode_effect keeps]
    exact mode
  rw [not_not] at keeps
  cases m with
  | settle | refuse | receive => exact elsewhere permitted
  | fault => exact elsewhere permitted.1
  | reap =>
      obtain ⟨⟨trace, isStart⟩, -⟩ := permitted
      exact elsewhere (by rw [isStart])
  | dispatch => exact absurd mode (applies.1 k)
  | createElect => cases mode.symm.trans applies.1
  | handOver => cases mode.symm.trans applies.2.1
  | _ => exact absurd keeps id

/-- A process that is about to go on with `k` still is after a move of another
process, or has been ended. -/
theorem KState.PendingSince.move (pending : b.PendingSince u r k)
    (sound : Sound u) (other : b.running ≠ r) (permitted : m.By b a u)
    (applies : m.Guard u) :
    b.PendingSince (m.effect u) r k ∨ Ended (m.effect u) r := by
  obtain ⟨⟨⟨p, record, runs, stack⟩, onCpu⟩, outside⟩ := pending
  have ok := sound.coherent
  have old := (ok.lt_nextRef record).ne
  rcases m.runs_after ok sound.cpu applies record runs with
    ⟨n, found, runsOn⟩ | ⟨suspends, isRunning⟩ | ⟨pid, how, father, rfl⟩ |
      ⟨pid, how, rfl⟩
  · have sameStack : n.stack = p.stack := by
      rcases m.stack_after ok applies found with
        ⟨c, isRecord, same⟩ | ⟨isRunning, leaves⟩ | ⟨isNew, -⟩
      · cases record.symm.trans isRecord
        exact same
      · exact absurd (onCpu isRunning) (leaves.outside applies k)
      · exact absurd isNew old
    have loaded (elected : r = (m.effect u).running) :
        (m.effect u).mode = .kernel k ∧ ∀ c, b.mode ≠ .kernel c := by
      by_cases isRunning : r = u.running
      · exact ⟨Move.mode_of_pending permitted applies (onCpu isRunning)
          (outside isRunning), outside isRunning⟩
      · rw [← stack, ← sameStack]
        refine Move.mode_of_elects sound permitted applies (elected ▸ found) ?_
        exact fun same => isRunning (elected.trans same)
    exact .inl ⟨⟨⟨n, found, runsOn.runs, sameStack.trans stack⟩,
      fun elected => (loaded elected).1⟩, fun elected => (loaded elected).2⟩
  · have isStart := permitted.start_of_suspends suspends
    exact absurd (isStart ▸ isRunning).symm other
  · exact .inr (Ended.endProcess applies)
  · exact .inr (Ended.endFatherless ok applies)

/-- A suspended process stays in its list until a move takes it out. -/
theorem KState.Parked.move (parked : u.Parked r h k) (ok : Coherent u)
    (applies : m.Guard u) :
    (m.effect u).Parked r h k ∨
      ∃ p, u.procs r = some p ∧ p.stack = k ∧ m.Unlinks r p h := by
  obtain ⟨other, p, record, link, stack⟩ := parked
  rcases Move.lingers_after ok applies record link other with
    ⟨n, found, lingers, stays⟩ | unlinks
  · exact .inl ⟨stays, n, found, lingers.link.trans link,
      lingers.stack.trans stack⟩
  · exact .inr ⟨p, record, stack, unlinks⟩

end Moves

section Steps

variable {s b c : KState} {a : Action} {r : ProcRef} {k : Context}

/-- At the start of a step another process is on the processor. -/
theorem KState.Pending.since (pending : b.Pending r k)
    (other : b.running ≠ r) : b.PendingSince b r k :=
  ⟨pending, fun isRunning => absurd isRunning.symm other⟩

/-- A step of another process leaves it pending. -/
theorem Settled.pending_after (settled : Settled b) (other : b.running ≠ r)
    (next : step a b = .next c) (pending : b.Pending r k ∨ Ended b r) :
    c.Pending r k ∨ Ended c r := by
  have kept : b.PendingSince c r k ∨ Ended c r := by
    refine settled.keeps next
      (I := fun u => b.PendingSince u r k ∨ Ended u r) ?_
      (pending.imp_left fun pending => pending.since other)
    rintro u m sound permitted applies (pending | ended)
    · exact pending.move sound other permitted applies
    · exact .inr (ended.move sound.coherent applies)
  exact kept.imp_left And.left

/-- A process that has ended stays so. -/
theorem Settled.ended_after (settled : Settled b) (next : step a b = .next c)
    (ended : Ended b r) : Ended c r :=
  settled.keeps next (I := fun u => Ended u r)
    (fun _ _ sound _ applies kept => kept.move sound.coherent applies) ended

theorem Run.ended {meets : KState → Action → Prop} (run : Run meets s b)
    (settled : Settled s) (ended : Ended s r) : Ended b r := by
  induction run with
  | refl => exact ended
  | step front _ next ih => exact (front.settled settled).ended_after next ih

/-- A process that has ended is not on the processor. -/
theorem Ended.not_running (ended : Ended s r) (settled : Settled s) :
    s.running ≠ r := by
  rintro rfl
  obtain ⟨p, record, elected⟩ := settled.onCpu
  rcases ended with ⟨n, found, zombie⟩ | ⟨-, finished⟩
  · cases record.symm.trans found
    cases elected.symm.trans zombie
  · cases elected.symm.trans (finished p record)

end Steps

end Nebulea
