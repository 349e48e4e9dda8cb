import Nebulea.KernelZombies

/-!
# Sleeping processes

A process that calls `wait_clock` is in no list.  Nothing but the scan of the
table inside `__scheduler` makes it activable again, and that scan misses no
process whose date has come.
-/

namespace Nebulea

namespace KState

/-- `r` sleeps until `wakeup`. -/
def Sleeps (s : KState) (r : ProcRef) (wakeup : Nat) : Prop :=
  ∃ p, s.procs r = some p ∧ p.state = .asleep ∧ p.wakeupDate = wakeup

/-- `r` waits for the processor, once in `activable_list`, or has it. -/
def Woken (s : KState) (r : ProcRef) : Prop :=
  ∃ p, s.procs r = some p ∧
    (p.state = .activable ∧ (s.lists .activable).count r = 1 ∨
      p.state = .elected ∧ s.running = r)

/-- The process on the processor has given it up. -/
def Vacant (s : KState) : Prop :=
  ∃ p, s.procs s.running = some p ∧ p.state ≠ .elected

end KState

/-- The action kills `r` or reaps it. -/
def Action.Dismisses (s : KState) (a : Action) (r : ProcRef) : Prop :=
  ∃ pid, s.processTable pid = some r ∧
    (a = .call (.kill pid) ∨
      ∃ asked retvalp, a.Waits s asked retvalp ∧ (asked < 0 ∨ pid = asked))

/-- What `Move.By` says of the clock and of the moves that suspend a process or
take it out of the table. -/
def Move.Opens (s : KState) (a : Action) : Move → KState → Prop
  | .tick, t | .sleep _ _, t | .awaitChild _, t | .awaitSend _ _ _ _, t
  | .awaitReceive _ _ _, t | .awaitSem _ _ _ _, t => t = s
  | .endProcess pid r _ how _, t | .endFatherless pid r _ how, t =>
      t = s ∧ how.By s a pid r
  | .reap pid _ _ _ _, t =>
      (∃ trace, t = { s with trace := trace }) ∧
        ∃ asked retvalp, a.Waits s asked retvalp ∧
          (asked < 0 ∨ pid = asked)
  | _, _ => True

section Moves

variable {s x : KState} {a : Action} {m : Move} {r : ProcRef} {wakeup : Nat}

theorem Move.By.opens (permitted : m.By s a x) : m.Opens s a x := by
  cases m with
  | tick | sleep | awaitChild | awaitSend | awaitReceive | awaitSem =>
      exact permitted.1
  | endProcess | endFatherless => exact permitted
  | reap => exact ⟨permitted.1, permitted.2.1⟩
  | _ => trivial

theorem Move.Serves.opens (serves : m.Serves) : m.Opens s a x := by
  cases m with
  | yield | purge | wakeSleeper | dispatch => trivial
  | _ => exact absurd serves id

namespace Move

/-- Only a dispatch counts as a switch of `__scheduler`. -/
theorem switches_effect (m : Move) (applies : m.Guard s) :
    (∃ k r p old restored, m = .dispatch k r p old restored) ∨
      switches (m.effect s).trace = switches s.trace := by
  cases m with
  | dispatch k r p old restored => exact .inl ⟨k, r, p, old, restored, rfl⟩
  | note e =>
      right
      cases e with
      | finishZombie | store => rfl
      | _ => exact absurd applies id
  | endProcess pid r p how father =>
      right
      cases how <;> cases father <;> rfl
  | endFatherless pid r p how =>
      right
      cases how <;> rfl
  | resetSem y content count | deleteSem sem y =>
      right
      simp [effect, switches, Event.isSwitch]
  | _ => exact .inr rfl

theorem switches_dispatch {k : Context} {p : Process} {old : ProcRef}
    {restored : Context} :
    switches s.trace <
      switches ((Move.dispatch k r p old restored).effect s).trace := by
  simp [effect, switches, List.countP_cons, Event.isSwitch]

theorem switches_le (m : Move) (applies : m.Guard s) :
    switches s.trace ≤ switches (m.effect s).trace := by
  rcases m.switches_effect applies with ⟨k, r, p, old, restored, rfl⟩ | same
  · exact switches_dispatch.le
  · exact same.ge

/-- Only a tick moves the clock. -/
theorem timeCount_effect (m : Move) (s : KState) :
    m = .tick ∨ (m.effect s).timeCount = s.timeCount := by
  cases m with
  | tick => exact .inl rfl
  | endProcess pid r p how father =>
      right
      cases father <;> rfl
  | resetSem y content count | deleteSem sem y =>
      right
      obtain ⟨_, _, _, same⟩ := s.release_eq y (s.lists (.sem y)).reverse
      simp [effect, same]
  | _ => exact .inr rfl

/-- The processor stays vacant until the next dispatch. -/
theorem vacant_effect (sound : Sound s) (applies : m.Guard s)
    (vacant : s.Vacant) :
    (∃ k r p old restored, m = .dispatch k r p old restored) ∨
      (m.effect s).Vacant := by
  obtain ⟨current, record, left⟩ := vacant
  have occupied {p : Process} (onCpu : s.OnCpu p) {P : Prop} : P := by
    have same := onCpu.1
    rw [record, Option.some.injEq] at same
    exact absurd (same ▸ onCpu.2) left
  by_cases switches : m.Switches
  · cases m with
    | dispatch k r p old restored => exact .inl ⟨k, r, p, old, restored, rfl⟩
    | create | createElect => exact occupied applies.2.1
    | handOver => exact occupied applies.2.2.2.2.1
    | _ => exact absurd switches id
  right
  have same := m.unswitched switches sound.coherent applies
  obtain ⟨n, after, -⟩ := (sound.move applies).cpu.current
  obtain ⟨p, before, context⟩ := same.procs _ n after
  rw [same.running, record, Option.some.injEq] at before
  subst before
  refine ⟨n, after, ?_⟩
  intro elected
  rcases context.state with ⟨state, -⟩ | ⟨-, state, -⟩ | ⟨-, state, -⟩ |
    ⟨ended, -⟩
  · exact left (state.symm.trans elected)
  · exact left state
  · cases state.symm.trans elected
  · exact ended (by simp [Process.Living, elected])

end Move

/-- Since `s` the process on the processor has given it up. -/
def Ran (s x : KState) : Prop :=
  switches s.trace < switches x.trace ∨ x.Vacant

theorem Ran.move (ran : Ran s x) (monotone : switches s.trace ≤ switches x.trace)
    (sound : Sound x) (applies : m.Guard x) : Ran s (m.effect x) := by
  rcases ran with more | vacant
  · exact .inl (more.trans_le (m.switches_le applies))
  · rcases Move.vacant_effect sound applies vacant with
      ⟨k, r, p, old, restored, rfl⟩ | vacant
    · exact .inl (monotone.trans_lt Move.switches_dispatch)
    · exact .inr vacant

theorem Ran.switched (ran : Ran s x) (onCpu : ∃ p, x.OnCpu p) :
    switches s.trace < switches x.trace := by
  obtain ⟨p, record, elected⟩ := onCpu
  rcases ran with more | ⟨c, record', left⟩
  · exact more
  · rw [record, Option.some.injEq] at record'
    exact absurd (record' ▸ elected) left

/-- A process that is not elected is ended by a kill only. -/
theorem Ending.By.isKill {pid : Int} {how : Ending} {p c : Process}
    (ends : how.By s a pid r) (record : s.procs r = some p)
    (left : p.state ≠ .elected) (onCpu : s.OnCpu c) :
    a = .call (.kill pid) := by
  cases how with
  | exit retval =>
      have same := onCpu.1
      rw [← ends.1, record, Option.some.injEq] at same
      exact absurd (same ▸ onCpu.2) left
  | kill => exact ends.1

/-- Between the moves of a step that began while `r` slept: it sleeps on, and
not past its date once `__scheduler` has dispatched; or it was woken up in
time; or the action dismissed it. -/
inductive Roused (s : KState) (a : Action) (r : ProcRef) (wakeup : Nat)
    (x : KState) : Prop
  | sleeps (asleep : x.Sleeps r wakeup)
      (early : switches s.trace < switches x.trace → x.timeCount < wakeup)
  | woken (runs : ∃ p, x.procs r = some p ∧ p.state.Runs)
      (due : wakeup ≤ x.timeCount)
      (ran : Ran s x)
  | dismissed (ended : Ended x r) (by_action : a.Dismisses s r)

theorem Roused.move (roused : Roused s a r wakeup x) (start : s.Sleeps r wakeup)
    (monotone : switches s.trace ≤ switches x.trace) (sound : Sound x)
    (opens : m.Opens s a x) (applies : m.Guard x) :
    Roused s a r wakeup (m.effect x) := by
  have ok := sound.coherent
  obtain ⟨p₀, record₀, asleep₀, -⟩ := start
  cases roused with
  | sleeps asleep early =>
      obtain ⟨p, record, asleep, date⟩ := asleep
      have unlinked : p.link = none := by
        simpa [KState.LinkOk, asleep] using ok.procs.linked r p record
      -- the date cannot have passed if `r` is asleep after a dispatch
      have still {n : Process} (after : (m.effect x).procs r = some n)
          (state : n.state = p.state) (date' : n.wakeupDate = p.wakeupDate) :
          Roused s a r wakeup (m.effect x) := by
        refine .sleeps ⟨n, after, state.trans asleep, date'.trans date⟩ ?_
        intro more
        rcases m.switches_effect applies with
          ⟨k, q, c, old, restored, rfl⟩ | same
        · have punctual := applies.2.2.2.2.2.2.2
          exact date ▸ punctual r p record asleep
        · rw [same] at more
          rcases m.timeCount_effect x with rfl | sameTime
          · rw [show x = s from opens] at more
            exact absurd more (lt_irrefl _)
          · exact sameTime ▸ early more
      rcases m.procs_unlinked ok applies record (by simp [asleep]) unlinked with
        untouched | reaches
      · obtain ⟨stack, registers, isSaved⟩ := m.saves_eq x r p
        rw [isSaved] at untouched
        exact still untouched rfl rfl
      cases reaches with
      | wakeSleeper =>
          refine .woken ⟨_, Function.update_self .., trivial⟩
            (date ▸ applies.2.2.1) (.inr ?_)
          have vacant : x.Vacant := applies.2.2.2
          refine (Move.vacant_effect sound applies vacant).resolve_left ?_
          rintro ⟨k, q, c, old, restored, isDispatch⟩
          cases isDispatch
      | endProcess pid how father =>
          obtain ⟨has, -, -, ⟨c, onCpu⟩, woken⟩ := applies
          obtain ⟨rfl, ends⟩ := opens
          refine .dismissed ?_ ⟨pid, has.1, .inl ?_⟩
          · left
            cases father with
            | none => exact ⟨_, Function.update_self .., rfl⟩
            | some father =>
                have isEnded := Move.endProcess_procs (s := x) (i := pid)
                  (p := p) (h := how) (f := father.2) woken.1 r
                rw [if_neg woken.1.symm, if_pos rfl] at isEnded
                exact ⟨_, isEnded, rfl⟩
          · exact ends.isKill record (by simp [asleep]) onCpu
      | endFatherless pid how =>
          obtain ⟨has, -, -, c, onCpu⟩ := applies
          obtain ⟨rfl, ends⟩ := opens
          refine .dismissed ?_ ⟨pid, has.1, .inl ?_⟩
          · refine .inr ⟨ok.lt_nextRef record, ?_⟩
            intro n found
            simp [Move.effect] at found
            exact found ▸ rfl
          · exact ends.isKill record (by simp [asleep]) onCpu
      | orphan => exact still (Function.update_self ..) rfl rfl
      | finish pid =>
          have zombie := applies.2.1
          simp [asleep] at zombie
      | reap pid caller children =>
          obtain ⟨⟨trace, rfl⟩, waits⟩ := opens
          obtain ⟨-, -, has, -, -, distinct, -⟩ := applies
          refine .dismissed (.inr ⟨ok.lt_nextRef record, ?_⟩)
            ⟨pid, has.1, .inr waits⟩
          intro n found
          rw [Move.reap_procs distinct, if_pos rfl] at found
          cases found
          rfl
      | reprio newprio => exact still (Function.update_self ..) rfl rfl
      | clearSkip => exact still (Function.update_self ..) rfl rfl
      | refuse => exact still (Function.update_self ..) rfl rfl
  | woken runs due ran =>
      obtain ⟨p, record, runs⟩ := runs
      have begun (same : x = s) {P : Prop} : P := by
        rw [same, record₀, Option.some.injEq] at record
        rw [← record, asleep₀] at runs
        exact absurd runs id
      have sameTime : (m.effect x).timeCount = x.timeCount := by
        refine (m.timeCount_effect x).resolve_left ?_
        rintro rfl
        exact begun opens
      rcases m.runs_after ok sound.cpu applies record runs with
        ⟨n, after, runsOn⟩ | ⟨suspends, -⟩ | ⟨pid, how, father, rfl⟩ |
          ⟨pid, how, rfl⟩
      · exact .woken ⟨n, after, runsOn.runs⟩ (sameTime ▸ due)
          (ran.move monotone sound applies)
      · cases m with
        | sleep | awaitChild | awaitSend | awaitReceive | awaitSem =>
            exact begun opens
        | _ => exact absurd rfl suspends
      · exact begun opens.1
      · exact begun opens.1
  | dismissed ended by_action =>
      exact .dismissed (ended.move ok applies) by_action

/-- What has become of a sleeper at any point of a step. -/
theorem Roused.path (sound : Sound s) (start : s.Sleeps r wakeup)
    (path : Moves (Move.Opens s a) s x) :
    Sound x ∧ switches s.trace ≤ switches x.trace ∧
      Roused s a r wakeup x := by
  refine path.keeps (I := fun u => Sound u ∧
    switches s.trace ≤ switches u.trace ∧ Roused s a r wakeup u) ?_
    ⟨sound, le_rfl, .sleeps start fun more => absurd more (lt_irrefl _)⟩
  rintro m u opens applies ⟨soundU, monotone, roused⟩
  exact ⟨soundU.move applies, monotone.trans (m.switches_le applies),
    roused.move start monotone soundU opens applies⟩

/-- A process that runs is in `activable_list` once, or has the processor. -/
theorem Sound.woken (sound : Sound s)
    (runs : ∃ p, s.procs r = some p ∧ p.state.Runs) : s.Woken r := by
  obtain ⟨p, record, runs⟩ := runs
  have lists := sound.coherent.lists
  refine ⟨p, record, ?_⟩
  cases state : p.state with
  | elected =>
      exact .inr ⟨rfl, (sound.cpu.elected r p record state).symm⟩
  | activable =>
      have link : p.link = some .activable := by
        simpa [KState.LinkOk, state] using
          sound.coherent.procs.linked r p record
      exact .inl ⟨rfl, List.count_eq_one_of_mem (lists.nodup .activable)
        (lists.mem_of_link record link)⟩
  | _ =>
      rw [state] at runs
      exact absurd runs id

/-- What has become of a sleeper at the end of a step. -/
theorem Roused.settled (roused : Roused s a r wakeup x) (sound : Sound x)
    (onCpu : ∃ p, x.OnCpu p) :
    x.Sleeps r wakeup ∧
        (switches s.trace < switches x.trace → x.timeCount < wakeup) ∨
      x.Woken r ∧ wakeup ≤ x.timeCount ∧ switches s.trace < switches x.trace ∨
      Ended x r ∧ a.Dismisses s r := by
  cases roused with
  | sleeps asleep early => exact .inl ⟨asleep, early⟩
  | woken runs due ran =>
      exact .inr (.inl ⟨sound.woken runs, due, ran.switched onCpu⟩)
  | dismissed ended by_action => exact .inr (.inr ⟨ended, by_action⟩)

/-- Before its date a sleeper is nowhere near the processor. -/
theorem Roused.early (roused : Roused s a r wakeup x) (sound : Sound x)
    (early : x.timeCount < wakeup) :
    (x.Sleeps r wakeup ∨ Ended x r) ∧ r ∉ x.lists .activable := by
  have ok := sound.coherent
  have unlisted {p : Process} (record : x.procs r = some p)
      (notActivable : p.state ≠ .activable) : r ∉ x.lists .activable := by
    intro member
    have link := ok.lists.link_of_mem record member
    exact notActivable ((ok.procs.linked r p record).state_of_link link)
  cases roused with
  | sleeps asleep early =>
      obtain ⟨p, record, state, date⟩ := asleep
      exact ⟨.inl ⟨p, record, state, date⟩, unlisted record (by simp [state])⟩
  | woken runs due ran => exact absurd early (not_lt.mpr due)
  | dismissed ended by_action =>
      refine ⟨.inr ended, ?_⟩
      intro member
      obtain ⟨p, record, -⟩ := ok.record_of_mem member
      refine unlisted record ?_ member
      rcases ended with ⟨n, found, zombie⟩ | gone
      · rw [record, Option.some.injEq] at found
        simp [found, zombie]
      · simp [gone.2 p record]

end Moves

section Runs

variable {s t u v : KState} {a : Action} {r : ProcRef} {wakeup : Nat}

/-- `__scheduler` misses no process whose date has come. -/
theorem Sound.served (sound : Sound s) (asleep : s.Sleeps r wakeup)
    (vacant : s.Vacant) (path : Moves (fun m _ => m.Serves) s t)
    (onCpu : ∃ p, t.OnCpu p) :
    t.Sleeps r wakeup ∧ t.timeCount < wakeup ∨
      t.Woken r ∧ wakeup ≤ t.timeCount := by
  have opened : Moves (Move.Opens s .tick) s t :=
    path.mono fun m u serves => serves.opens
  obtain ⟨soundT, -, roused⟩ := Roused.path sound asleep opened
  have ran : Sound t ∧ switches s.trace ≤ switches t.trace ∧ Ran s t := by
    refine path.keeps (I := fun u => Sound u ∧
      switches s.trace ≤ switches u.trace ∧ Ran s u) ?_
      ⟨sound, le_rfl, .inr vacant⟩
    rintro m u - applies ⟨soundU, monotone, ran⟩
    exact ⟨soundU.move applies, monotone.trans (m.switches_le applies),
      ran.move monotone soundU applies⟩
  rcases roused.settled soundT onCpu with
    ⟨asleep, early⟩ | ⟨woken, due, -⟩ | ⟨-, pid, -, isKill | ⟨_, _, waits, -⟩⟩
  · exact .inl ⟨asleep, early (ran.2.2.switched onCpu)⟩
  · exact .inr ⟨woken, due⟩
  · cases isKill
  · rcases waits with isCall | ⟨isResume, -⟩
    · cases isCall
    · cases isResume

/-- The call itself: `__scheduler` runs with the caller asleep. -/
theorem Settled.after_waitClock (settled : Settled s)
    (called : step (.call (.waitClock wakeup)) s = .next t) :
    t.Sleeps s.running wakeup ∧ t.timeCount < wakeup ∨
      t.Woken s.running ∧ wakeup ≤ t.timeCount := by
  have stepped := settled.stepped called
  obtain ⟨p, onCpu, path⟩ := stepped.result (.inr id)
  have sound : Sound ((Move.sleep p wakeup).effect s) :=
    settled.sound.move (m := .sleep p wakeup) onCpu
  refine sound.served ⟨_, Function.update_self .., rfl, rfl⟩ ?_ path
    stepped.onCpu
  exact ⟨_, Function.update_self .., by simp⟩

/-- Only its own `wait_clock` puts a process to sleep. -/
theorem Settled.sleeps_before (settled : Settled s) (next : step a s = .next t)
    (asleep : t.Sleeps r wakeup) :
    s.Sleeps r wakeup ∨
      s.running = r ∧ a = .call (.waitClock wakeup) := by
  have both : t.Sleeps r wakeup → s.Sleeps r wakeup ∨
      s.running = r ∧ a = .call (.waitClock wakeup) := by
    refine settled.keeps next (I := fun u => u.Sleeps r wakeup →
      s.Sleeps r wakeup ∨ s.running = r ∧ a = .call (.waitClock wakeup)) ?_
      .inl
    rintro u m sound permitted applies kept ⟨n, found, state, date⟩
    rcases m.blocked_before sound.coherent applies found
        (by simp [state, State.Blocks]) with
      ⟨p, record, rests⟩ | ⟨suspends, isRunning, -⟩
    · exact kept ⟨p, record, rests.state.symm.trans state,
        rests.wakeupDate.symm.trans date⟩
    · rw [state] at suspends
      cases m with
      | sleep p date' =>
          obtain ⟨rfl, isCall⟩ := permitted
          subst isRunning
          have isNew : n = { p with state := .asleep, wakeupDate := date' } := by
            simpa [Move.effect] using found.symm
          rw [isNew] at date
          exact .inr ⟨rfl, date ▸ isCall⟩
      | awaitChild | awaitSend | awaitReceive | awaitSem => cases suspends
      | _ => cases suspends
  exact both asleep

/-- A process that calls `wait_clock` is not elected or put in
`activable_list` before its date, whatever other processes do.  The first
`__scheduler` from then on puts it there once, unless it was killed or reaped
before; and it does not sleep again until it calls `wait_clock` again. -/
theorem sleepers_wake_once (reached : Reachable s)
    (called : step (.call (.waitClock wakeup)) s = .next t) :
    (t.Sleeps s.running wakeup ∧ t.timeCount < wakeup ∨
      t.Woken s.running ∧ wakeup ≤ t.timeCount) ∧
    (∀ u a v, Run (fun x _ => x.Sleeps s.running wakeup) t u →
      u.Sleeps s.running wakeup → step a u = .next v →
        (∀ x, Moves (Move.By u a) u x → x.timeCount < wakeup →
          (x.Sleeps s.running wakeup ∨ Ended x s.running) ∧
            s.running ∉ x.lists .activable) ∧
        (v.Sleeps s.running wakeup ∧
            (switches u.trace < switches v.trace → v.timeCount < wakeup) ∨
          v.Woken s.running ∧ wakeup ≤ v.timeCount ∧
            switches u.trace < switches v.trace ∨
          Ended v s.running ∧ a.Dismisses u s.running)) ∧
    ∀ u a v date, Run (fun _ _ => True) t u → step a u = .next v →
      v.Sleeps s.running date → u.Sleeps s.running date ∨
        u.running = s.running ∧ a = .call (.waitClock date) := by
  have reachedT := reached.step called
  refine ⟨reached.settled.after_waitClock called, ?_, ?_⟩
  · intro u a v run asleep next
    have settled := (reachedT.run run).settled
    have along (x : KState) (path : Moves (Move.By u a) u x) :
        Sound x ∧ Roused u a s.running wakeup x := by
      have opened : Moves (Move.Opens u a) u x :=
        path.mono fun m w permitted => permitted.opens
      obtain ⟨sound, -, roused⟩ := Roused.path settled.sound asleep opened
      exact ⟨sound, roused⟩
    constructor
    · intro x path early
      obtain ⟨sound, roused⟩ := along x path
      exact roused.early sound early
    · have stepped := settled.stepped next
      obtain ⟨sound, roused⟩ := along v stepped.path
      exact roused.settled sound stepped.onCpu
  · intro u a v date run next asleep
    exact (reachedT.run run).settled.sleeps_before next asleep

/-- The test that `r` sleeps until `wakeup`. -/
def KState.sleeps (s : KState) (r : ProcRef) (wakeup : Nat) : Bool :=
  (s.procs r).any fun p => p.state == .asleep && p.wakeupDate == wakeup

theorem KState.sleeps_of_test (test : s.sleeps r wakeup = true) :
    s.Sleeps r wakeup := by
  unfold KState.sleeps at test
  rw [Option.any_eq_true] at test
  obtain ⟨p, record, checked⟩ := test
  rw [Bool.and_eq_true, beq_iff_eq, beq_iff_eq] at checked
  exact ⟨p, record, checked⟩

/-- The first process sleeps from the fifth tick until date 7, and the tenth
tick, which calls `__scheduler`, wakes it up. -/
theorem sleeper_wakes_at_tenth_tick :
    ∃ s t u v, Reachable s ∧ s.running = 1 ∧
      step (.call (.waitClock 7)) s = .next t ∧
      Run (fun x _ => x.Sleeps 1 7) t u ∧ step .tick u = .next v ∧
      v.timeCount = 10 ∧ v.Woken 1 := by
  obtain ⟨v, performed, -, checked⟩ := exists_of_runActions
    ["idle", "autotest"] (((firstTicks ++ [.call (.waitClock 7)]) ++
      [.resume, .tick, .tick, .tick, .tick]) ++ [.tick])
    (fun v => v.timeCount == 10 && switches v.trace == 3) (by decide)
    (by decide) (by decide +kernel)
  rw [Bool.and_eq_true, beq_iff_eq, beq_iff_eq] at checked
  rw [runActions_append, Option.bind_eq_some_iff] at performed
  obtain ⟨u, toU, ticks⟩ := performed
  have before := check_of_runActions toU
    (fun u => switches u.trace == 2 && u.sleeps 1 7) (by decide +kernel)
  rw [Bool.and_eq_true, beq_iff_eq] at before
  rw [runActions_append, Option.bind_eq_some_iff] at toU
  obtain ⟨t, toT, sleeps⟩ := toU
  rw [runActions_append, Option.bind_eq_some_iff] at toT
  obtain ⟨s, toS, calls⟩ := toT
  have isFirst := check_of_runActions toS (fun s => s.running == 1)
    (by decide +kernel)
  rw [beq_iff_eq] at isFirst
  have reached : Reachable s :=
    reachable_of_runActions (by decide) (by decide) toS
  have called := step_of_runActions calls
  have next := step_of_runActions ticks
  have passed : (runActions (firstTicks ++ [.call (.waitClock 7)])
      (bootState ["idle", "autotest"])).any
        (allAlong (fun x _ => x.sleeps 1 7)
          [.resume, .tick, .tick, .tick, .tick]) = true := by
    decide +kernel
  rw [runActions_append, toS, Option.bind_some, calls] at passed
  have run : Run (fun x _ => x.Sleeps 1 7) t u :=
    run_of_allAlong (reached.step called).settled sleeps _
      (fun _ _ _ test => KState.sleeps_of_test test) passed
  have once := sleepers_wake_once reached called
  rw [isFirst] at once
  refine ⟨s, t, u, v, reached, isFirst, called, run, next, checked.1, ?_⟩
  rcases (once.2.1 u .tick v run (KState.sleeps_of_test before.2) next).2 with
    ⟨-, early⟩ | ⟨woken, -⟩ | ⟨-, pid, -, isKill | ⟨_, _, waits, -⟩⟩
  · have late := early (by omega)
    omega
  · exact woken
  · cases isKill
  · rcases waits with isCall | ⟨isResume, -⟩
    · cases isCall
    · cases isResume

end Runs

end Nebulea
