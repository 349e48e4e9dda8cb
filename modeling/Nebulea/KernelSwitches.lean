import Nebulea.KernelFrames
import Nebulea.SemaphoreRuns

/-!
# Where registers are saved

`__scheduler` recognises the process it is leaving by its pid.  A finished
record keeps its pid until the next call of `__scheduler`, although `start` may
have given this pid away.  As long as no process is elected at once with such a
pid, registers go to the record they belong to.
-/

namespace Nebulea

/-- Finished records are told apart from the process on the processor, and
every process off the processor has its registers saved. -/
structure Unmixed (s : KState) : Prop where
  current : ∀ f p, s.procs f = some p → p.state = .finished →
    f ≠ s.running → p.pid ≠ s.currentPid
  recycled : ∀ f p r q, s.procs f = some p → p.state = .finished →
    s.procs r = some q → q.state ≠ .finished → q.pid = p.pid →
      f ≠ s.running ∧ (q.state = .activable ∨ q.state = .zombie)
  saved : ∀ r p, s.procs r = some p → p.state ≠ .finished →
    r ≠ s.running → p.registers ≠ none

/-- The action does not elect a new process whose pid a finished record still
has. -/
def Action.Unrecycled (s : KState) : Action → Prop
  | .call (.start _ ssize prio) =>
      ssize ≤ 0x10000000 → prio ≤ maxPrio → s.prio s.running < prio →
        ∀ f ∈ s.lists .finished, ∀ p, s.procs f = some p →
          p.pid ≠ getFreePid s
  | _ => True

theorem Action.unrecycled_of_nil {s : KState} (empty : s.lists .finished = [])
    (a : Action) : a.Unrecycled s := by
  unfold Action.Unrecycled
  split
  · simp [empty]
  · trivial

namespace Unmixed

variable {s t : KState} (unmixed : Unmixed s)

include unmixed

/-- Only the running process has the current pid. -/
theorem pid_ne_of_other (ok : Coherent s) (cpu : CpuOk s) {r : ProcRef}
    {p : Process} (record : s.procs r = some p) (other : r ≠ s.running) :
    p.pid ≠ s.currentPid := by
  intro same
  obtain ⟨c, onCpu, isPid⟩ := cpu.current
  by_cases finished : p.state = .finished
  · exact unmixed.current r p record finished other same
  by_cases runningEnded : c.state = .finished
  · exact (unmixed.recycled s.running c r p onCpu runningEnded record finished
      (same.trans isPid.symm)).1 rfl
  · exact other (ok.procs.eq_of_pid record onCpu finished runningEnded
      (same.trans isPid.symm))

/-- No process is switched, and a record that becomes finished has left the
table. -/
theorem unswitched (ok : Coherent s) (cpu : CpuOk s) (okT : Coherent t)
    (same : Unswitched s t)
    (ends : ∀ x p n, s.procs x = some p → t.procs x = some n →
      n.state = .finished → p.state = .finished ∨
        t.processTable p.pid = none) : Unmixed t := by
  constructor
  · intro f n found finished other
    obtain ⟨p, record, context⟩ := same.procs f n found
    rw [same.running] at other
    rw [same.currentPid, context.pid]
    exact unmixed.pid_ne_of_other ok cpu record other
  · intro f n r m found finished found' active samePid
    obtain ⟨p, record, context⟩ := same.procs f n found
    obtain ⟨q, record', context'⟩ := same.procs r m found'
    rcases ends f p n record found finished with wasFinished | gone
    · obtain ⟨other, state⟩ := unmixed.recycled f p r q record wasFinished
        record' (context'.active active)
        (by rw [← context.pid, ← context'.pid, samePid])
      refine ⟨same.running ▸ other, ?_⟩
      rcases context'.state with
        ⟨sameState, -⟩ | ⟨-, elected, -⟩ | ⟨-, activable, -⟩ | ⟨ended, -⟩
      · rwa [sameState]
      · rcases state with state | state <;> simp [elected] at state
      · exact .inl activable
      · right
        by_contra notZombie
        exact ended ⟨notZombie, active⟩
    · have listed := okT.procs.listed r m found' active
      rw [samePid, context.pid, gone] at listed
      cases listed
  · intro r n found active other
    obtain ⟨p, record, context⟩ := same.procs r n found
    rw [context.registers]
    exact unmixed.saved r p record (context.active active)
      (same.running ▸ other)

/-- Once the other finished records are released, `old_process` is the running
process. -/
theorem oldProcess_eq (ok : Coherent s) (cpu : CpuOk s) (purged : s.Purged) :
    (∀ old, s.OldProcess old → old = s.running) ∧
      (s.lists .finished = [] ∨ s.lists .finished = [s.running]) := by
  have only : ∀ x ∈ s.lists .finished, x = s.running := by
    intro x member
    obtain ⟨p, record, -⟩ := ok.record_of_mem member
    by_contra other
    exact unmixed.pid_ne_of_other ok cpu record other (purged x member p record)
  constructor
  · rintro old (last | ⟨empty, entry⟩)
    · exact only old (List.mem_of_getLast? last)
    · obtain ⟨-, -, p, record, isPid, -⟩ := ok.procs.table _ _ entry
      by_contra other
      exact unmixed.pid_ne_of_other ok cpu record other isPid
  · have distinct := ok.lists.nodup .finished
    cases isList : s.lists .finished with
    | nil => exact .inl rfl
    | cons x rest =>
        right
        rw [isList] at only distinct
        cases rest with
        | nil => rw [only x (by simp)]
        | cons y rest =>
            have isX := only x (by simp)
            have isY := only y (by simp)
            simp [isX, isY] at distinct

/-- `__free_process` meets no record of the current pid. -/
theorem not_crowded (ok : Coherent s) (cpu : CpuOk s) : ¬ s.Crowded := by
  rintro ⟨x, member, notKept, p, record, isPid⟩
  have only {y : ProcRef} {q : Process} (found : s.procs y = some q)
      (samePid : q.pid = s.currentPid) : y = s.running := by
    by_contra other
    exact unmixed.pid_ne_of_other ok cpu found other samePid
  cases kept : s.findPid .finished s.currentPid with
  | none =>
      have missed := List.find?_eq_none.mp kept x member
      simp [record, isPid] at missed
  | some y =>
      obtain ⟨q, found, -⟩ := ok.record_of_mem (List.mem_of_find?_eq_some kept)
      have samePid : q.pid = s.currentPid := by
        simpa [found] using List.find?_some kept
      apply notKept
      rw [kept, only found samePid, only record isPid]

/-- The process that gets the processor finds its registers. -/
theorem not_unsaved (ok : Coherent s) (cpu : CpuOk s) : ¬ s.Unsaved := by
  rintro ⟨r, p, old, record, active, lost, other, isRunning | ⟨isOld, purged⟩⟩
  · exact unmixed.saved r p record active (isRunning ▸ other) lost
  · have isRunning := (unmixed.oldProcess_eq ok cpu purged).1 old isOld
    exact unmixed.saved r p record active (isRunning ▸ other) lost

theorem dispatch (ok : Coherent s) (cpu : CpuOk s)
    {k restored : Context} {r old : ProcRef} {p : Process}
    (applies : (Move.dispatch k r p old restored).Guard s) :
    Unmixed ((Move.dispatch k r p old restored).effect s) := by
  obtain ⟨-, next, isOld, -, purged, -, -⟩ := applies
  have isRunning := (unmixed.oldProcess_eq ok cpu purged).1 old isOld
  have state := ok.activable_of_nextOut next
  -- Only the process that leaves the processor may be finished.
  have onlyOld : ∀ f n, ((Move.dispatch k r p old restored).effect s).procs f =
      some n → n.state = .finished → ∃ before, f = s.running ∧
        s.procs f = some before ∧ before.state = .finished ∧
        before.pid = n.pid := by
    intro f n found finished
    rw [Move.dispatch_procs] at found
    split at found
    · cases found
      cases finished
    · obtain ⟨before, present, rfl⟩ := Option.map_eq_some_iff.mp found
      have link : before.link = some .finished := by
        have linked := ok.procs.linked f before present
        rw [KState.LinkOk, show before.state = .finished from finished] at linked
        exact linked
      have isPid := purged f (ok.lists.mem_of_link present link) before present
      refine ⟨before, ?_, present, finished, rfl⟩
      by_contra other
      exact unmixed.pid_ne_of_other ok cpu present other isPid
  constructor
  · intro f n found finished _
    obtain ⟨before, rfl, present, wasFinished, samePid⟩ :=
      onlyOld f n found finished
    intro same
    exact (unmixed.recycled _ before r p present wasFinished next.2
      (by simp [state]) (same.symm.trans samePid.symm)).1 rfl
  · intro f n x q found finished found' active samePid
    obtain ⟨before, rfl, present, wasFinished, beforePid⟩ :=
      onlyOld f n found finished
    rw [Move.dispatch_procs] at found'
    split at found'
    · cases found'
      exact absurd rfl (unmixed.recycled _ before r p present wasFinished
        next.2 (by simp [state]) (samePid.trans beforePid.symm)).1
    · obtain ⟨content, present', rfl⟩ := Option.map_eq_some_iff.mp found'
      exact absurd rfl (unmixed.recycled _ before x content present wasFinished
        present' active (samePid.trans beforePid.symm)).1
  · intro x n found active other
    have notNew : x ≠ r := other
    rw [Move.dispatch_procs, if_neg notNew] at found
    obtain ⟨before, present, rfl⟩ := Option.map_eq_some_iff.mp found
    by_cases wasOld : x = old
    · simp [wasOld]
    · simpa [wasOld] using
        unmixed.saved x before present active (isRunning ▸ wasOld)

/-- The running process and one more record change, and neither of them is
finished. -/
theorem replace {a : ProcRef} {m n : Process}
    (procs : ∀ x, t.procs x = if x = a then some m
      else if x = s.running then some n else s.procs x)
    (activeM : m.state ≠ .finished) (activeN : n.state ≠ .finished)
    (apart : ∀ f p, s.procs f = some p → p.state = .finished → f ≠ s.running →
      f ≠ t.running ∧ p.pid ≠ t.currentPid ∧ n.pid ≠ p.pid ∧
        (m.pid = p.pid → m.state = .activable))
    (savedM : a ≠ t.running → m.registers ≠ none)
    (savedN : s.running ≠ t.running → n.registers ≠ none) : Unmixed t := by
  have before : ∀ f p, t.procs f = some p → p.state = .finished →
      s.procs f = some p ∧ f ≠ s.running := by
    intro f p found finished
    rw [procs] at found
    split at found
    · cases found
      exact absurd finished activeM
    · split at found
      · cases found
        exact absurd finished activeN
      · rename_i notRunning
        exact ⟨found, notRunning⟩
  constructor
  · intro f p found finished _
    obtain ⟨record, other⟩ := before f p found finished
    exact (apart f p record finished other).2.1
  · intro f p r q found finished found' active samePid
    obtain ⟨record, other⟩ := before f p found finished
    obtain ⟨notRunning, -, notN, isM⟩ := apart f p record finished other
    refine ⟨notRunning, ?_⟩
    rw [procs] at found'
    split at found'
    · cases found'
      exact .inl (isM samePid)
    · split at found'
      · cases found'
        exact absurd samePid notN
      · exact (unmixed.recycled f p r q record finished found' active
          samePid).2
  · intro x p found active other
    rw [procs] at found
    split at found
    · rename_i isA
      cases found
      exact savedM (isA ▸ other)
    · split at found
      · rename_i isRunning
        cases found
        exact savedN (isRunning ▸ other)
      · rename_i notRunning
        exact unmixed.saved x p found active notRunning

theorem create (ok : Coherent s) (cpu : CpuOk s) {pid prio : Int}
    {p : Process} {children : List Child}
    (applies : (Move.create pid prio p children).Guard s) :
    Unmixed ((Move.create pid prio p children).effect s) := by
  obtain ⟨-, onCpu, listed, -⟩ := applies
  have distinct : s.running ≠ s.nextRef := (ok.lt_nextRef onCpu.1).ne
  have isPid := (ok.active_of_hasPid ⟨listed, onCpu.1⟩).1
  refine unmixed.replace (Move.create_procs distinct) (by simp)
    (by simp [onCpu.2]) ?_ (fun _ => by simp [KState.created])
    (fun away => absurd rfl away)
  intro f q record finished other
  have notCurrent := unmixed.pid_ne_of_other ok cpu record other
  refine ⟨other, notCurrent, ?_, fun _ => rfl⟩
  exact fun same => notCurrent (same.symm.trans isPid)

theorem createElect (ok : Coherent s) (cpu : CpuOk s) {pid prio : Int}
    {p : Process} {children : List Child}
    (applies : (Move.createElect pid prio p children).Guard s)
    (unrecycled : ∀ f ∈ s.lists .finished, ∀ q, s.procs f = some q →
      q.pid ≠ pid) :
    Unmixed ((Move.createElect pid prio p children).effect s) := by
  obtain ⟨-, onCpu, listed, -⟩ := applies
  have distinct : s.running ≠ s.nextRef := (ok.lt_nextRef onCpu.1).ne
  have isPid := (ok.active_of_hasPid ⟨listed, onCpu.1⟩).1
  refine unmixed.replace (Move.createElect_procs distinct)
    (by simp [KState.created, Process.zeroed]) (by simp) ?_
    (fun away => absurd rfl away) (fun _ => by simp)
  intro f q record finished other
  have link : q.link = some .finished := by
    simpa [KState.LinkOk, finished] using ok.procs.linked f q record
  have notPid := unrecycled f (ok.lists.mem_of_link record link) q record
  refine ⟨(ok.lt_nextRef record).ne, notPid, ?_, ?_⟩
  · intro same
    exact unmixed.pid_ne_of_other ok cpu record other (same.symm.trans isPid)
  · intro same
    exact absurd same.symm notPid

theorem handOver (ok : Coherent s) (cpu : CpuOk s) {q : QueueRef}
    {content : MessageQueue} {message : Int} {sender p : Process}
    {r : ProcRef} {restored : Context}
    (applies :
      (Move.handOver q content message sender r p restored).Guard s) :
    Unmixed ((Move.handOver q content message sender r p restored).effect
      s) := by
  obtain ⟨-, -, -, next, onCpu, -⟩ := applies
  have distinct := ok.running_ne_of_nextOut next onCpu
  have state := ok.inMsgqueue_of_nextOut next
  obtain ⟨c, record, isPid⟩ := cpu.current
  rw [onCpu.1, Option.some.injEq] at record
  subst record
  refine unmixed.replace (Move.handOver_procs distinct) (by simp) (by simp) ?_
    (fun away => absurd rfl away) (fun _ => by simp)
  intro f n record finished other
  -- A blocked process shares its pid with no finished record.
  have notPid : p.pid ≠ n.pid := by
    intro same
    have recycled := (unmixed.recycled f n r p record finished next.2
      (by simp [state]) same).2
    simp [state] at recycled
  refine ⟨?_, fun same => notPid same.symm, ?_, fun same => absurd same notPid⟩
  · intro same
    have isR : f = r := same
    rw [isR, next.2, Option.some.injEq] at record
    simp [← record, state] at finished
  · intro same
    exact unmixed.pid_ne_of_other ok cpu record other (same.symm.trans isPid)

end Unmixed

/-- A record that becomes finished has left the table. -/
theorem Move.unlisted_of_finished {s : KState} {m : Move} {x : ProcRef}
    {p n : Process} (ok : Coherent s) (applies : m.Guard s)
    (stays : ¬ m.Switches) (record : s.procs x = some p)
    (found : (m.effect s).procs x = some n) (finished : n.state = .finished) :
    p.state = .finished ∨ (m.effect s).processTable p.pid = none := by
  by_cases touched : m.Touches s x
  swap
  · rw [m.procs_untouched ok applies touched, record, Option.map_some,
      Option.some.injEq] at found
    rw [← found, m.saves_state] at finished
    exact .inl finished
  have becomes {c : Process} (isNew : (m.effect s).procs x = some c) :
      c.state = .finished := by
    rw [isNew, Option.some.injEq] at found
    exact found ▸ finished
  have unlisted {pid : Int} {r : ProcRef} {q : Process} (has : s.HasPid pid r q)
      (isR : x = r) : p.pid = pid := by
    rw [isR, has.2, Option.some.injEq] at record
    exact record ▸ (ok.active_of_hasPid has).1
  have steady (isSteady : m.IsSteady) :
      p.state = .finished ∨ (m.effect s).processTable p.pid = none :=
    .inl (((m.steady isSteady ok applies).family x p n record
      found).finished.mp finished)
  cases m with
  | dispatch | create | createElect | handOver => exact absurd trivial stays
  | endProcess pid r q how father =>
      obtain ⟨-, -, -, -, woken⟩ := applies
      cases father with
      | none =>
          cases touched.resolve_right (by simp)
          cases becomes (Function.update_self ..)
      | some father =>
          have isNew := Move.endProcess_procs (s := s) (i := pid) (p := q)
            (h := how) (f := father.2) woken.1 x
          split at isNew
          · cases becomes isNew
          · split at isNew
            · cases becomes isNew
            · rw [record] at isNew
              exact .inl (becomes isNew)
  | endFatherless pid r q how =>
      right
      rw [unlisted applies.1 touched]
      exact Function.update_self ..
  | orphan r q =>
      cases touched
      cases record.symm.trans applies.1
      exact .inl (becomes (c := { p with fatherPid := -1 })
        (Function.update_self ..))
  | finish pid r q =>
      right
      rw [unlisted applies.1 touched]
      exact Function.update_self ..
  | reap pid r q caller children =>
      obtain ⟨-, -, has, -, -, distinct, onCpu, -⟩ := applies
      have isNew := Move.reap_procs (i := pid) (p := q) (c := caller)
        (l := children) distinct x
      by_cases isR : x = r
      · right
        rw [unlisted has isR]
        exact Function.update_self ..
      · rw [if_neg isR, if_pos (touched.resolve_left isR)] at isNew
        have ended := becomes isNew
        cases onCpu.2.symm.trans ended
  | _ => exact steady trivial

/-- The moves of a step keep finished records apart. -/
theorem Sound.unmixed_move {s t : KState} {a : Action} {m : Move}
    (sound : Sound t) (permitted : m.By s a t) (applies : m.Guard t)
    (fresh : a.Unrecycled s) (unmixed : Unmixed t) :
    Unmixed (m.effect t) := by
  have ok := sound.coherent
  have still (stays : ¬ m.Switches) : Unmixed (m.effect t) :=
    unmixed.unswitched ok sound.cpu (sound.move applies).coherent
      (m.unswitched stays ok applies)
      fun _ _ _ record found => Move.unlisted_of_finished ok applies stays record found
  cases m with
  | dispatch k r p old restored => exact unmixed.dispatch ok sound.cpu applies
  | create pid prio p children => exact unmixed.create ok sound.cpu applies
  | handOver q content message sender r p restored =>
      exact unmixed.handOver ok sound.cpu applies
  | createElect pid prio p children =>
      refine unmixed.createElect ok sound.cpu applies ?_
      obtain ⟨rfl, rfl, name, ssize, rfl, size, inRange⟩ := permitted
      obtain ⟨-, onCpu, -, -, -, -, -, above⟩ := applies
      exact fresh size inRange (by rwa [KState.prio_eq onCpu.1])
  | _ => exact still id

/-! ## Runs -/

/-- A switch of `__scheduler` saves the registers of the process that was
running, and no other finished record is left. -/
def Event.SavesRunning : Event → Prop
  | .contextSwitch running old finished =>
      old = running ∧ (finished = [] ∨ finished = [running])
  | _ => True

theorem Move.events_saveRunning {s t : KState} {a : Action} {m : Move}
    (sound : Sound t) (permitted : m.By s a t) (applies : m.Guard t)
    (unmixed : Unmixed t) : ∀ e ∈ m.events t, e.SavesRunning := by
  intro e member
  cases m with
  | dispatch k r p old restored =>
      cases List.mem_singleton.mp member
      obtain ⟨-, -, isOld, -, purged, -⟩ := applies
      have only := unmixed.oldProcess_eq sound.coherent sound.cpu purged
      exact ⟨only.1 old isOld, only.2⟩
  | note event =>
      cases List.mem_singleton.mp member
      cases e <;> trivial
  | endProcess pid r p how father | endFatherless pid r p how =>
      cases List.mem_singleton.mp member
      cases how <;> trivial
  | awaitSend | take | receive | acquire | post | resetSem =>
      cases List.mem_singleton.mp member
      trivial
  | put | refill | handOver | postWake =>
      rcases List.mem_pair.mp member with rfl | rfl <;> trivial
  | _ => cases member

theorem bootState_unmixed (apps : List String) : Unmixed (bootState apps) := by
  constructor
  · intro f p found finished
    rcases bootState_procs found with ⟨-, rfl⟩ | ⟨-, rfl⟩ <;> cases finished
  · intro f p r q found finished
    rcases bootState_procs found with ⟨-, rfl⟩ | ⟨-, rfl⟩ <;> cases finished
  · intro r p found _ other
    rcases bootState_procs found with ⟨isIdle, -⟩ | ⟨-, rfl⟩
    · exact absurd isIdle other
    · simp [autotestRecord]

/-- What holds along the runs that recycle no pid too early. -/
theorem Run.unmixed {apps : List String} {s : KState}
    (run : Run (fun t a => a.Unrecycled t) (bootState apps) s) :
    Unmixed s ∧ ∀ e ∈ s.trace, e.SavesRunning := by
  refine run.keeps bootState_settled
    (I := fun u => Unmixed u ∧ ∀ e ∈ u.trace, e.SavesRunning) ?_
    ⟨bootState_unmixed apps, by simp [bootState, KState.zeroed]⟩
  rintro b a u m fresh settled - sound permitted applies ⟨unmixed, trace⟩
  refine ⟨sound.unmixed_move permitted applies fresh unmixed, ?_⟩
  rw [m.trace_effect]
  intro e member
  rcases List.mem_append.mp member with new | old
  · exact Move.events_saveRunning sound permitted applies unmixed e new
  · exact trace e old

/-- As long as `start` elects no process whose pid a finished record still has,
each switch of `__scheduler` saves the registers of the process that was
running into its own record, with no other record left in `finished_list`;
`__free_process` does not panic, no process finds its registers gone, and the
same holds of `finished_list` when no process can be dispatched. -/
theorem scheduler_saves_running {apps : List String} {b s : KState}
    (booted : Booted apps b) (run : Run (fun t a => a.Unrecycled t) b s) :
    (∀ running old finished,
      Event.contextSwitch running old finished ∈ s.trace →
        old = running ∧ (finished = [] ∨ finished = [running])) ∧
      ∀ a failure t, a.Unrecycled s → step a s = .stopped failure t →
        failure ≠ .panic "Trying to free the current process" ∧
          failure ≠ .lostContext ∧
          (failure = .noActivable →
            t.lists .finished = [] ∨ t.lists .finished = [t.running]) := by
  cases booted_eq booted
  have settled := run.settled bootState_settled
  obtain ⟨unmixed, trace⟩ := run.unmixed
  refine ⟨fun running old finished => trace _, ?_⟩
  intro a failure t fresh stopped
  obtain ⟨p, onCpu⟩ := settled.onCpu
  have stops := step_stopped settled.sound onCpu stopped
  have along : ∀ u, Moves (Move.By s a) s u → Sound u ∧ Unmixed u := by
    intro u path
    refine path.keeps (I := fun v => Sound v ∧ Unmixed v) ?_
      ⟨settled.sound, unmixed⟩
    rintro m v permitted applies ⟨sound, kept⟩
    exact ⟨sound.move applies, sound.unmixed_move permitted applies fresh kept⟩
  refine ⟨?_, ?_, ?_⟩
  · rintro rfl
    obtain ⟨u, path, crowded⟩ := stops rfl
    obtain ⟨sound, kept⟩ := along u path
    exact kept.not_crowded sound.coherent sound.cpu crowded
  · rintro rfl
    obtain ⟨u, path, unsaved⟩ := stops
    obtain ⟨sound, kept⟩ := along u path
    exact kept.not_unsaved sound.coherent sound.cpu unsaved
  · rintro rfl
    obtain ⟨path, purged, -⟩ := stops
    obtain ⟨sound, kept⟩ := along t path
    exact (kept.oldProcess_eq sound.coherent sound.cpu purged).2

/-- A child that ends is switched out and released without being mixed up. -/
theorem saves_running_after_exit :
    ∃ b s, Booted ["idle", "autotest", "a"] b ∧
      Run (fun t a => a.Unrecycled t) b s ∧
      Event.contextSwitch 2 2 [] ∈ s.trace ∧
      ∀ running old finished,
        Event.contextSwitch running old finished ∈ s.trace →
          old = running ∧ (finished = [] ∨ finished = [running]) := by
  obtain ⟨s, performed, -, checked⟩ := exists_of_runActions
    ["idle", "autotest", "a"] (firstTicks ++ [.call (.start "a" 4096 200),
      .resume, .call (.exit 3), .resume, .call (.waitpid 2 ⟨0, false⟩)])
    (fun s => s.trace.contains (.contextSwitch 2 2 [])) (by decide) (by decide)
    (by decide +kernel)
  have booted : Booted ["idle", "autotest", "a"] _ :=
    booted_bootState (by decide) (by decide)
  have run : Run (fun t a => a.Unrecycled t)
      (bootState ["idle", "autotest", "a"]) s := by
    refine run_of_allAlong bootState_settled performed
      (fun t _ => t.lists .finished == []) ?_ (by decide +kernel)
    intro t a _ empty
    exact Action.unrecycled_of_nil (by simpa using empty) a
  exact ⟨_, s, booted, run, by simpa using checked,
    (scheduler_saves_running booted run).1⟩

/-- A new process gets the pid of a record that is not released yet. -/
def recyclingRun : List Action :=
  firstTicks ++ [.call (.start "a" 4096 200), .resume, .call (.exit 3),
    .resume, .call (.waitpid 2 ⟨0, false⟩), .call (.start "b" 4096 200),
    .resume, .call (.waitClock 1000)]

/-- The registers of the new process go to the record of the old one, which
stays in `finished_list`. -/
theorem recycling_saves_elsewhere :
    ∃ b s running old finished, Booted ["idle", "autotest", "a", "b"] b ∧
      Run (fun _ _ => True) b s ∧
      Event.contextSwitch running old finished ∈ s.trace ∧ old ≠ running ∧
      finished ≠ [] ∧ finished ≠ [running] := by
  obtain ⟨s, performed, -, checked⟩ := exists_of_runActions
    ["idle", "autotest", "a", "b"] recyclingRun
    (fun s => s.trace.contains (.contextSwitch 3 2 [2])) (by decide)
    (by decide) (by decide +kernel)
  exact ⟨_, s, 3, 2, [2], booted_bootState (by decide) (by decide),
    run_of_runActions performed, by simpa using checked, by decide, by decide,
    by decide⟩

end Nebulea
