import Nebulea.KernelFrames
import Nebulea.KernelListOrder

/-!
# Idle

`__scheduler` stores through whatever `queue_out` gives it, so it needs an
activable process at every call.  Idle is that process: while it stays in its
loop nothing takes it out of the two states in which a process may run.
-/

namespace Nebulea

/-- Idle makes no system call. -/
def Action.SparesIdle (s : KState) (a : Action) : Prop :=
  s.running = idleRef → ∀ c, a ≠ .call c

/-- The record of idle, as `__init_idle` fills it. -/
structure Process.IsIdle (p : Process) : Prop where
  runs : p.state.Runs
  pid : p.pid = 0
  priority : p.priority = 1
  fatherPid : p.fatherPid = 0
  stack : (∀ pid retvalp, p.stack ≠ .waitpid pid retvalp) ∧
    ∀ r q message, p.stack ≠ .preceive r q message

/-- Idle can be dispatched, and does not handle a page fault. -/
structure IdleOk (s : KState) : Prop where
  record : ∃ p, s.procs idleRef = some p ∧ p.IsIdle
  calm : s.running = idleRef → s.mode ≠ .pageFault

/-- The process that entered the kernel in `s` is still on the processor, or
another one is about to leave the kernel. -/
def Stays (s v : KState) : Prop :=
  v.running = s.running ∨
    (∀ k, s.mode ≠ .kernel k) ∧ ∃ k, v.mode = .kernel k

section Moves

variable {s v : KState} {a : Action} {m : Move}

theorem Stays.move (stays : Stays s v) (ok : Coherent v)
    (permitted : m.By s a v) (applies : m.Guard v) : Stays s (m.effect v) := by
  by_cases switches : m.Switches
  · cases m with
    | dispatch k r p old restored =>
        right
        rw [← permitted.1]
        exact ⟨applies.1, restored, rfl⟩
    | create pid prio p children =>
        cases permitted.1
        exact .inl rfl
    | createElect pid prio p children =>
        cases permitted.1
        exact .inr ⟨by simp [applies.1], _, rfl⟩
    | handOver q content message sender r p restored =>
        cases permitted.1
        exact .inr ⟨by simp [applies.2.1], _, rfl⟩
    | _ => exact absurd switches id
  · have running := (m.unswitched switches ok applies).running
    rcases stays with same | ⟨outside, k, inKernel⟩
    · exact .inl (running.trans same)
    by_cases keeps : ¬ m.SetsMode
    · exact .inr ⟨outside, k, (m.mode_effect keeps).trans inKernel⟩
    rw [not_not] at keeps
    have elsewhere (mode : v.mode = s.mode) {P : Prop} : P :=
      absurd (mode.symm.trans inKernel) (outside k)
    cases m with
    | settle | refuse | receive => exact elsewhere permitted
    | fault => exact elsewhere permitted.1
    | reap pid r p caller children =>
        obtain ⟨⟨trace, rfl⟩, -⟩ := permitted
        exact elsewhere rfl
    | dispatch | createElect | handOver => exact absurd trivial switches
    | _ => exact absurd keeps id

/-- A page fault is reached by a fault only. -/
theorem Move.pageFault_before (ok : Coherent v) (applies : m.Guard v)
    (faulted : (m.effect v).mode = .pageFault) :
    m = .fault ∨ (m.effect v).running = v.running ∧ v.mode = .pageFault := by
  by_cases switches : m.Switches
  · cases m with
    | dispatch | createElect | handOver => cases faulted
    | create pid prio p children => exact .inr ⟨rfl, faulted⟩
    | _ => exact absurd switches id
  have running := (m.unswitched switches ok applies).running
  by_cases keeps : ¬ m.SetsMode
  · exact .inr ⟨running, (m.mode_effect keeps).symm.trans faulted⟩
  rw [not_not] at keeps
  cases m with
  | settle mode eax =>
      cases applies.1.symm.trans faulted
  | fault => exact .inl rfl
  | reap | refuse | receive => cases faulted
  | dispatch | createElect | handOver => exact absurd trivial switches
  | _ => exact absurd keeps id

theorem Process.IsIdle.living {p : Process} (idle : p.IsIdle) : p.Living := by
  have runs := idle.runs
  constructor
  · intro state
    rw [state] at runs
    exact runs
  · intro state
    rw [state] at runs
    exact runs

/-- No entry but a call of idle itself, or a fault of idle, ends idle. -/
theorem Ending.spares {pid : Int} {p : Process} {how : Ending}
    (spares : a.SparesIdle s) (ok : Coherent s)
    (start : s.running = idleRef → s.mode ≠ .pageFault)
    (has : s.HasPid pid idleRef p) (idle : p.IsIdle) :
    ¬ how.By s a pid idleRef := by
  cases how with
  | exit retval =>
      rintro ⟨isRunning, isExit | ⟨faulted, -⟩⟩
      · exact spares isRunning.symm _ isExit
      · exact start isRunning.symm faulted
  | kill =>
      rintro ⟨-, notIdle⟩
      exact notIdle ((ok.active_of_hasPid has).1.symm.trans idle.pid)

theorem Process.IsIdle.move {p : Process} (idle : p.IsIdle) (sound : Sound v)
    (start : s.running = idleRef → s.mode ≠ .pageFault)
    (spares : a.SparesIdle s) (record : v.procs idleRef = some p)
    (permitted : m.By s a v) (applies : m.Guard v) :
    ∃ n, (m.effect v).procs idleRef = some n ∧ n.IsIdle := by
  have ok := sound.coherent
  have noCall {c : Syscall} (begins : v = s) (isRunning : idleRef = v.running)
      (isCall : a = .call c) {P : Prop} : P := by
    subst begins
    exact absurd isCall (spares isRunning.symm c)
  rcases m.runs_after ok sound.cpu applies record idle.runs with
    ⟨n, after, runsOn⟩ | ⟨suspends, isRunning⟩ | ⟨pid, how, father, rfl⟩ |
      ⟨pid, how, rfl⟩
  · refine ⟨n, after, runsOn.runs, runsOn.pid.trans idle.pid, ?_, ?_, ?_⟩
    · rcases runsOn.priority with same | ⟨newprio, rfl⟩
      · exact same.trans idle.priority
      · exact absurd idle.pid applies.2.2.1
    · rcases runsOn.fatherPid with same | rfl
      · exact same.trans idle.fatherPid
      · -- idle would have to be a son of a process without record
        exact absurd (idle.pid.trans idle.fatherPid.symm)
          (applies.2.2 idleRef p record idle.living)
    · rcases m.stack_after ok applies after with
        ⟨before, record', sameStack⟩ | ⟨isRunning, leaves⟩ | ⟨isNew, -⟩
      · rw [record, Option.some.injEq] at record'
        subst record'
        rw [sameStack]
        exact idle.stack
      · generalize n.stack = k at leaves
        cases leaves with
        | dispatch k r q old restored =>
            obtain ⟨-, -, -, -, -, ⟨content, found, -, fits⟩, -⟩ := applies
            rw [← isRunning, record, Option.some.injEq] at found
            subst found
            have runs := idle.runs
            constructor
            · rintro pid retvalp rfl
              rw [fits.1] at runs
              exact runs
            · rintro r q message rfl
              rw [fits.2.1] at runs
              exact runs
        | createElect => exact ⟨by simp, by simp⟩
        | handOver => exact ⟨by simp, by simp⟩
      · exact absurd isNew (ok.lt_nextRef record).ne
  · cases m with
    | sleep => exact noCall permitted.1 isRunning permitted.2
    | awaitChild =>
        obtain ⟨begins, pid, retvalp, isCall, -⟩ := permitted
        exact noCall begins isRunning isCall
    | awaitSend => exact noCall permitted.1 isRunning permitted.2.2
    | awaitReceive =>
        obtain ⟨begins, -, message, isCall⟩ := permitted
        exact noCall begins isRunning isCall
    | awaitSem => exact noCall permitted.1 isRunning permitted.2.2
    | _ => exact absurd rfl suspends
  · obtain ⟨rfl, ends⟩ := permitted
    exact absurd ends (Ending.spares spares ok start applies.1 idle)
  · obtain ⟨rfl, ends⟩ := permitted
    exact absurd ends (Ending.spares spares ok start applies.1 idle)

theorem IdleOk.move (idle : IdleOk v) (sound : Sound v) (stays : Stays s v)
    (begun : Sound s) (start : IdleOk s) (spares : a.SparesIdle s)
    (permitted : m.By s a v) (applies : m.Guard v) : IdleOk (m.effect v) := by
  obtain ⟨p, record, isIdle⟩ := idle.record
  refine ⟨isIdle.move sound start.calm spares record permitted applies, ?_⟩
  intro isRunning faulted
  rcases m.pageFault_before sound.coherent applies faulted with
    rfl | ⟨running, before⟩
  swap
  · exact idle.calm (running.symm.trans isRunning) before
  obtain ⟨mode, mayFault⟩ := permitted
  have began : s.running = idleRef := by
    rcases stays with same | ⟨outside, k, inKernel⟩
    · exact same.symm.trans isRunning
    · exact absurd (mode.symm.trans inKernel) (outside k)
  obtain ⟨q, found, wasIdle⟩ := start.record
  cases a with
  | call c => exact spares began c rfl
  | tick => exact mayFault
  | resume =>
      have loaded (k : Context) (inKernel : s.mode = .kernel k) : q.stack = k :=
        begun.context.loaded k q inKernel (began.symm ▸ found)
      rcases mayFault with
        ⟨pid, retvalp, inKernel⟩ | ⟨r, queue, message, inKernel, -⟩
      · exact wasIdle.stack.1 pid retvalp (loaded _ inKernel)
      · exact wasIdle.stack.2 r queue message (loaded _ inKernel)

end Moves

section Runs

variable {apps : List String} {b s u : KState} {a : Action}

/-- The same, as the record of idle says it. -/
structure Process.Ready (p : Process) : Prop where
  pid : p.pid = 0
  priority : p.priority = 1
  state : p.state = .elected ∧ p.link = none ∨
    p.state = .activable ∧ p.link = some .activable

theorem IdleOk.ready (idle : IdleOk s) (ok : Coherent s) :
    ∃ p, s.procs idleRef = some p ∧ p.Ready := by
  obtain ⟨p, record, isIdle⟩ := idle.record
  refine ⟨p, record, isIdle.pid, isIdle.priority, ?_⟩
  have runs := isIdle.runs
  have linked := ok.procs.linked idleRef p record
  cases state : p.state with
  | elected => exact .inl ⟨rfl, by simpa [KState.LinkOk, state] using linked⟩
  | activable => exact .inr ⟨rfl, by simpa [KState.LinkOk, state] using linked⟩
  | _ =>
      rw [state] at runs
      exact absurd runs id

/-- The loops inside a step leave idle ready as well. -/
theorem Passes.ready (passes : Passes s a u) (settled : Settled s)
    (along : ∀ v, Moves (Move.By s a) s v →
      ∃ p, v.procs idleRef = some p ∧ p.Ready) :
    ∃ p, u.procs idleRef = some p ∧ p.Ready := by
  induction passes with
  | move path => exact along _ path
  | data _ procs _ _ ih =>
      rw [procs]
      exact ih
  | turn front next ih =>
      rename_i v x w content
      obtain ⟨p, record, ready⟩ := ih
      have lists := front.listsOk settled
      -- idle is not among the processes of a semaphore
      have other : idleRef ≠ w := by
        rintro rfl
        have link := lists.link_of_mem record (List.mem_of_getLast? next.1)
        rcases ready.state with ⟨-, unlinked⟩ | ⟨-, activable⟩
        · cases unlinked.symm.trans link
        · cases activable.symm.trans link
      exact ⟨p, by simpa [other] using record, ready⟩

end Runs

end Nebulea
