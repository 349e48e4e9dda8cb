import Nebulea.KernelMoveCoherence

/-!
# Moves that leave the processor where it is

Most moves change one record, and only its state, its list and fields that
belong to a single system call.  This module says so once, in two strengths:
an unswitched move keeps the saved context of every process, and a steady one
keeps the families as well.
-/

namespace Nebulea

/-- What happens to the record of process `x` when no process is switched. -/
structure SameContext (s : KState) (x : ProcRef) (p n : Process) : Prop where
  pid : n.pid = p.pid
  stack : n.stack = p.stack
  registers : n.registers = p.registers
  skip : n.skipMessage = true → p.skipMessage = true ∨
    x ≠ s.running ∧ n.state = .activable ∧ ∃ q, p.link = some (.queue q)
  state :
    n.state = p.state ∧ n.link = p.link ∨
      x = s.running ∧ p.state = .elected ∧ n.Living ∨
      p.Living ∧ n.state = .activable ∧ n.link = some .activable ∨
      ¬ n.Living ∧ p.state ≠ .finished

/-- The fields that tie a process to its father and its children. -/
structure SameFamily (p n : Process) : Prop where
  fatherPid : n.fatherPid = p.fatherPid
  children : n.children = p.children
  waitedPid : n.waitedPid = p.waitedPid
  retval : n.retval = p.retval
  zombie : n.state = .zombie ↔ p.state = .zombie
  finished : n.state = .finished ↔ p.state = .finished
  waiting : p.state = .waitingPid → n.state = .waitingPid

/-- The fields that suspending a process and waking it up leave alone. -/
structure SameBody (p n : Process) : Prop where
  pid : n.pid = p.pid
  stack : n.stack = p.stack
  registers : n.registers = p.registers
  skip : n.skipMessage = p.skipMessage
  fatherPid : n.fatherPid = p.fatherPid
  children : n.children = p.children
  waitedPid : n.waitedPid = p.waitedPid
  retval : n.retval = p.retval

/-- Record `r` becomes `n`, and the processor holds what it held. -/
structure Replaces (s t : KState) (r : ProcRef) (n : Process) : Prop where
  procs : t.procs = Function.update s.procs r (some n)
  table : t.processTable = s.processTable
  running : t.running = s.running
  currentPid : t.currentPid = s.currentPid
  mode : t.mode = s.mode

/-- No process is switched between `s` and `t`. -/
structure Unswitched (s t : KState) : Prop where
  running : t.running = s.running
  currentPid : t.currentPid = s.currentPid
  mode : t.mode = s.mode ∨ ∀ k, t.mode ≠ .kernel k
  procs : ∀ x n, t.procs x = some n →
    ∃ p, s.procs x = some p ∧ SameContext s x p n

/-- Nothing about families changes between `s` and `t` either. -/
structure Steady (s t : KState) : Prop extends Unswitched s t where
  table : t.processTable = s.processTable
  family : ∀ x p n, s.procs x = some p → t.procs x = some n → SameFamily p n
  kept : ∀ x p, s.procs x = some p → p.state ≠ .finished →
    ∃ n, t.procs x = some n

namespace SameContext

variable {s : KState} {x : ProcRef} {p n : Process}

theorem refl (s : KState) (x : ProcRef) (p : Process) : SameContext s x p p :=
  ⟨rfl, rfl, rfl, .inl, .inl ⟨rfl, rfl⟩⟩

/-- A record that is not finished afterwards was not finished before. -/
theorem active (same : SameContext s x p n) (active : n.state ≠ .finished) :
    p.state ≠ .finished := by
  rcases same.state with ⟨state, -⟩ | ⟨-, state, -⟩ | ⟨living, -⟩ | ⟨-, state⟩
  · rwa [← state]
  · simp [state]
  · exact living.2
  · exact state

theorem living (same : SameContext s x p n) (living : n.Living) :
    p.Living := by
  rcases same.state with ⟨state, -⟩ | ⟨-, state, -⟩ | ⟨before, -⟩ | ⟨ended, -⟩
  · rwa [Process.Living, ← state]
  · simp [Process.Living, state]
  · exact before
  · exact absurd living ended

/-- The process is woken up afterwards. -/
theorem wake (same : SameContext s x p n) (living : n.Living) {m : Process}
    (body : SameBody n m) (state : m.state = .activable)
    (link : m.link = some .activable) : SameContext s x p m where
  pid := body.pid.trans same.pid
  stack := body.stack.trans same.stack
  registers := body.registers.trans same.registers
  skip := by
    intro isSet
    rcases same.skip (body.skip ▸ isSet) with before | ⟨other, -, queue⟩
    · exact .inl before
    · exact .inr ⟨other, state, queue⟩
  state := .inr (.inr (.inl ⟨same.living living, state, link⟩))

end SameContext

theorem SameFamily.refl (p : Process) : SameFamily p p :=
  ⟨rfl, rfl, rfl, rfl, Iff.rfl, Iff.rfl, id⟩

theorem SameFamily.living {p n : Process} (same : SameFamily p n) :
    n.Living ↔ p.Living := by
  simp only [Process.Living, ne_eq, same.zombie, same.finished]

namespace Unswitched

variable {s t : KState}

/-- One record changes. -/
theorem update {r : ProcRef} {p n : Process} (record : s.procs r = some p)
    (procs : t.procs = Function.update s.procs r (some n))
    (running : t.running = s.running)
    (currentPid : t.currentPid = s.currentPid)
    (mode : t.mode = s.mode ∨ ∀ k, t.mode ≠ .kernel k)
    (same : SameContext s r p n) : Unswitched s t := by
  refine ⟨running, currentPid, mode, ?_⟩
  intro x content found
  rw [procs] at found
  by_cases isR : x = r
  · subst isR
    simp only [Function.update_self, Option.some.injEq] at found
    subst found
    exact ⟨p, record, same⟩
  · rw [Function.update_of_ne isR] at found
    exact ⟨content, found, SameContext.refl s x content⟩

end Unswitched

namespace Steady

variable {s t : KState}

theorem frame (procs : t.procs = s.procs)
    (table : t.processTable = s.processTable)
    (running : t.running = s.running)
    (currentPid : t.currentPid = s.currentPid)
    (mode : t.mode = s.mode ∨ ∀ k, t.mode ≠ .kernel k) : Steady s t where
  running := running
  currentPid := currentPid
  mode := mode
  procs := by
    intro x n found
    exact ⟨n, procs ▸ found, SameContext.refl s x n⟩
  table := table
  family := by
    intro x p n before after
    rw [procs, before, Option.some.injEq] at after
    subst after
    exact SameFamily.refl p
  kept := by
    intro x p record _
    exact ⟨p, procs ▸ record⟩

/-- One record changes. -/
theorem update {r : ProcRef} {p n : Process} (record : s.procs r = some p)
    (procs : t.procs = Function.update s.procs r (some n))
    (table : t.processTable = s.processTable)
    (running : t.running = s.running)
    (currentPid : t.currentPid = s.currentPid)
    (mode : t.mode = s.mode ∨ ∀ k, t.mode ≠ .kernel k)
    (same : SameContext s r p n) (family : SameFamily p n) : Steady s t where
  toUnswitched :=
    Unswitched.update record procs running currentPid mode same
  table := table
  family := by
    intro x before after found found'
    rw [procs] at found'
    by_cases isR : x = r
    · subst isR
      simp only [Function.update_self, Option.some.injEq] at found'
      rw [record, Option.some.injEq] at found
      subst found found'
      exact family
    · rw [Function.update_of_ne isR, found, Option.some.injEq] at found'
      subst found'
      exact SameFamily.refl before
  kept := by
    intro x content found _
    rw [procs]
    by_cases isR : x = r
    · exact ⟨n, by simp [isR]⟩
    · exact ⟨content, by simp [isR, found]⟩

/-- The process on the processor gives up being elected. -/
theorem suspend {p n : Process} (onCpu : s.OnCpu p)
    (replaces : Replaces s t s.running n) (body : SameBody p n)
    (living : n.Living) : Steady s t := by
  refine update onCpu.1 replaces.procs replaces.table replaces.running
    replaces.currentPid (.inl replaces.mode) ?_ ?_
  · exact ⟨body.pid, body.stack, body.registers,
      fun isSet => .inl (body.skip ▸ isSet),
      .inr (.inl ⟨rfl, onCpu.2, living⟩)⟩
  · exact ⟨body.fatherPid, body.children, body.waitedPid, body.retval,
      by simp [onCpu.2, living.1], by simp [onCpu.2, living.2],
      by simp [onCpu.2]⟩

/-- A process that does not wait for a child becomes activable. -/
theorem wake {u : KState} (steady : Steady s t) {r : ProcRef}
    {p n : Process} (record : t.procs r = some p)
    (replaces : Replaces t u r n) (body : SameBody p n)
    (state : n.state = .activable) (link : n.link = some .activable)
    (living : p.Living) (notWaiting : p.state ≠ .waitingPid) :
    Steady s u where
  running := replaces.running.trans steady.running
  currentPid := replaces.currentPid.trans steady.currentPid
  mode := by
    rw [replaces.mode]
    exact steady.mode
  procs := by
    intro x content found
    rw [replaces.procs] at found
    by_cases isR : x = r
    · subst isR
      simp only [Function.update_self, Option.some.injEq] at found
      subst found
      obtain ⟨before, present, same⟩ := steady.procs x p record
      exact ⟨before, present, same.wake living body state link⟩
    · rw [Function.update_of_ne isR] at found
      exact steady.procs x content found
  table := replaces.table.trans steady.table
  family := by
    intro x before content present found
    rw [replaces.procs] at found
    by_cases isR : x = r
    · subst isR
      simp only [Function.update_self, Option.some.injEq] at found
      subst found
      have same := steady.family x before p present record
      have alive := same.living.mp living
      refine ⟨body.fatherPid.trans same.fatherPid,
        body.children.trans same.children,
        body.waitedPid.trans same.waitedPid, body.retval.trans same.retval,
        ?_, ?_, ?_⟩
      · simp [state, alive.1]
      · simp [state, alive.2]
      · intro waiting
        exact absurd (same.waiting waiting) notWaiting
    · rw [Function.update_of_ne isR] at found
      exact steady.family x before content present found
  kept := by
    intro x before present active
    rw [replaces.procs]
    by_cases isR : x = r
    · exact ⟨n, by simp [isR]⟩
    · obtain ⟨content, found⟩ := steady.kept x before present active
      exact ⟨content, by simp [isR, found]⟩

theorem rfl_steady (s : KState) : Steady s s :=
  frame rfl rfl rfl rfl (.inl rfl)

theorem releaseAll (ok : Coherent s) (x : SemRef) :
    Steady s (s.release x (s.lists (.sem x)).reverse) := by
  have both := KState.releaseAll_keeps (x := x)
    (I := fun t => Coherent t ∧ Steady s t) ok ?_ ⟨ok, rfl_steady s⟩
  · exact both.2
  · rintro t r p ⟨coherent, steady⟩ record link
    obtain ⟨state, -⟩ := (coherent.procs.linked r p record).state_of_link link
    refine ⟨coherent.wake record link (by simp [state]) rfl, ?_⟩
    exact steady.wake record ⟨rfl, rfl, rfl, rfl, rfl⟩
      (by constructor <;> rfl) rfl rfl (by simp [Process.Living, state])
      (by simp [state])

theorem purge (ok : Coherent s) (keep : Option ProcRef) :
    Steady s (s.purge keep) := by
  have finishedOf {x : ProcRef} {p : Process} (record : s.procs x = some p)
      (member : x ∈ s.lists .finished) :
      p.link = some .finished ∧ p.state = .finished := by
    have link := ok.lists.link_of_mem record member
    exact ⟨link, (ok.procs.linked x p record).state_of_link link⟩
  constructor
  · refine ⟨rfl, rfl, .inl rfl, ?_⟩
    intro x n found
    rw [KState.purge_procs] at found
    split at found
    · rename_i member
      split at found
      · obtain ⟨p, record, rfl⟩ := Option.map_eq_some_iff.mp found
        exact ⟨p, record, rfl, rfl, rfl, .inl,
          .inl ⟨rfl, (finishedOf record member).1.symm⟩⟩
      · simp at found
    · exact ⟨n, found, SameContext.refl s x n⟩
  · rfl
  · intro x p n record found
    rw [KState.purge_procs, record] at found
    split at found
    · split at found
      · simp only [Option.map_some, Option.some.injEq] at found
        subst found
        exact ⟨rfl, rfl, rfl, rfl, Iff.rfl, Iff.rfl, id⟩
      · simp at found
    · rw [Option.some.injEq] at found
      subst found
      exact SameFamily.refl p
  · intro x p record active
    have notIn : x ∉ s.lists .finished := by
      intro member
      exact active (finishedOf record member).2
    exact ⟨p, by simp [notIn, record]⟩

end Steady

/-! ## Which moves are steady -/

namespace Move

/-- Moves that neither switch processes nor touch a family. -/
def IsSteady : Move → Prop
  | .dispatch _ _ _ _ _ | .create _ _ _ _ | .createElect _ _ _ _
  | .endProcess _ _ _ _ _ | .endFatherless _ _ _ _ | .orphan _ _
  | .finish _ _ _ | .reap _ _ _ _ _ | .handOver _ _ _ _ _ _ _ => False
  | _ => True

/-- Moves that switch processes or create one. -/
def Switches : Move → Prop
  | .dispatch _ _ _ _ _ | .create _ _ _ _ | .createElect _ _ _ _
  | .handOver _ _ _ _ _ _ _ => True
  | _ => False

variable {s : KState} {m : Move}

theorem steady (isSteady : m.IsSteady) (ok : Coherent s)
    (applies : m.Guard s) : Steady s (m.effect s) := by
  have leaves (t : KState) (user : t.mode = .user) :
      t.mode = s.mode ∨ ∀ k, t.mode ≠ .kernel k :=
    .inr (by simp [user])
  cases m with
  | settle mode eax =>
      exact .frame rfl rfl rfl rfl (leaves _ applies.1)
  | fault => exact .frame rfl rfl rfl rfl (.inr (by simp [effect]))
  | note e | tick | newQueue fid capacity | deleteQueue fid q
  | resetQueue q content | take q content | newSem sem count
  | acquire x content | post x content | clearReset x content =>
      exact .frame rfl rfl rfl rfl (.inl rfl)
  | receive r q content =>
      exact .frame rfl rfl rfl rfl (leaves _ rfl)
  | yield p =>
      exact .suspend applies ⟨rfl, rfl, rfl, rfl, rfl⟩
        (by constructor <;> rfl) (by simp [Process.Living])
  | sleep p wakeup =>
      exact .suspend applies ⟨rfl, rfl, rfl, rfl, rfl⟩
        (by constructor <;> rfl) (by simp [Process.Living])
  | awaitChild p =>
      exact .suspend applies ⟨rfl, rfl, rfl, rfl, rfl⟩
        (by constructor <;> rfl) (by simp [Process.Living])
  | awaitSend p fid q message =>
      exact .suspend applies.1 ⟨rfl, rfl, rfl, rfl, rfl⟩
        (by constructor <;> rfl) (by simp [Process.Living])
  | awaitReceive p fid q =>
      exact .suspend applies.1 ⟨rfl, rfl, rfl, rfl, rfl⟩
        (by constructor <;> rfl) (by simp [Process.Living])
  | awaitSem p sem x content =>
      exact .suspend applies.2.1 ⟨rfl, rfl, rfl, rfl, rfl⟩
        (by constructor <;> rfl) (by simp [Process.Living])
  | purge keep => exact .purge ok keep
  | wakeSleeper r p =>
      obtain ⟨record, asleep, -⟩ := applies
      exact (Steady.rfl_steady s).wake record ⟨rfl, rfl, rfl, rfl, rfl⟩
        (by constructor <;> rfl) rfl rfl (by simp [Process.Living, asleep])
        (by simp [asleep])
  | reprio r p newprio =>
      exact .update applies.1 rfl rfl rfl rfl (.inl rfl)
        ⟨rfl, rfl, rfl, .inl, .inl ⟨rfl, rfl⟩⟩
        ⟨rfl, rfl, rfl, rfl, Iff.rfl, Iff.rfl, id⟩
  | clearSkip r p =>
      exact .update applies rfl rfl rfl rfl (.inl rfl)
        ⟨rfl, rfl, rfl, by simp, .inl ⟨rfl, rfl⟩⟩
        ⟨rfl, rfl, rfl, rfl, Iff.rfl, Iff.rfl, id⟩
  | refuse r p =>
      exact .update applies.1 rfl rfl rfl rfl (leaves _ rfl)
        ⟨rfl, rfl, rfl, by simp, .inl ⟨rfl, rfl⟩⟩
        ⟨rfl, rfl, rfl, rfl, Iff.rfl, Iff.rfl, id⟩
  | put q content p message =>
      exact .update applies.2.2.1.1 rfl rfl rfl rfl (.inl rfl)
        ⟨rfl, rfl, rfl, .inl, .inl ⟨rfl, rfl⟩⟩
        ⟨rfl, rfl, rfl, rfl, Iff.rfl, Iff.rfl, id⟩
  | flush r p q =>
      obtain ⟨next, -, content, onCpu⟩ := applies
      have link := ok.link_of_nextOut next
      have other := ok.running_ne_of_nextOut next onCpu
      have state := ok.inMsgqueue_of_nextOut next
      exact .update next.2 rfl rfl rfl rfl (.inl rfl)
        ⟨rfl, rfl, rfl, fun _ => .inr ⟨other.symm, rfl, q, link⟩,
          .inr (.inr (.inl ⟨by simp [Process.Living, state], rfl, rfl⟩))⟩
        ⟨rfl, rfl, rfl, rfl, by simp [state], by simp [state],
          by simp [state]⟩
  | refill q content r p =>
      obtain ⟨-, -, -, -, next⟩ := applies
      have link := ok.link_of_nextOut next
      have state := ok.inMsgqueue_of_nextOut next
      exact (Steady.rfl_steady s).wake next.2 ⟨rfl, rfl, rfl, rfl, rfl⟩
        (by constructor <;> rfl) rfl rfl (by simp [Process.Living, state])
        (by simp [state])
  | postWake x content r p clear =>
      obtain ⟨-, -, next⟩ := applies
      have link := ok.link_of_nextOut next
      have state := ok.inSem_of_nextOut next
      exact (Steady.rfl_steady s).wake next.2 ⟨rfl, rfl, rfl, rfl, rfl⟩
        (by constructor <;> rfl) rfl rfl (by simp [Process.Living, state])
        (by simp [state])
  | resetSem x content count =>
      have released := Steady.releaseAll ok x
      exact ⟨⟨released.running, released.currentPid, released.mode,
        released.procs⟩, released.table, released.family, released.kept⟩
  | deleteSem sem x =>
      have released := Steady.releaseAll ok x
      exact ⟨⟨released.running, released.currentPid, released.mode,
        released.procs⟩, released.table, released.family, released.kept⟩
  | dispatch k r p old restored | create pid prio p children
  | createElect pid prio p children | endProcess pid r p how father
  | endFatherless pid r p how | orphan r p | finish pid r p
  | reap pid r p caller children
  | handOver q content message sender r p restored =>
      exact absurd isSteady id

theorem unswitched (stays : ¬ m.Switches) (ok : Coherent s)
    (applies : m.Guard s) : Unswitched s (m.effect s) := by
  cases m with
  | dispatch k r p old restored | create pid prio p children
  | createElect pid prio p children
  | handOver q content message sender r p restored =>
      exact absurd trivial stays
  | orphan r p =>
      exact .update applies.1 rfl rfl rfl (.inl rfl)
        ⟨rfl, rfl, rfl, .inl, .inl ⟨rfl, rfl⟩⟩
  | finish pid r p =>
      obtain ⟨has, zombie, -⟩ := applies
      exact .update has.2 rfl rfl rfl (.inl rfl)
        ⟨rfl, rfl, rfl, .inl, .inr (.inr (.inr ⟨by simp [Process.Living],
          by simp [zombie]⟩))⟩
  | endFatherless pid r p how =>
      obtain ⟨has, living, -⟩ := applies
      exact .update has.2 rfl rfl rfl (.inl rfl)
        ⟨rfl, rfl, rfl, .inl, .inr (.inr (.inr ⟨by simp [Process.Living],
          living.2⟩))⟩
  | endProcess pid r p how father =>
      obtain ⟨has, living, -, -, woken⟩ := applies
      have ended : SameContext s r p
          { p with retval := how.retval, state := .zombie, link := none } :=
        ⟨rfl, rfl, rfl, .inl, .inr (.inr (.inr ⟨by simp [Process.Living],
          living.2⟩))⟩
      cases father with
      | none => exact .update has.2 rfl rfl rfl (.inl rfl) ended
      | some father =>
          obtain ⟨f, father⟩ := father
          obtain ⟨distinct, record, link, -⟩ := woken
          have state :=
            (ok.procs.linked f father record).state_of_link link
          refine ⟨rfl, rfl, .inl rfl, ?_⟩
          intro x n found
          simp only [effect, KState.wake_procs] at found
          by_cases isFather : x = f
          · subst isFather
            simp only [Function.update_self, Option.some.injEq] at found
            subst found
            exact ⟨father, record, rfl, rfl, rfl, .inl, .inr (.inr (.inl
              ⟨by simp [Process.Living, state], rfl, rfl⟩))⟩
          · rw [Function.update_of_ne isFather, KState.note_procs,
              KState.relink_procs] at found
            by_cases isR : x = r
            · subst isR
              simp only [Function.update_self, Option.some.injEq] at found
              subst found
              exact ⟨p, has.2, ended⟩
            · rw [Function.update_of_ne isR] at found
              exact ⟨n, found, SameContext.refl s x n⟩
  | reap pid r p caller children =>
      obtain ⟨-, -, has, -, -, distinct, onCpu, -⟩ := applies
      refine ⟨rfl, rfl, .inr (by simp [effect]), ?_⟩
      intro x n found
      simp only [effect, KState.finish_procs] at found
      by_cases isR : x = r
      · subst isR
        simp only [Function.update_self, Option.some.injEq] at found
        subst found
        exact ⟨p, has.2, rfl, rfl, rfl, .inl, .inr (.inr (.inr
          ⟨by simp [Process.Living], (ok.active_of_hasPid has).2⟩))⟩
      · rw [Function.update_of_ne isR, KState.setProc_procs] at found
        by_cases isRunning : x = s.running
        · subst isRunning
          simp only [Function.update_self, Option.some.injEq] at found
          subst found
          exact ⟨caller, onCpu.1, rfl, rfl, rfl, .inl, .inl ⟨rfl, rfl⟩⟩
        · rw [Function.update_of_ne isRunning] at found
          exact ⟨n, found, SameContext.refl s x n⟩
  | settle | fault | note | tick | yield | sleep | awaitChild | awaitSend
  | awaitReceive | awaitSem | purge | wakeSleeper | reprio | clearSkip
  | refuse | newQueue | flush | deleteQueue | resetQueue | put | take
  | refill | receive | newSem | acquire | post | postWake | clearReset
  | resetSem | deleteSem =>
      refine (steady ?_ ok applies).toUnswitched
      trivial

/-- The moves that assign the mode. -/
def SetsMode : Move → Prop
  | .settle _ _ | .fault | .dispatch _ _ _ _ _ | .createElect _ _ _ _
  | .reap _ _ _ _ _ | .refuse _ _ | .handOver _ _ _ _ _ _ _
  | .receive _ _ _ => True
  | _ => False

theorem mode_effect (keeps : ¬ m.SetsMode) : (m.effect s).mode = s.mode := by
  cases m with
  | settle | fault | dispatch | createElect | reap | refuse | handOver
  | receive => exact absurd trivial keeps
  | endProcess pid r p how father => cases father <;> rfl
  | resetSem x content count | deleteSem sem x =>
      obtain ⟨_, _, _, released⟩ := s.release_eq x (s.lists (.sem x)).reverse
      simp [effect, released]
  | _ => rfl

end Move

/-! ## Records after the other moves -/

namespace Move

variable {s : KState}

theorem dispatch_procs {k c : Context} {r o : ProcRef} {p : Process}
    (x : ProcRef) :
    ((Move.dispatch k r p o c).effect s).procs x =
      if x = r then
        some { p with
          state := .elected
          link := none
          stack := if r = s.running then k else p.stack
          registers := none }
      else (s.procs x).map fun content =>
        { content with
          stack := if x = s.running then k else content.stack
          registers := if x = o then some k else content.registers } := by
  split
  · rename_i isNew
    subst isNew
    simp [effect]
  · rename_i other
    cases found : s.procs x <;> simp [effect, other, found]

theorem create_procs {pid prio : Int} {p : Process} {children : List Child}
    (distinct : s.running ≠ s.nextRef) (x : ProcRef) :
    ((Move.create pid prio p children).effect s).procs x =
      if x = s.nextRef then
        some { s.created pid prio with
          state := .activable
          link := some .activable
          stamp := s.stamp }
      else if x = s.running then
        some { p with children := some (addChild ⟨pid, 1⟩ children) }
      else s.procs x := by
  split
  · rename_i isNew
    simp [effect, isNew]
  · rename_i notNew
    split
    · rename_i isRunning
      simp [effect, isRunning, distinct]
    · rename_i notRunning
      simp [effect, notNew, notRunning]

theorem createElect_procs {pid prio : Int} {p : Process}
    {children : List Child} (distinct : s.running ≠ s.nextRef) (x : ProcRef) :
    ((Move.createElect pid prio p children).effect s).procs x =
      if x = s.nextRef then some { s.created pid prio with registers := none }
      else if x = s.running then
        some { p with
          children := some (addChild ⟨pid, 1⟩ children)
          state := .activable
          link := some .activable
          stamp := s.stamp
          stack := .start s.nextRef
          registers := some (.start s.nextRef) }
      else s.procs x := by
  split
  · rename_i isNew
    simp [effect, isNew, distinct.symm]
  · rename_i notNew
    split
    · rename_i isRunning
      simp [effect, isRunning, distinct]
    · rename_i notRunning
      cases found : s.procs x <;> simp [effect, notNew, notRunning, found]

theorem handOver_procs {q : QueueRef} {c : MessageQueue} {m : Int}
    {n p : Process} {r : ProcRef} {k : Context} (distinct : s.running ≠ r) (x : ProcRef) :
    ((Move.handOver q c m n r p k).effect s).procs x =
      if x = r then
        some { p with state := .elected, link := none, registers := none }
      else if x = s.running then
        some { n with
          message := m
          state := .activable
          link := some .activable
          stamp := s.stamp
          stack := .handedOver
          registers := some .handedOver }
      else s.procs x := by
  split
  · rename_i isNew
    simp [effect, isNew, distinct.symm]
  · rename_i notNew
    split
    · rename_i isRunning
      simp [effect, isRunning, distinct]
    · rename_i notRunning
      cases found : s.procs x <;> simp [effect, notNew, notRunning, found]

theorem endProcess_procs {i : Int} {r g : ProcRef} {p f : Process}
    {h : Ending} (distinct : g ≠ r) (x : ProcRef) :
    ((Move.endProcess i r p h (some (g, f))).effect s).procs x =
      if x = g then
        some { f with
          waitedPid := i
          state := .activable
          link := some .activable
          stamp := s.stamp }
      else if x = r then
        some { p with retval := h.retval, state := .zombie, link := none }
      else s.procs x := by
  split
  · rename_i isFather
    simp [effect, isFather]
  · rename_i notFather
    split
    · rename_i isEnded
      simp [effect, isEnded, distinct.symm]
    · rename_i notEnded
      simp [effect, notFather, notEnded]

theorem reap_procs {i : Int} {r : ProcRef} {p c : Process} {l : List Child}
    (distinct : r ≠ s.running) (x : ProcRef) :
    ((Move.reap i r p c l).effect s).procs x =
      if x = r then
        some { p with
          state := .finished
          link := some .finished
          stamp := s.stamp }
      else if x = s.running then some { c with children := some l }
      else s.procs x := by
  split
  · rename_i isReaped
    simp [effect, isReaped]
  · rename_i notReaped
    split
    · rename_i isRunning
      simp [effect, isRunning, distinct.symm]
    · rename_i notRunning
      simp [effect, notReaped, notRunning]

end Move

end Nebulea
