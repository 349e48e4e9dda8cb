import Nebulea.KernelSteady

/-!
# Saved contexts

A process off the processor has its context both on its kernel stack and in
its saved registers, unless the registers went to another record, and a process
that is blocked is blocked in the call its state and its list tell.
-/

namespace Nebulea

/-- Contexts that name a process name the one they belong to. -/
def Context.Owner (r : ProcRef) : Context → Prop
  | .psend p _ => p = r
  | .preceive p _ _ => p = r
  | _ => True

/-- The call a blocked process is suspended in. -/
structure Process.Blocked (r : ProcRef) (p : Process) : Prop where
  asleep : p.state = .asleep → ∃ value, p.stack = .returning value
  child : p.state = .waitingPid → ∃ pid retvalp, p.stack = .waitpid pid retvalp
  queue : ∀ q, p.link = some (.queue q) →
    p.stack = .psend r q ∨ ∃ message, p.stack = .preceive r q message
  sem : ∀ x, p.link = some (.sem x) → p.stack = .wait x

/-- An activable process may be suspended anywhere. -/
theorem Process.Blocked.of_activable {r : ProcRef} {p : Process}
    (state : p.state = .activable) (link : p.link = some .activable) :
    p.Blocked r where
  asleep := by simp [state]
  child := by simp [state]
  queue := by simp [link]
  sem := by simp [link]

/-- Contexts and records agree. -/
structure ContextOk (s : KState) : Prop where
  owner : ∀ r p, s.procs r = some p → p.stack.Owner r
  saved : ∀ r p, s.procs r = some p → p.state ≠ .finished → r ≠ s.running →
    ∀ k, p.registers = some k → k = p.stack
  unsaved : ∀ p, s.procs s.running = some p → p.registers = none
  loaded : ∀ k p, s.mode = .kernel k → s.procs s.running = some p →
    p.stack = k
  blocked : ∀ r p, s.procs r = some p → p.Living → r ≠ s.running →
    p.Blocked r

namespace ContextOk

variable {s t : KState}

theorem unswitched (ctx : ContextOk s) (same : Unswitched s t) :
    ContextOk t := by
  constructor
  · intro r n found
    obtain ⟨p, record, context⟩ := same.procs r n found
    rw [context.stack]
    exact ctx.owner r p record
  · intro r n found active other k registers
    obtain ⟨p, record, context⟩ := same.procs r n found
    rw [context.stack]
    rw [same.running] at other
    rw [context.registers] at registers
    exact ctx.saved r p record (context.active active) other k registers
  · intro n found
    rw [same.running] at found
    obtain ⟨p, record, context⟩ := same.procs _ n found
    rw [context.registers]
    exact ctx.unsaved p record
  · intro k n mode found
    rw [same.running] at found
    obtain ⟨p, record, context⟩ := same.procs _ n found
    rw [context.stack]
    rcases same.mode with sameMode | leaves
    · exact ctx.loaded k p (sameMode ▸ mode) record
    · exact absurd mode (leaves k)
  · intro r n found living other
    obtain ⟨p, record, context⟩ := same.procs r n found
    rw [same.running] at other
    rcases context.state with
      ⟨state, link⟩ | ⟨isRunning, -⟩ | ⟨-, state, link⟩ | ⟨ended, -⟩
    · have before := ctx.blocked r p record (context.living living) other
      constructor
      · rw [state, context.stack]
        exact before.asleep
      · rw [state, context.stack]
        exact before.child
      · rw [link, context.stack]
        exact before.queue
      · rw [link, context.stack]
        exact before.sem
    · exact absurd isRunning other
    · exact .of_activable state link
    · exact absurd living ended

end ContextOk

/-! ## Moves that switch processes -/

namespace KState

variable {s : KState}

/-- `old_process` is the running process or a finished record. -/
theorem OldProcess.running_or_finished (ok : Coherent s) (cpu : CpuOk s)
    {old : ProcRef} (isOld : s.OldProcess old) :
    old = s.running ∨ ∀ p, s.procs old = some p → p.state = .finished := by
  rcases isOld with last | ⟨empty, entry⟩
  · right
    intro p record
    have link := ok.lists.link_of_mem record (List.mem_of_getLast? last)
    exact (ok.procs.linked old p record).state_of_link link
  · left
    obtain ⟨p, record, isPid⟩ := cpu.current
    have active : p.state ≠ .finished := by
      intro finished
      have link : p.link = some .finished := by
        simpa [LinkOk, finished] using ok.procs.linked _ p record
      have member := ok.lists.mem_of_link record link
      simp [empty] at member
    have listed := ok.procs.listed _ p record active
    rw [isPid, entry] at listed
    exact Option.some.inj listed

/-- The call `__scheduler` was entered from blocks the running process. -/
theorem Fits.blocked {p : Process} {k : Context} (fits : s.Fits p k)
    (linked : s.LinkOk p) (living : p.Living) :
    Process.Blocked s.running { p with stack := k } ∧ k.Owner s.running := by
  cases k with
  | fresh | start r | handedOver => exact absurd fits id
  | exiting =>
      rcases fits with zombie | finished
      · exact absurd zombie living.1
      · exact absurd finished living.2
  | interrupted =>
      have state : p.state = .activable := fits
      have link : p.link = some .activable := by
        simpa [LinkOk, state] using linked
      exact ⟨.of_activable state link, trivial⟩
  | returning value =>
      refine ⟨?_, trivial⟩
      rcases fits with state | state | zombie | finished
      · have link : p.link = some .activable := by
          simpa [LinkOk, state] using linked
        exact .of_activable state link
      · have link : p.link = none := by
          simpa [LinkOk, state] using linked
        exact ⟨fun _ => ⟨value, rfl⟩, by simp [state], by simp [link],
          by simp [link]⟩
      · exact absurd zombie living.1
      · exact absurd finished living.2
  | waitpid pid retvalp =>
      obtain ⟨state, -⟩ := fits
      have link : p.link = some .waitingPid := by
        simpa [LinkOk, state] using linked
      exact ⟨⟨by simp [state], fun _ => ⟨pid, retvalp, rfl⟩, by simp [link],
        by simp [link]⟩, trivial⟩
  | psend r q =>
      obtain ⟨isRunning, state, link, -⟩ := fits
      refine ⟨⟨by simp [state], by simp [state], ?_, by simp [link]⟩,
        isRunning⟩
      intro q' link'
      rw [link] at link'
      simp only [Option.some.injEq, Head.queue.injEq] at link'
      exact .inl (by rw [isRunning, link'])
  | preceive r q message =>
      obtain ⟨isRunning, state, link, -⟩ := fits
      refine ⟨⟨by simp [state], by simp [state], ?_, by simp [link]⟩,
        isRunning⟩
      intro q' link'
      rw [link] at link'
      simp only [Option.some.injEq, Head.queue.injEq] at link'
      exact .inr ⟨message, by rw [isRunning, link']⟩
  | wait x =>
      obtain ⟨state, link⟩ := fits
      refine ⟨⟨by simp [state], by simp [state], by simp [link], ?_⟩, trivial⟩
      intro x' link'
      rw [link] at link'
      simp only [Option.some.injEq, Head.sem.injEq] at link'
      rw [link']

theorem Fits.owner {p : Process} {k : Context} (fits : s.Fits p k) :
    k.Owner s.running := by
  cases k with
  | psend r q => exact fits.1
  | preceive r q message => exact fits.1
  | _ => trivial

end KState

namespace ContextOk

variable {s : KState}

theorem dispatch (ctx : ContextOk s) (ok : Coherent s) (cpu : CpuOk s)
    {k restored : Context} {r old : ProcRef} {p : Process}
    (applies : (Move.dispatch k r p old restored).Guard s) :
    ContextOk ((Move.dispatch k r p old restored).effect s) := by
  obtain ⟨-, next, isOld, -, -, ⟨content, record, left, fits⟩, restores, -⟩ :=
    applies
  have state := ok.activable_of_nextOut next
  have fromRunning := isOld.running_or_finished ok cpu
  constructor
  · intro x n found
    rw [Move.dispatch_procs] at found
    have ownerK := fits.owner
    split at found
    · rename_i isNew
      subst isNew
      rw [Option.some.injEq] at found
      subst found
      dsimp only
      split
      · rename_i isRunning
        exact isRunning ▸ ownerK
      · exact ctx.owner x p next.2
    · obtain ⟨before, present, rfl⟩ := Option.map_eq_some_iff.mp found
      dsimp only
      split
      · rename_i isRunning
        exact isRunning ▸ ownerK
      · exact ctx.owner x before present
  · intro x n found active other k' registers
    have notNew : x ≠ r := other
    rw [Move.dispatch_procs, if_neg notNew] at found
    obtain ⟨before, present, rfl⟩ := Option.map_eq_some_iff.mp found
    by_cases isOld : x = old
    · subst isOld
      have isRunning : x = s.running := by
        rcases fromRunning with same | finished
        · exact same
        · exact absurd (finished before present) active
      have same : k = k' := by simpa using registers
      simp [isRunning, same]
    · have saved : before.registers = some k' := by
        simpa [isOld] using registers
      have notRunning : x ≠ s.running := by
        rintro rfl
        rw [ctx.unsaved before present] at saved
        simp at saved
      simpa [notRunning] using
        ctx.saved x before present active notRunning k' saved
  · intro n found
    have same := (Move.dispatch_procs r).symm.trans found
    rw [if_pos rfl, Option.some.injEq] at same
    rw [← same]
  · intro k' n mode found
    have same := (Move.dispatch_procs r).symm.trans found
    rw [if_pos rfl, Option.some.injEq] at same
    rw [← same]
    have isRestored : restored = k' := by simpa [Move.effect] using mode
    subst isRestored
    by_cases isOld : r = old
    · have isRunning : r = s.running := by
        rcases fromRunning with same | finished
        · exact isOld.trans same
        · have ended := finished p (isOld ▸ next.2)
          simp [state] at ended
      rw [if_pos isOld, Option.some.injEq] at restores
      simp [isRunning, restores]
    · rw [if_neg isOld] at restores
      have notRunning : r ≠ s.running := by
        rintro rfl
        rw [ctx.unsaved p next.2] at restores
        simp at restores
      simpa [notRunning] using (ctx.saved r p next.2 (by simp [state])
        notRunning restored restores).symm
  · intro x n found living other
    have notNew : x ≠ r := other
    rw [Move.dispatch_procs, if_neg notNew] at found
    obtain ⟨before, present, rfl⟩ := Option.map_eq_some_iff.mp found
    by_cases isRunning : x = s.running
    · subst isRunning
      rw [record, Option.some.injEq] at present
      subst present
      have blocked :=
        (fits.blocked (ok.procs.linked _ content record) living).1
      exact ⟨by simpa using blocked.asleep, by simpa using blocked.child,
        by simpa using blocked.queue, by simpa using blocked.sem⟩
    · have blocked := ctx.blocked x before present living isRunning
      exact ⟨by simpa [isRunning] using blocked.asleep,
        by simpa [isRunning] using blocked.child,
        by simpa [isRunning] using blocked.queue,
        by simpa [isRunning] using blocked.sem⟩

theorem create (ctx : ContextOk s) (ok : Coherent s) {pid prio : Int}
    {p : Process} {children : List Child}
    (applies : (Move.create pid prio p children).Guard s) :
    ContextOk ((Move.create pid prio p children).effect s) := by
  obtain ⟨-, onCpu, -⟩ := applies
  have distinct : s.running ≠ s.nextRef := (ok.lt_nextRef onCpu.1).ne
  have atRunning {n : Process}
      (found : ((Move.create pid prio p children).effect s).procs s.running =
        some n) :
      n = { p with children := some (addChild ⟨pid, 1⟩ children) } := by
    rw [Move.create_procs distinct, if_neg distinct, if_pos rfl,
      Option.some.injEq] at found
    exact found.symm
  constructor
  · intro x n found
    rw [Move.create_procs distinct] at found
    split at found
    · cases found
      trivial
    · split at found
      · rename_i isRunning
        cases found
        exact ctx.owner x p (isRunning ▸ onCpu.1)
      · exact ctx.owner x n found
  · intro x n found active other k registers
    have notRunning : x ≠ s.running := other
    rw [Move.create_procs distinct, if_neg notRunning] at found
    split at found
    · cases found
      exact (Option.some.inj registers).symm
    · exact ctx.saved x n found active other k registers
  · intro n found
    rw [atRunning found]
    exact ctx.unsaved p onCpu.1
  · intro k n mode found
    rw [atRunning found]
    exact ctx.loaded k p mode onCpu.1
  · intro x n found living other
    have notRunning : x ≠ s.running := other
    rw [Move.create_procs distinct, if_neg notRunning] at found
    split at found
    · cases found
      exact .of_activable rfl rfl
    · exact ctx.blocked x n found living other

/-- After a direct switch the new process runs what it was suspended in and
the running one is activable. -/
theorem switch (ctx : ContextOk s) {t : KState} {new : ProcRef} {p n : Process}
    (records : ∀ x, t.procs x =
      if x = new then some p else if x = s.running then some n
      else s.procs x)
    (running : t.running = new) (mode : t.mode = .kernel p.stack)
    (owner : p.stack.Owner new) (ownerRunning : n.stack.Owner s.running)
    (unsaved : p.registers = none) (saved : n.registers = some n.stack)
    (state : n.state = .activable) (link : n.link = some .activable) :
    ContextOk t := by
  constructor
  · intro x content found
    rw [records] at found
    split at found
    · rename_i isNew
      cases found
      exact isNew ▸ owner
    · split at found
      · rename_i isRunning
        cases found
        exact isRunning ▸ ownerRunning
      · exact ctx.owner x content found
  · intro x content found active other k registers
    rw [running] at other
    rw [records, if_neg other] at found
    split at found
    · cases found
      rw [saved] at registers
      exact (Option.some.inj registers).symm
    · rename_i notRunning
      exact ctx.saved x content found active notRunning k registers
  · intro content found
    rw [running, records, if_pos rfl] at found
    cases found
    exact unsaved
  · intro k content isMode found
    rw [running, records, if_pos rfl] at found
    cases found
    rw [mode] at isMode
    simpa using isMode
  · intro x content found living other
    rw [running] at other
    rw [records, if_neg other] at found
    split at found
    · cases found
      exact .of_activable state link
    · rename_i notRunning
      exact ctx.blocked x content found living notRunning

theorem createElect (ctx : ContextOk s) (ok : Coherent s) {pid prio : Int}
    {p : Process} {children : List Child}
    (applies : (Move.createElect pid prio p children).Guard s) :
    ContextOk ((Move.createElect pid prio p children).effect s) := by
  obtain ⟨-, onCpu, -⟩ := applies
  exact ctx.switch (Move.createElect_procs (ok.lt_nextRef onCpu.1).ne)
    rfl rfl trivial trivial rfl rfl rfl rfl

theorem handOver (ctx : ContextOk s) (ok : Coherent s) {q : QueueRef}
    {content : MessageQueue} {message : Int} {sender p : Process}
    {r : ProcRef} {restored : Context}
    (applies : (Move.handOver q content message sender r p restored).Guard s) :
    ContextOk
      ((Move.handOver q content message sender r p restored).effect s) := by
  obtain ⟨-, -, -, next, onCpu, registers⟩ := applies
  have distinct := ok.running_ne_of_nextOut next onCpu
  have state := ok.inMsgqueue_of_nextOut next
  have isStack := ctx.saved r p next.2 (by simp [state]) distinct.symm
    restored registers
  subst isStack
  exact ctx.switch (Move.handOver_procs distinct) rfl rfl
    (ctx.owner r p next.2) trivial rfl rfl rfl rfl

theorem move (ctx : ContextOk s) (ok : Coherent s) (cpu : CpuOk s) {m : Move}
    (applies : m.Guard s) : ContextOk (m.effect s) := by
  by_cases switches : m.Switches
  · cases m with
    | dispatch k r p old restored => exact ctx.dispatch ok cpu applies
    | create pid prio p children => exact ctx.create ok applies
    | createElect pid prio p children => exact ctx.createElect ok applies
    | handOver q content message sender r p restored =>
        exact ctx.handOver ok applies
    | _ => exact absurd switches id
  · exact ctx.unswitched (Move.unswitched switches ok applies)

end ContextOk

end Nebulea
