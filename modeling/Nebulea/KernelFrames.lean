import Nebulea.KernelRuns

/-!
# What a move leaves alone

A move writes the records of a few processes.  All other records stay as they
are, but for the context that a switch saves in them.
-/

namespace Nebulea

namespace KState

/-- Processes that are not released keep their records. -/
theorem release_procs_of_notMem {s : KState} {x : SemRef} {r : ProcRef}
    {refs : List ProcRef} (notIn : r ∉ refs) :
    (s.release x refs).procs r = s.procs r := by
  induction refs generalizing s with
  | nil => rfl
  | cons first others ih =>
      rw [List.mem_cons, not_or] at notIn
      rw [release]
      split
      · rw [ih notIn.2]
        simp [notIn.1]
      · exact ih notIn.2

end KState

/-- A process that all processes of its semaphore are released with. -/
theorem Coherent.release_procs_of_mem {s : KState} (ok : Coherent s)
    {x : SemRef} {r : ProcRef} (member : r ∈ s.lists (.sem x)) :
    ∃ n, (s.release x (s.lists (.sem x)).reverse).procs r = some n ∧
      n.state = .activable := by
  obtain ⟨p, record, link⟩ := ok.record_of_mem member
  have woken : ∃ n,
      (s.release x (s.lists (.sem x)).reverse).procs r = some n ∧
        (n = p ∨ n.state = .activable) := by
    refine KState.releaseAll_keeps
      (I := fun t => ∃ n, t.procs r = some n ∧ (n = p ∨ n.state = .activable))
      ok ?_ ⟨p, record, .inl rfl⟩
    rintro t w content ⟨n, found, state⟩ isRecord -
    by_cases isW : r = w
    · exact ⟨_, by rw [isW]; exact Function.update_self .., .inr rfl⟩
    · exact ⟨n, by simpa [isW] using found, state⟩
  obtain ⟨n, found, rfl | state⟩ := woken
  · have listed := (ok.releaseAll x).lists.mem_of_link found link
    rw [KState.releaseAll_lists_sem ok] at listed
    exact absurd listed (List.not_mem_nil)
  · exact ⟨n, found, state⟩

/-- The states of a process that waits for something. -/
def State.Blocks : State → Prop
  | .asleep | .waitingPid | .inMsgqueue | .inSem => True
  | _ => False

/-- The states of a process that waits for nothing but the processor. -/
def State.Runs : State → Prop
  | .elected | .activable => True
  | _ => False

/-- The process goes on waiting for what it waited for. -/
structure Rests (p n : Process) : Prop where
  state : n.state = p.state
  pid : n.pid = p.pid
  link : n.link = p.link
  wakeupDate : n.wakeupDate = p.wakeupDate
  message : n.message = p.message
  waitedSem : n.waitedSem = p.waitedSem

namespace Move

/-- The move writes the record `x`. -/
def Touches (s : KState) (x : ProcRef) : Move → Prop
  | .yield _ | .sleep _ _ | .awaitChild _ | .awaitSend _ _ _ _
  | .awaitReceive _ _ _ | .awaitSem _ _ _ _ | .put _ _ _ _ => x = s.running
  | .purge _ => x ∈ s.lists .finished
  | .wakeSleeper r _ | .dispatch _ r _ _ _ | .endFatherless _ r _ _
  | .orphan r _ | .finish _ r _ | .reprio r _ _ | .clearSkip r _ | .refuse r _
  | .flush r _ _ | .refill _ _ r _ | .postWake _ _ r _ _ => x = r
  | .create _ _ _ _ | .createElect _ _ _ _ => x = s.nextRef ∨ x = s.running
  | .endProcess _ r _ _ father =>
      x = r ∨ ∃ f content, father = some (f, content) ∧ x = f
  | .reap _ r _ _ _ | .handOver _ _ _ _ r _ _ => x = r ∨ x = s.running
  | .resetSem y _ _ | .deleteSem _ y => x ∈ s.lists (.sem y)
  | _ => False

/-- What a switch saves in the record of a process it does not elect. -/
def saves (s : KState) (x : ProcRef) : Move → Process → Process
  | .dispatch k _ _ old _, p =>
      { p with
        stack := if x = s.running then k else p.stack
        registers := if x = old then some k else p.registers }
  | _, p => p

/-- The moves that write the record of a process that is neither elected nor in
a list. -/
inductive Reaches (x : ProcRef) (p : Process) : Move → Prop
  | wakeSleeper : Reaches x p (.wakeSleeper x p)
  | endProcess (pid : Int) (how : Ending)
      (father : Option (ProcRef × Process)) :
      Reaches x p (.endProcess pid x p how father)
  | endFatherless (pid : Int) (how : Ending) :
      Reaches x p (.endFatherless pid x p how)
  | orphan : Reaches x p (.orphan x p)
  | finish (pid : Int) : Reaches x p (.finish pid x p)
  | reap (pid : Int) (caller : Process) (children : List Child) :
      Reaches x p (.reap pid x p caller children)
  | reprio (newprio : Int) : Reaches x p (.reprio x p newprio)
  | clearSkip : Reaches x p (.clearSkip x p)
  | refuse : Reaches x p (.refuse x p)

/-- The process `x` goes on running, and the move changed its priority or took
its father away if anything. -/
structure RunsOn (m : Move) (x : ProcRef) (p n : Process) : Prop where
  runs : n.state.Runs
  pid : n.pid = p.pid
  priority : n.priority = p.priority ∨ ∃ newprio, m = .reprio x p newprio
  fatherPid : n.fatherPid = p.fatherPid ∨ m = .orphan x p

/-- What the process on the processor starts to wait for. -/
def suspends : Move → Option State
  | .sleep _ _ => some .asleep
  | .awaitChild _ => some .waitingPid
  | .awaitSend _ _ _ _ | .awaitReceive _ _ _ => some .inMsgqueue
  | .awaitSem _ _ _ _ => some .inSem
  | _ => none

variable {s : KState} {m : Move} {x : ProcRef}

theorem saves_eq (m : Move) (s : KState) (x : ProcRef) (p : Process) :
    ∃ stack registers, m.saves s x p =
      { p with stack := stack, registers := registers } := by
  cases m <;> exact ⟨_, _, rfl⟩

@[simp]
theorem saves_pid (p : Process) : (m.saves s x p).pid = p.pid := by
  obtain ⟨stack, registers, isSaved⟩ := m.saves_eq s x p
  rw [isSaved]

@[simp]
theorem saves_state (p : Process) : (m.saves s x p).state = p.state := by
  obtain ⟨stack, registers, isSaved⟩ := m.saves_eq s x p
  rw [isSaved]

theorem procs_untouched (ok : Coherent s) (applies : m.Guard s)
    (untouched : ¬ m.Touches s x) :
    (m.effect s).procs x = (s.procs x).map (m.saves s x) := by
  have same {n : Move} (procs : (n.effect s).procs x = s.procs x)
      (idle : n.saves s x = id) :
      (n.effect s).procs x = (s.procs x).map (n.saves s x) := by
    rw [idle, Option.map_id, procs]
    rfl
  have updated {t : KState} {r : ProcRef} {n : Process}
      (procs : t.procs = Function.update s.procs r (some n))
      (other : x ≠ r) : t.procs x = s.procs x := by
    rw [procs, Function.update_of_ne other]
  cases m with
  | dispatch k r p old restored =>
      have notNew : x ≠ r := untouched
      rw [dispatch_procs, if_neg notNew]
      rfl
  | create pid prio p children =>
      obtain ⟨-, onCpu, -⟩ := applies
      obtain ⟨notNew, notRunning⟩ := not_or.mp untouched
      refine same ?_ rfl
      rw [create_procs (ok.lt_nextRef onCpu.1).ne, if_neg notNew,
        if_neg notRunning]
  | createElect pid prio p children =>
      obtain ⟨-, onCpu, -⟩ := applies
      obtain ⟨notNew, notRunning⟩ := not_or.mp untouched
      refine same ?_ rfl
      rw [createElect_procs (ok.lt_nextRef onCpu.1).ne, if_neg notNew,
        if_neg notRunning]
  | handOver q content message sender r p restored =>
      obtain ⟨-, -, -, next, onCpu, -⟩ := applies
      obtain ⟨notNew, notRunning⟩ := not_or.mp untouched
      refine same ?_ rfl
      rw [handOver_procs (ok.running_ne_of_nextOut next onCpu), if_neg notNew,
        if_neg notRunning]
  | reap pid r p caller children =>
      obtain ⟨-, -, -, -, -, distinct, -⟩ := applies
      obtain ⟨notR, notRunning⟩ := not_or.mp untouched
      refine same ?_ rfl
      rw [reap_procs distinct, if_neg notR, if_neg notRunning]
  | endProcess pid r p how father =>
      obtain ⟨-, -, -, -, woken⟩ := applies
      obtain ⟨notR, notFather⟩ := not_or.mp untouched
      refine same ?_ rfl
      cases father with
      | none => exact updated rfl notR
      | some father =>
          have notF : x ≠ father.1 := fun isF =>
            notFather ⟨father.1, father.2, rfl, isF⟩
          rw [endProcess_procs woken.1, if_neg notF, if_neg notR]
  | purge keep =>
      refine same ?_ rfl
      exact if_neg untouched
  | resetSem y content count | deleteSem sem y =>
      refine same ?_ rfl
      refine KState.release_procs_of_notMem ?_
      exact fun member => untouched (List.mem_reverse.mp member)
  | yield | sleep | awaitChild | awaitSend | awaitReceive | awaitSem | put
  | wakeSleeper | endFatherless | orphan | finish | reprio | clearSkip
  | refuse | flush | refill | postWake =>
      refine same (updated rfl untouched) rfl
  | settle | fault | note | tick | newQueue | deleteQueue | resetQueue | take
  | receive | newSem | acquire | post | clearReset => exact same rfl rfl

/-- What can happen to a process that is neither elected nor in a list. -/
theorem procs_unlinked (ok : Coherent s) (applies : m.Guard s) {p : Process}
    (record : s.procs x = some p) (left : p.state ≠ .elected)
    (unlinked : p.link = none) :
    (m.effect s).procs x = some (m.saves s x p) ∨ m.Reaches x p := by
  by_cases untouched : ¬ m.Touches s x
  · left
    rw [procs_untouched ok applies untouched, record]
    rfl
  rw [not_not] at untouched
  have same {r : ProcRef} {n : Process} (isR : x = r)
      (found : s.procs r = some n) : n = p := by
    rw [← isR, record, Option.some.injEq] at found
    exact found.symm
  -- the running process is elected
  have notRunning {n : Process} (onCpu : s.OnCpu n) (isRunning : x = s.running)
      {P : Prop} : P := by
    have isP := same isRunning onCpu.1
    exact absurd (isP ▸ onCpu.2) left
  have notListed {h : Head} (member : x ∈ s.lists h) {P : Prop} : P := by
    have link := ok.lists.link_of_mem record member
    rw [unlinked] at link
    cases link
  have notNext {h : Head} {r : ProcRef} {n : Process} (next : s.NextOut h r n)
      (isR : x = r) {P : Prop} : P :=
    notListed (isR ▸ List.mem_of_getLast? next.1)
  right
  cases m with
  | yield n | sleep n wakeup | awaitChild n => exact notRunning applies untouched
  | awaitSend n fid q message | awaitReceive n fid q =>
      exact notRunning applies.1 untouched
  | awaitSem n sem y content => exact notRunning applies.2.1 untouched
  | put q content n message => exact notRunning applies.2.2.1 untouched
  | purge keep => exact notListed untouched
  | resetSem y content count => exact notListed untouched
  | deleteSem sem y => exact notListed untouched
  | dispatch k r n old restored => exact notNext applies.2.1 untouched
  | flush r n q => exact notNext applies.1 untouched
  | refill q content r n => exact notNext applies.2.2.2.2 untouched
  | postWake y content r n clear => exact notNext applies.2.2 untouched
  | handOver q content message sender r n restored =>
      obtain ⟨-, -, -, next, onCpu, -⟩ := applies
      rcases untouched with isR | isRunning
      · exact notNext next isR
      · exact notRunning onCpu isRunning
  | create pid prio n children =>
      rcases untouched with isNew | isRunning
      · exact absurd isNew (ok.lt_nextRef record).ne
      · exact notRunning applies.2.1 isRunning
  | createElect pid prio n children =>
      rcases untouched with isNew | isRunning
      · exact absurd isNew (ok.lt_nextRef record).ne
      · exact notRunning applies.2.1 isRunning
  | wakeSleeper r n =>
      cases same untouched applies.1
      cases untouched
      exact .wakeSleeper
  | endProcess pid r n how father =>
      obtain ⟨has, -, -, -, woken⟩ := applies
      rcases untouched with isR | ⟨f, content, rfl, isF⟩
      · cases same isR has.2
        cases isR
        exact .endProcess pid how father
      · have isP := same isF woken.2.1
        have link := woken.2.2.1
        rw [isP, unlinked] at link
        cases link
  | endFatherless pid r n how =>
      cases same untouched applies.1.2
      cases untouched
      exact .endFatherless pid how
  | orphan r n =>
      cases same untouched applies.1
      cases untouched
      exact .orphan
  | finish pid r n =>
      cases same untouched applies.1.2
      cases untouched
      exact .finish pid
  | reap pid r n caller children =>
      obtain ⟨-, -, has, -, -, -, onCpu, -⟩ := applies
      rcases untouched with isR | isRunning
      · cases same isR has.2
        cases isR
        exact .reap pid caller children
      · exact notRunning onCpu isRunning
  | reprio r n newprio =>
      cases same untouched applies.1
      cases untouched
      exact .reprio newprio
  | clearSkip r n =>
      cases same untouched applies
      cases untouched
      exact .clearSkip
  | refuse r n =>
      cases same untouched applies.1
      cases untouched
      exact .refuse
  | settle | fault | note | tick | newQueue | deleteQueue | resetQueue | take
  | receive | newSem | acquire | post | clearReset => exact absurd untouched id

/-- A process that waits did so before, or starts to wait now. -/
theorem blocked_before (ok : Coherent s) (applies : m.Guard s) {n : Process}
    (found : (m.effect s).procs x = some n) (blocks : n.state.Blocks) :
    (∃ p, s.procs x = some p ∧ Rests p n) ∨
      m.suspends = some n.state ∧ x = s.running ∧
        ∃ p, s.OnCpu p ∧ n.pid = p.pid := by
  by_cases touched : m.Touches s x
  swap
  · left
    rw [procs_untouched ok applies touched] at found
    obtain ⟨p, record, rfl⟩ := Option.map_eq_some_iff.mp found
    obtain ⟨stack, registers, isSaved⟩ := m.saves_eq s x p
    rw [isSaved]
    exact ⟨p, record, rfl, rfl, rfl, rfl, rfl, rfl⟩
  -- the record is replaced by one in a state in which a process may run
  have replaced {c : Process} (isNew : (m.effect s).procs x = some c)
      (runs : ¬ c.state.Blocks) {P : Prop} : P := by
    rw [isNew, Option.some.injEq] at found
    exact absurd (found ▸ blocks) runs
  have suspended {p c : Process} (isNew : (m.effect s).procs x = some c)
      (suspends : m.suspends = some c.state) (onCpu : s.OnCpu p)
      (samePid : c.pid = p.pid) (isRunning : x = s.running) :
      m.suspends = some n.state ∧ x = s.running ∧
        ∃ p, s.OnCpu p ∧ n.pid = p.pid := by
    rw [isNew, Option.some.injEq] at found
    exact ⟨found ▸ suspends, isRunning, p, onCpu, found ▸ samePid⟩
  have rewritten {p c : Process} (record : s.procs x = some p)
      (isNew : (m.effect s).procs x = some c) (rests : Rests p c) :
      ∃ p, s.procs x = some p ∧ Rests p n := by
    rw [isNew, Option.some.injEq] at found
    exact ⟨p, record, found ▸ rests⟩
  cases m with
  | sleep p wakeup =>
      cases touched
      exact .inr (suspended (Function.update_self ..) rfl applies rfl rfl)
  | awaitChild p =>
      cases touched
      exact .inr (suspended (Function.update_self ..) rfl applies rfl rfl)
  | awaitSend p fid q message =>
      cases touched
      exact .inr (suspended (Function.update_self ..) rfl applies.1 rfl rfl)
  | awaitReceive p fid q =>
      cases touched
      exact .inr (suspended (Function.update_self ..) rfl applies.1 rfl rfl)
  | awaitSem p sem y content =>
      cases touched
      exact .inr (suspended (Function.update_self ..) rfl applies.2.1 rfl rfl)
  | yield p | endFatherless pid r p how | finish pid r p | wakeSleeper r p
  | flush r p q | refill q content r p | postWake y content r p clear =>
      cases touched
      exact replaced (Function.update_self ..) id
  | put q content p message =>
      cases touched
      have elected := applies.2.2.1.2
      refine replaced (Function.update_self ..) ?_
      simp [elected, State.Blocks]
  | orphan r p =>
      cases touched
      exact .inl (rewritten applies.1 (Function.update_self ..)
        ⟨rfl, rfl, rfl, rfl, rfl, rfl⟩)
  | reprio r p newprio =>
      cases touched
      exact .inl (rewritten applies.1 (Function.update_self ..)
        ⟨rfl, rfl, rfl, rfl, rfl, rfl⟩)
  | clearSkip r p =>
      cases touched
      exact .inl (rewritten applies (Function.update_self ..)
        ⟨rfl, rfl, rfl, rfl, rfl, rfl⟩)
  | refuse r p =>
      cases touched
      exact .inl (rewritten applies.1 (Function.update_self ..)
        ⟨rfl, rfl, rfl, rfl, rfl, rfl⟩)
  | dispatch k r p old restored =>
      cases touched
      have isNew := dispatch_procs (s := s) (k := k) (r := x) (p := p)
        (o := old) (c := restored) x
      rw [if_pos rfl] at isNew
      exact replaced isNew id
  | create pid prio p children =>
      obtain ⟨-, onCpu, -⟩ := applies
      have isNew :
          ((Move.create pid prio p children).effect s).procs x = _ :=
        create_procs (ok.lt_nextRef onCpu.1).ne x
      by_cases isNext : x = s.nextRef
      · rw [if_pos isNext] at isNew
        exact replaced isNew id
      · rw [if_neg isNext, if_pos (touched.resolve_left isNext)] at isNew
        refine replaced isNew ?_
        simp [onCpu.2, State.Blocks]
  | createElect pid prio p children =>
      obtain ⟨-, onCpu, -⟩ := applies
      have isNew :
          ((Move.createElect pid prio p children).effect s).procs x = _ :=
        createElect_procs (ok.lt_nextRef onCpu.1).ne x
      by_cases isNext : x = s.nextRef
      · rw [if_pos isNext] at isNew
        exact replaced isNew id
      · rw [if_neg isNext, if_pos (touched.resolve_left isNext)] at isNew
        exact replaced isNew id
  | handOver q content message sender r p restored =>
      obtain ⟨-, -, -, next, onCpu, -⟩ := applies
      have isNew := handOver_procs (q := q) (c := content) (m := message)
        (n := sender) (p := p) (k := restored)
        (ok.running_ne_of_nextOut next onCpu) x
      by_cases isR : x = r
      · rw [if_pos isR] at isNew
        exact replaced isNew id
      · rw [if_neg isR, if_pos (touched.resolve_left isR)] at isNew
        exact replaced isNew id
  | reap pid r p caller children =>
      obtain ⟨-, -, -, -, -, distinct, onCpu, -⟩ := applies
      have isNew := reap_procs (i := pid) (p := p) (c := caller)
        (l := children) distinct x
      by_cases isR : x = r
      · rw [if_pos isR] at isNew
        exact replaced isNew id
      · rw [if_neg isR, if_pos (touched.resolve_left isR)] at isNew
        refine replaced isNew ?_
        simp [onCpu.2, State.Blocks]
  | endProcess pid r p how father =>
      obtain ⟨-, -, -, -, woken⟩ := applies
      cases father with
      | none =>
          cases touched.resolve_right (by simp)
          exact replaced (Function.update_self ..) id
      | some father =>
          have isNew := endProcess_procs (s := s) (i := pid) (p := p)
            (h := how) (f := father.2) woken.1 x
          by_cases isF : x = father.1
          · rw [if_pos isF] at isNew
            exact replaced isNew id
          · have isR : x = r := by
              refine touched.resolve_right ?_
              rintro ⟨f, content, isFather, isF'⟩
              cases isFather
              exact isF isF'
            rw [if_neg isF, if_pos isR] at isNew
            exact replaced isNew id
  | purge keep =>
      obtain ⟨p, record, link⟩ := ok.record_of_mem touched
      have state : p.state = .finished :=
        (ok.procs.linked x p record).state_of_link link
      obtain ⟨before, record', context⟩ :=
        (Steady.purge ok keep).procs x n found
      have kin := (Steady.purge ok keep).family x before n record' found
      rw [record, Option.some.injEq] at record'
      subst record'
      rw [kin.finished.mpr state] at blocks
      exact absurd blocks id
  | resetSem y content count | deleteSem sem y =>
      obtain ⟨c, isNew, state⟩ := ok.release_procs_of_mem touched
      refine replaced isNew ?_
      rw [state]
      exact id
  | settle | fault | note | tick | newQueue | deleteQueue | resetQueue | take
  | receive | newSem | acquire | post | clearReset => exact absurd touched id

/-- A process that waits for the processor only goes on so, starts to wait for
something else, or is ended. -/
theorem runs_after (ok : Coherent s) (cpu : CpuOk s) (applies : m.Guard s)
    {p : Process} (record : s.procs x = some p) (runs : p.state.Runs) :
    (∃ n, (m.effect s).procs x = some n ∧ m.RunsOn x p n) ∨
      m.suspends ≠ none ∧ x = s.running ∨
      (∃ pid how father, m = .endProcess pid x p how father) ∨
      ∃ pid how, m = .endFatherless pid x p how := by
  by_cases touched : m.Touches s x
  swap
  · left
    obtain ⟨stack, registers, isSaved⟩ := m.saves_eq s x p
    refine ⟨m.saves s x p, ?_, ?_⟩
    · rw [procs_untouched ok applies touched, record]
      rfl
    · rw [isSaved]
      exact ⟨runs, rfl, .inl rfl, .inl rfl⟩
  have same {r : ProcRef} {n : Process} (isR : x = r)
      (found : s.procs r = some n) : n = p := by
    rw [← isR, record, Option.some.injEq] at found
    exact found.symm
  have becomes {c : Process} (isNew : (m.effect s).procs x = some c)
      (runsOn : m.RunsOn x p c) :
      ∃ n, (m.effect s).procs x = some n ∧ m.RunsOn x p n :=
    ⟨c, isNew, runsOn⟩
  -- processes of other lists wait for something
  have elsewhere {h : Head} (member : x ∈ s.lists h) (other : h ≠ .activable)
      {P : Prop} : P := by
    have link := ok.lists.link_of_mem record member
    have linked := ok.procs.linked x p record
    cases state : p.state with
    | elected => simp [KState.LinkOk, state, link] at linked
    | activable =>
        simp [KState.LinkOk, state, link] at linked
        exact absurd linked other
    | _ =>
        rw [state] at runs
        exact absurd runs id
  cases m with
  | sleep | awaitChild | awaitSend | awaitReceive | awaitSem =>
      exact .inr (.inl ⟨by simp [suspends], touched⟩)
  | yield q =>
      cases touched
      cases same rfl applies.1
      exact .inl (becomes (Function.update_self ..)
        ⟨trivial, rfl, .inl rfl, .inl rfl⟩)
  | put q content n message =>
      cases touched
      cases same rfl applies.2.2.1.1
      exact .inl (becomes (Function.update_self ..)
        ⟨runs, rfl, .inl rfl, .inl rfl⟩)
  | purge keep => exact elsewhere touched (by simp)
  | resetSem y content count | deleteSem sem y =>
      exact elsewhere touched (by simp)
  | flush r n q =>
      exact elsewhere (touched ▸ List.mem_of_getLast? applies.1.1) (by simp)
  | refill q content r n =>
      exact elsewhere (touched ▸ List.mem_of_getLast? applies.2.2.2.2.1)
        (by simp)
  | postWake y content r n clear =>
      exact elsewhere (touched ▸ List.mem_of_getLast? applies.2.2.1) (by simp)
  | wakeSleeper r n =>
      cases same touched applies.1
      rw [applies.2.1] at runs
      exact absurd runs id
  | finish pid r n =>
      cases same touched applies.1.2
      rw [applies.2.1] at runs
      exact absurd runs id
  | orphan r n =>
      cases same touched applies.1
      cases touched
      exact .inl (becomes (Function.update_self ..)
        ⟨runs, rfl, .inl rfl, .inr rfl⟩)
  | reprio r n newprio =>
      cases same touched applies.1
      cases touched
      exact .inl (becomes (Function.update_self ..)
        ⟨runs, rfl, .inr ⟨newprio, rfl⟩, .inl rfl⟩)
  | clearSkip r n =>
      cases same touched applies
      cases touched
      exact .inl (becomes (Function.update_self ..)
        ⟨runs, rfl, .inl rfl, .inl rfl⟩)
  | refuse r n =>
      cases same touched applies.1
      cases touched
      exact .inl (becomes (Function.update_self ..)
        ⟨runs, rfl, .inl rfl, .inl rfl⟩)
  | endFatherless pid r n how =>
      cases same touched applies.1.2
      cases touched
      exact .inr (.inr (.inr ⟨pid, how, rfl⟩))
  | endProcess pid r n how father =>
      obtain ⟨has, -, -, -, woken⟩ := applies
      rcases touched with isR | ⟨f, content, rfl, isF⟩
      · cases same isR has.2
        cases isR
        exact .inr (.inr (.inl ⟨pid, how, father, rfl⟩))
      · have isP := same isF woken.2.1
        have member := ok.lists.mem_of_link record (isP ▸ woken.2.2.1)
        exact elsewhere member (by simp)
  | dispatch k r n old restored =>
      cases same touched applies.2.1.2
      cases touched
      have isNew := dispatch_procs (s := s) (k := k) (r := x) (p := p)
        (o := old) (c := restored) x
      rw [if_pos rfl] at isNew
      exact .inl (becomes isNew ⟨trivial, rfl, .inl rfl, .inl rfl⟩)
  | create pid prio n children =>
      obtain ⟨-, onCpu, -⟩ := applies
      have notNext := (ok.lt_nextRef record).ne
      have isRunning := touched.resolve_left notNext
      cases same isRunning onCpu.1
      have isNew :
          ((Move.create pid prio p children).effect s).procs x = _ :=
        create_procs (ok.lt_nextRef onCpu.1).ne x
      rw [if_neg notNext, if_pos isRunning] at isNew
      exact .inl (becomes isNew ⟨runs, rfl, .inl rfl, .inl rfl⟩)
  | createElect pid prio n children =>
      obtain ⟨-, onCpu, -⟩ := applies
      have notNext := (ok.lt_nextRef record).ne
      have isRunning := touched.resolve_left notNext
      cases same isRunning onCpu.1
      have isNew :
          ((Move.createElect pid prio p children).effect s).procs x = _ :=
        createElect_procs (ok.lt_nextRef onCpu.1).ne x
      rw [if_neg notNext, if_pos isRunning] at isNew
      exact .inl (becomes isNew ⟨trivial, rfl, .inl rfl, .inl rfl⟩)
  | handOver q content message sender r n restored =>
      obtain ⟨-, -, -, next, onCpu, -⟩ := applies
      have isNew := handOver_procs (q := q) (c := content) (m := message)
        (n := sender) (p := n) (k := restored)
        (ok.running_ne_of_nextOut next onCpu) x
      by_cases isR : x = r
      · exact elsewhere (isR ▸ List.mem_of_getLast? next.1) (by simp)
      · have isRunning := touched.resolve_left isR
        cases same isRunning onCpu.1
        rw [if_neg isR, if_pos isRunning] at isNew
        exact .inl (becomes isNew ⟨trivial, rfl, .inl rfl, .inl rfl⟩)
  | reap pid r n caller children =>
      obtain ⟨-, -, has, unlinked, -, distinct, onCpu, -⟩ := applies
      have isNew := reap_procs (i := pid) (p := n) (c := caller)
        (l := children) distinct x
      by_cases isR : x = r
      · -- only the running process is elected, and activable ones are linked
        cases same isR has.2
        have linked := ok.procs.linked x p record
        cases state : p.state with
        | elected =>
            exact absurd (isR.symm.trans (cpu.elected x p record state)) distinct
        | activable => simp [KState.LinkOk, state, unlinked] at linked
        | _ =>
            rw [state] at runs
            exact absurd runs id
      · have isRunning := touched.resolve_left isR
        cases same isRunning onCpu.1
        rw [if_neg isR, if_pos isRunning] at isNew
        exact .inl (becomes isNew ⟨runs, rfl, .inl rfl, .inl rfl⟩)
  | settle | fault | note | tick | newQueue | deleteQueue | resetQueue | take
  | receive | newSem | acquire | post | clearReset => exact absurd touched id

/-- What a process that leaves the processor goes on with. -/
inductive Leaves : Move → Context → Prop
  | dispatch (k : Context) (r : ProcRef) (p : Process) (old : ProcRef)
      (restored : Context) : Leaves (.dispatch k r p old restored) k
  | createElect (pid prio : Int) (p : Process) (children : List Child)
      (new : ProcRef) : Leaves (.createElect pid prio p children) (.start new)
  | handOver (q : QueueRef) (content : MessageQueue) (message : Int)
      (sender : Process) (r : ProcRef) (p : Process) (restored : Context) :
      Leaves (.handOver q content message sender r p restored) .handedOver

/-- The stack of a process changes when it leaves the processor only. -/
theorem stack_after (ok : Coherent s) (applies : m.Guard s) {n : Process}
    (found : (m.effect s).procs x = some n) :
    (∃ p, s.procs x = some p ∧ n.stack = p.stack) ∨
      x = s.running ∧ m.Leaves n.stack ∨ x = s.nextRef ∧ n.stack = .fresh := by
  by_cases stays : ¬ m.Switches
  · obtain ⟨p, record, context⟩ := (m.unswitched stays ok applies).procs x n found
    exact .inl ⟨p, record, context.stack⟩
  rw [not_not] at stays
  cases m with
  | dispatch k r p old restored =>
      rw [dispatch_procs] at found
      split at found
      · rename_i isNew
        cases found
        by_cases isRunning : r = s.running
        · refine .inr (.inl ⟨isNew.trans isRunning, ?_⟩)
          simp only [isRunning, if_true]
          exact .dispatch k _ p old restored
        · exact .inl ⟨p, isNew ▸ applies.2.1.2, if_neg isRunning⟩
      · obtain ⟨before, record, rfl⟩ := Option.map_eq_some_iff.mp found
        by_cases isRunning : x = s.running
        · refine .inr (.inl ⟨isRunning, ?_⟩)
          simp only [isRunning, if_true]
          exact .dispatch k r p old restored
        · exact .inl ⟨before, record, if_neg isRunning⟩
  | create pid prio p children =>
      obtain ⟨-, onCpu, -⟩ := applies
      rw [create_procs (ok.lt_nextRef onCpu.1).ne] at found
      split at found
      · rename_i isNew
        cases found
        exact .inr (.inr ⟨isNew, rfl⟩)
      · split at found
        · rename_i isRunning
          cases found
          exact .inl ⟨p, isRunning ▸ onCpu.1, rfl⟩
        · exact .inl ⟨n, found, rfl⟩
  | createElect pid prio p children =>
      obtain ⟨-, onCpu, -⟩ := applies
      rw [createElect_procs (ok.lt_nextRef onCpu.1).ne] at found
      split at found
      · rename_i isNew
        cases found
        exact .inr (.inr ⟨isNew, rfl⟩)
      · split at found
        · rename_i isRunning
          cases found
          exact .inr (.inl ⟨isRunning, .createElect pid prio p children _⟩)
        · exact .inl ⟨n, found, rfl⟩
  | handOver q content message sender r p restored =>
      obtain ⟨-, -, -, next, onCpu, -⟩ := applies
      rw [handOver_procs (ok.running_ne_of_nextOut next onCpu)] at found
      split at found
      · rename_i isNew
        cases found
        exact .inl ⟨p, isNew ▸ next.2, rfl⟩
      · split at found
        · rename_i isRunning
          cases found
          exact .inr (.inl
            ⟨isRunning, .handOver q content message sender r p restored⟩)
        · exact .inl ⟨n, found, rfl⟩
  | _ => exact absurd stays id

end Move

end Nebulea
