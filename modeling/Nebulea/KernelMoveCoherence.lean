import Nebulea.KernelCoherence

/-!
# Every move keeps the kernel coherent

First lists, records and tables, then the processor: the process on it is the
one `current_pid` names, and no other process is elected.
-/

namespace Nebulea

variable {s : KState}

namespace Coherent

theorem releaseAll (ok : Coherent s) (x : SemRef) :
    Coherent (s.release x (s.lists (.sem x)).reverse) := by
  refine KState.releaseAll_keeps ok ?_ ok
  intro t r p coherent record link
  obtain ⟨state, -⟩ := (coherent.procs.linked r p record).state_of_link link
  exact coherent.wake record link (by simp [state]) rfl

theorem move (ok : Coherent s) {m : Move} (applies : m.Guard s) :
    Coherent (m.effect s) := by
  have elected {p : Process} (onCpu : s.OnCpu p) :
      p.link = none ∧ p.state ≠ .finished :=
    ⟨ok.link_of_elected onCpu.1 onCpu.2, by simp [onCpu.2]⟩
  cases m with
  | settle mode eax | fault | tick =>
      exact ok.frame ⟨rfl, rfl, rfl, rfl, rfl, rfl, rfl, rfl, rfl⟩
  | note e => exact ok.note e
  | yield p =>
      obtain ⟨unlinked, active⟩ := elected applies
      exact ok.wake applies.1 unlinked active rfl
  | sleep p wakeup =>
      obtain ⟨unlinked, active⟩ := elected applies
      exact ok.setState applies.1 rfl (by simp [active]) rfl rfl rfl unlinked
  | awaitChild p =>
      obtain ⟨unlinked, active⟩ := elected applies
      exact ok.relink applies.1 unlinked active rfl (by simp) rfl
  | awaitSend p fid q message =>
      obtain ⟨onCpu, low, high, entry⟩ := applies
      obtain ⟨unlinked, active⟩ := elected onCpu
      exact (ok.note (.sending s.running q message)).relink onCpu.1 unlinked
        active rfl (by simp) ⟨fid, q, entry, rfl⟩
  | awaitReceive p fid q =>
      obtain ⟨onCpu, low, high, entry⟩ := applies
      obtain ⟨unlinked, active⟩ := elected onCpu
      exact ok.relink onCpu.1 unlinked active rfl (by simp)
        ⟨fid, q, entry, rfl⟩
  | awaitSem p sem x content =>
      obtain ⟨-, onCpu, low, high, entry, record, bound, negative⟩ := applies
      obtain ⟨unlinked, active⟩ := elected onCpu
      have counted := ok.setSem (w := content.wasReset) record
        (short_low (content.count - 1)) (short_high _)
      exact counted.relink onCpu.1 unlinked active rfl (by simp)
        ⟨x, entry, rfl⟩
  | purge keep =>
      refine ok.purge ?_
      intro r isKept
      have found := applies.1.symm.trans isKept
      exact List.mem_of_find?_eq_some found
  | wakeSleeper r p =>
      obtain ⟨record, asleep, -⟩ := applies
      have unlinked : p.link = none := by
        simpa [KState.LinkOk, asleep] using ok.procs.linked r p record
      exact ok.wake record unlinked (by simp [asleep]) rfl
  | dispatch k r p old restored =>
      obtain ⟨-, next, -⟩ := applies
      have link := ok.link_of_nextOut next
      have state := ok.activable_of_nextOut next
      have moved := ok.relink (g := none)
        (n := { p with state := .elected }) next.2 link (by simp [state]) rfl
        (by simp) rfl
      have noted := moved.frame (t :=
        { s.relink r { p with state := .elected } (some .activable) none with
          currentPid := p.pid }.note
            (.contextSwitch s.running old (s.lists .finished)))
        ⟨rfl, rfl, rfl, rfl, rfl, rfl, rfl, rfl, rfl⟩
      exact (noted.save k old).load r restored
  | create pid prio p children =>
      obtain ⟨-, onCpu, -, -, low, high, freePid, -⟩ := applies
      have adopted := ok.adopt prio children onCpu.1
        freePid ⟨low, high⟩
      have distinct : s.nextRef ≠ s.running := (ok.lt_nextRef onCpu.1).ne'
      exact adopted.wake (p := s.created pid prio) (by simp [distinct]) rfl
        (by simp [KState.created, Process.zeroed]) rfl
  | createElect pid prio p children =>
      obtain ⟨-, onCpu, -, -, low, high, freePid, -⟩ := applies
      obtain ⟨unlinked, active⟩ := elected onCpu
      have adopted := ok.adopt prio children onCpu.1
        freePid ⟨low, high⟩
      have woken := adopted.wake (r := s.running)
        (n := { p with children := some (addChild ⟨pid, 1⟩ children) })
        (Function.update_self ..) unlinked active rfl
      have current := woken.frame (t :=
        { (s.adopt pid prio p children).wake s.running
          { p with children := some (addChild ⟨pid, 1⟩ children) } none with
          currentPid := pid }) ⟨rfl, rfl, rfl, rfl, rfl, rfl, rfl, rfl, rfl⟩
      exact (current.save _ _).load _ _
  | endProcess pid r p how father =>
      obtain ⟨has, living, -, -, woken⟩ := applies
      have given := ok.giveBack p
      have ended := (given.relink (g := none) (h := p.link)
        (n := { p with retval := how.retval, state := .zombie }) has.2 rfl
        living.2 rfl (by simp) rfl).note (how.event r)
      cases father with
      | none => exact ended
      | some father =>
          obtain ⟨f, father⟩ := father
          obtain ⟨distinct, record, link, -⟩ := woken
          have state :=
            (ok.procs.linked f father record).state_of_link link
          exact ended.wake (p := father) (by simp [distinct, record]) link
            (by simp [state]) rfl
  | endFatherless pid r p how =>
      obtain ⟨has, -⟩ := applies
      exact ((ok.giveBack p).finish pid (n := { p with retval := how.retval })
        has rfl).note (how.event r)
  | orphan r p =>
      exact ok.setProc applies.1 rfl rfl rfl rfl rfl rfl
  | finish pid r p =>
      obtain ⟨has, zombie, -⟩ := applies
      have unlinked : p.link = none := by
        simpa [KState.LinkOk, zombie] using ok.procs.linked r p has.2
      exact ok.finish pid has unlinked
  | reap pid r p caller children =>
      obtain ⟨-, -, has, unlinked, -, distinct, onCpu, -⟩ := applies
      have updated := ok.setProc (n := { caller with children := some children })
        onCpu.1 rfl rfl rfl rfl rfl rfl
      have finished := updated.finish pid (n := p) (r := r) (p := p)
        ⟨has.1, by simp [distinct, has.2]⟩ unlinked
      exact finished.frame ⟨rfl, rfl, rfl, rfl, rfl, rfl, rfl, rfl, rfl⟩
  | reprio r p newprio =>
      obtain ⟨record, living, -⟩ := applies
      exact ok.relink record rfl living.2 rfl living.2
        ((ok.procs.linked r p record).congr rfl rfl rfl rfl rfl)
  | clearSkip r p => exact ok.setProc applies rfl rfl rfl rfl rfl rfl
  | refuse r p =>
      have cleared := ok.setProc (n := { p with skipMessage := false })
        applies.1 rfl rfl rfl rfl rfl rfl
      exact cleared.frame ⟨rfl, rfl, rfl, rfl, rfl, rfl, rfl, rfl, rfl⟩
  | newQueue fid capacity =>
      obtain ⟨low, high, free, -⟩ := applies
      exact ok.newQueue ⟨low, high⟩ free
  | flush r p q =>
      obtain ⟨next, -⟩ := applies
      have link := ok.link_of_nextOut next
      have state := ok.inMsgqueue_of_nextOut next
      exact ok.wake next.2 link (by simp [state]) rfl
  | deleteQueue fid q => exact ok.deleteQueue applies.1 applies.2
  | resetQueue q content => exact ok.setQueue applies.1.2 rfl
  | put q content p message =>
      obtain ⟨has, -, onCpu, -⟩ := applies
      have noted := (ok.setProc (n := { p with message := message }) onCpu.1
        rfl rfl rfl rfl rfl rfl).note (.sending s.running q message)
      exact (noted.setQueue (c := content.push message) has.2 rfl).note _
  | take q content =>
      exact (ok.note _).setQueue applies.1.2 rfl
  | refill q content r p =>
      obtain ⟨has, -, -, -, next⟩ := applies
      have link := ok.link_of_nextOut next
      have state := ok.inMsgqueue_of_nextOut next
      have refilled := ((ok.note
        (.take q s.running (content.buffer content.tail))).setQueue
          (c := content.skip.write p.message) has.2 rfl).note
            (.put q r p.message)
      exact refilled.wake next.2 link (by simp [state]) rfl
  | handOver q content message sender r p restored =>
      obtain ⟨has, -, -, next, onCpu, -⟩ := applies
      obtain ⟨unlinked, active⟩ := elected onCpu
      have link := ok.link_of_nextOut next
      have state := ok.inMsgqueue_of_nextOut next
      have distinct := ok.running_ne_of_nextOut next onCpu
      have pushed := ((ok.note (.sending s.running q message)).setQueue
        (c := content.push message) has.2 rfl).note
          (.put q s.running message)
      have elect := pushed.relink (g := none)
        (n := { p with state := .elected }) next.2 link (by simp [state])
        rfl (by simp) rfl
      have woken := elect.wake (r := s.running) (p := sender)
        (n := { sender with message := message })
        (by simp [distinct, onCpu.1]) unlinked active rfl
      have current := woken.frame (t :=
        { ((((s.note (.sending s.running q message)).setQueue q
            (content.push message)).note (.put q s.running message)).relink r
              { p with state := .elected } (some (.queue q)) none).wake
                s.running { sender with message := message } none with
          currentPid := p.pid }) ⟨rfl, rfl, rfl, rfl, rfl, rfl, rfl, rfl, rfl⟩
      exact (current.save _ _).load _ _
  | receive r q content =>
      have received := (ok.note
        (.take q r (content.buffer content.tail))).setQueue
          (c := content.pop) applies.1 rfl
      exact received.frame ⟨rfl, rfl, rfl, rfl, rfl, rfl, rfl, rfl, rfl⟩
  | newSem sem count =>
      obtain ⟨low, high, free, first, second⟩ := applies
      exact ok.newSem ⟨low, high⟩ free ⟨first, second⟩
  | acquire x content =>
      exact (ok.setSem applies.1.2 (short_low _) (short_high _)).note _
  | post x content =>
      exact (ok.setSem applies.1.2 (short_low _) (short_high _)).note _
  | postWake x content r p clear =>
      obtain ⟨has, -, next⟩ := applies
      have link := ok.link_of_nextOut next
      have state := ok.inSem_of_nextOut next
      have counted := ((ok.setSem (w := content.wasReset && !clear)
        has.2 (short_low (content.count + 1)) (short_high _)).note
          (.signalled x)).note (.granted x r)
      exact counted.wake next.2 link (by simp [state]) rfl
  | clearReset x content =>
      obtain ⟨low, high, -⟩ := ok.heap.shorts x content applies.2
      exact ok.setSem applies.2 low high
  | resetSem x content count =>
      obtain ⟨has, low, high⟩ := applies
      have upper : count < 0x8000 := by
        unfold semaphoreMaxSize at high
        omega
      have record : (s.release x (s.lists (.sem x)).reverse).sems x =
          some content := by
        rw [KState.release_sems]
        exact has.2
      exact ((ok.releaseAll x).setSem record (by omega) upper).note _
  | deleteSem sem x =>
      refine (ok.releaseAll x).forgetSem sem x ?_ ?_
      · rw [KState.release_semaphoreTable]
        exact applies
      · exact KState.releaseAll_lists_sem ok

end Coherent

/-! ## The process on the processor -/

/-- The process on the processor is the current one, and no other process is
elected. -/
structure CpuOk (s : KState) : Prop where
  current : ∃ p, s.procs s.running = some p ∧ p.pid = s.currentPid
  elected : ∀ r p, s.procs r = some p → p.state = .elected → r = s.running

namespace CpuOk

variable {t : KState}

/-- No process is elected once the running one has left that state. -/
theorem notElected (cpu : CpuOk s) {p : Process}
    (record : s.procs s.running = some p) (left : p.state ≠ .elected)
    {x : ProcRef} {content : Process} (found : s.procs x = some content) :
    content.state ≠ .elected := by
  intro isElected
  have same := cpu.elected x content found isElected
  rw [same, record, Option.some.injEq] at found
  exact left (found ▸ isElected)

theorem frame (cpu : CpuOk s) (sameProcs : t.procs = s.procs)
    (sameRunning : t.running = s.running)
    (sameCurrent : t.currentPid = s.currentPid) : CpuOk t := by
  constructor
  · rw [sameProcs, sameRunning, sameCurrent]
    exact cpu.current
  · rw [sameProcs, sameRunning]
    exact cpu.elected

/-- One record changes, and is not elected unless it was. -/
theorem update (cpu : CpuOk s) {r : ProcRef} {p n : Process}
    (record : s.procs r = some p)
    (procs : t.procs = Function.update s.procs r (some n))
    (sameRunning : t.running = s.running)
    (sameCurrent : t.currentPid = s.currentPid) (samePid : n.pid = p.pid)
    (notNew : n.state = .elected → p.state = .elected) : CpuOk t := by
  constructor
  · obtain ⟨content, found, isPid⟩ := cpu.current
    rw [procs, sameRunning, sameCurrent]
    by_cases same : s.running = r
    · rw [same, record, Option.some.injEq] at found
      subst found
      exact ⟨n, by simp [same], samePid.trans isPid⟩
    · exact ⟨content, by simp [same, found], isPid⟩
  · intro x content found isElected
    rw [sameRunning]
    rw [procs] at found
    by_cases same : x = r
    · subst same
      simp only [Function.update_self, Option.some.injEq] at found
      subst found
      exact cpu.elected x p record (notNew isElected)
    · rw [Function.update_of_ne same] at found
      exact cpu.elected x content found isElected

theorem relink (cpu : CpuOk s) {r : ProcRef} {p n : Process}
    {h g : Option Head} (record : s.procs r = some p)
    (samePid : n.pid = p.pid)
    (notNew : n.state = .elected → p.state = .elected) :
    CpuOk (s.relink r n h g) :=
  cpu.update record (n := { n with
      link := g
      stamp := if g = none then n.stamp else s.stamp })
    rfl rfl rfl samePid notNew

theorem wake (cpu : CpuOk s) {r : ProcRef} {p n : Process}
    {h : Option Head} (record : s.procs r = some p)
    (samePid : n.pid = p.pid) : CpuOk (s.wake r n h) :=
  cpu.relink record samePid (by simp)

theorem finish (cpu : CpuOk s) (pid : Int) {r : ProcRef} {p n : Process}
    {h : Option Head} (record : s.procs r = some p)
    (samePid : n.pid = p.pid) : CpuOk (s.finish pid r n h) :=
  cpu.update record (n := { n with
      state := .finished
      link := some .finished
      stamp := s.stamp }) rfl rfl rfl samePid (by simp)

theorem setProc (cpu : CpuOk s) {r : ProcRef} {p n : Process}
    (record : s.procs r = some p) (samePid : n.pid = p.pid)
    (notNew : n.state = .elected → p.state = .elected) :
    CpuOk (s.setProc r n) :=
  cpu.update record rfl rfl rfl samePid notNew

/-- The record of the process on the processor is not released. -/
theorem purge (cpu : CpuOk s) {keep : Option ProcRef}
    (others : ∀ x ∈ s.lists .finished, keep ≠ some x → ∀ p,
      s.procs x = some p → p.pid ≠ s.currentPid) : CpuOk (s.purge keep) := by
  constructor
  · obtain ⟨p, record, isPid⟩ := cpu.current
    by_cases finished : s.running ∈ s.lists .finished
    · have kept : keep = some s.running := by
        by_contra released
        exact others s.running finished released p record isPid
      exact ⟨{ p with link := some .finished, stamp := s.stamp },
        by simp [finished, kept, record], isPid⟩
    · exact ⟨p, by simp [finished, record], isPid⟩
  · intro x content found isElected
    rw [KState.purge_procs] at found
    split at found
    · split at found
      · obtain ⟨p, record, rfl⟩ := Option.map_eq_some_iff.mp found
        exact cpu.elected x p record isElected
      · simp at found
    · exact cpu.elected x content found isElected

/-- `virtual_ctx_sw` to the only process that is elected. -/
theorem switch {new old : ProcRef} {p : Process} (k restored : Context)
    (record : s.procs new = some p) (isPid : p.pid = s.currentPid)
    (only : ∀ x content, s.procs x = some content →
      content.state = .elected → x = new) :
    CpuOk ((s.save k old).load new restored) := by
  constructor
  · rw [KState.load_running, KState.load_procs, KState.save_procs, record]
    exact ⟨_, rfl, isPid⟩
  · intro x content found isElected
    rw [KState.load_procs, KState.save_procs, Option.map_map,
      Option.map_eq_some_iff] at found
    obtain ⟨before, present, rfl⟩ := found
    exact only x before present isElected

theorem releaseAll (cpu : CpuOk s) (ok : Coherent s) (x : SemRef) :
    CpuOk (s.release x (s.lists (.sem x)).reverse) := by
  refine KState.releaseAll_keeps ok ?_ cpu
  intro t r p kept record _
  exact kept.wake record rfl

theorem move (cpu : CpuOk s) (ok : Coherent s) {m : Move}
    (applies : m.Guard s) : CpuOk (m.effect s) := by
  cases m with
  | settle mode eax | fault | tick | note e | newQueue fid capacity
  | deleteQueue fid q | resetQueue q content
  | take q content | receive r q content | newSem sem count
  | acquire x content | post x content | clearReset x content =>
      exact cpu.frame rfl rfl rfl
  | yield p => exact cpu.wake applies.1 rfl
  | sleep p wakeup => exact cpu.setProc applies.1 rfl (by simp)
  | awaitChild p => exact cpu.relink applies.1 rfl (by simp)
  | awaitSend p fid q message =>
      have noted : CpuOk (s.note (.sending s.running q message)) :=
        cpu.frame rfl rfl rfl
      exact noted.relink applies.1.1 rfl (by simp)
  | awaitReceive p fid q => exact cpu.relink applies.1.1 rfl (by simp)
  | awaitSem p sem x content =>
      have counted : CpuOk (s.setSem x
          { content with count := short (content.count - 1) }) :=
        cpu.frame rfl rfl rfl
      exact counted.relink applies.2.1.1 rfl (by simp)
  | purge keep => exact cpu.purge applies.2
  | wakeSleeper r p => exact cpu.wake applies.1 rfl
  | dispatch k r p old restored =>
      obtain ⟨-, next, -, -, -, ⟨content, record, left, -⟩, -⟩ := applies
      refine switch k restored (Function.update_self ..) rfl ?_
      intro x other found isElected
      by_contra distinct
      have present : s.procs x = some other := by
        simpa [distinct] using found
      exact cpu.notElected record left present isElected
  | create pid prio p children =>
      obtain ⟨-, onCpu, -⟩ := applies
      have distinct : s.running ≠ s.nextRef := (ok.lt_nextRef onCpu.1).ne
      obtain ⟨content, record, isPid⟩ := cpu.current
      rw [onCpu.1, Option.some.injEq] at record
      subst record
      constructor
      · exact ⟨{ p with children := some (addChild ⟨pid, 1⟩ children) },
          by simp [Move.effect, distinct], isPid⟩
      · intro x content found isElected
        by_cases isNew : x = s.nextRef
        · subst isNew
          simp only [Move.effect, KState.wake_procs, Function.update_self,
            Option.some.injEq] at found
          simp [← found] at isElected
        · by_cases isRunning : x = s.running
          · exact isRunning
          · have present : s.procs x = some content := by
              simpa [Move.effect, isNew, isRunning] using found
            exact cpu.elected x content present isElected
  | createElect pid prio p children =>
      obtain ⟨-, onCpu, -⟩ := applies
      have distinct : s.nextRef ≠ s.running := (ok.lt_nextRef onCpu.1).ne'
      refine switch (p := s.created pid prio) _ _ (by simp [distinct]) rfl ?_
      intro x content found isElected
      by_contra other
      by_cases isRunning : x = s.running
      · subst isRunning
        simp only [KState.wake_procs, Function.update_self,
          Option.some.injEq] at found
        simp [← found] at isElected
      · have present : s.procs x = some content := by
          simpa [other, isRunning] using found
        exact isRunning (cpu.elected x content present isElected)
  | endProcess pid r p how father =>
      obtain ⟨has, -, -, -, woken⟩ := applies
      have given : CpuOk (s.giveBack p) := cpu.frame rfl rfl rfl
      have ended : CpuOk (((s.giveBack p).relink r
          { p with retval := how.retval, state := .zombie } p.link none).note
            (how.event r)) :=
        (given.relink (h := p.link) (g := none)
          (n := { p with retval := how.retval, state := .zombie })
          has.2 rfl (by simp)).frame rfl rfl rfl
      cases father with
      | none => exact ended
      | some father =>
          obtain ⟨f, father⟩ := father
          obtain ⟨distinct, record, -⟩ := woken
          exact ended.wake (p := father) (by simp [distinct, record]) rfl
  | endFatherless pid r p how =>
      have given : CpuOk (s.giveBack p) := cpu.frame rfl rfl rfl
      exact (given.finish pid (h := p.link)
        (n := { p with retval := how.retval })
        applies.1.2 rfl).frame rfl rfl rfl
  | orphan r p => exact cpu.setProc applies.1 rfl id
  | finish pid r p => exact cpu.finish pid applies.1.2 rfl
  | reap pid r p caller children =>
      obtain ⟨-, -, has, -, -, distinct, onCpu, -⟩ := applies
      have updated := cpu.setProc (n := { caller with children := some children })
        onCpu.1 rfl id
      exact (updated.finish pid (h := none) (r := r) (p := p)
        (n := p) (by simp [distinct, has.2]) rfl).frame rfl rfl rfl
  | reprio r p newprio => exact cpu.relink applies.1 rfl id
  | clearSkip r p => exact cpu.setProc applies rfl id
  | refuse r p =>
      exact (cpu.setProc (n := { p with skipMessage := false }) applies.1
        rfl id).frame rfl rfl rfl
  | put q content p message =>
      exact (cpu.setProc (n := { p with message := message })
        applies.2.2.1.1 rfl id).frame rfl rfl rfl
  | flush r p q => exact cpu.wake applies.1.2 rfl
  | refill q content r p =>
      obtain ⟨-, -, -, -, next⟩ := applies
      have refilled : CpuOk (((s.note
          (.take q s.running (content.buffer content.tail))).setQueue q
            (content.skip.write p.message)).note (.put q r p.message)) :=
        cpu.frame rfl rfl rfl
      exact refilled.wake next.2 rfl
  | handOver q content message sender r p restored =>
      obtain ⟨-, -, -, next, onCpu, -⟩ := applies
      have distinct := (ok.running_ne_of_nextOut next onCpu).symm
      refine switch (p := { p with state := .elected, link := none }) _ _
        (by simp [distinct]) rfl ?_
      intro x content' found isElected
      by_contra other
      by_cases isRunning : x = s.running
      · subst isRunning
        simp only [KState.wake_procs, Function.update_self,
          Option.some.injEq] at found
        simp [← found] at isElected
      · have present : s.procs x = some content' := by
          simpa [other, isRunning] using found
        exact isRunning (cpu.elected x content' present isElected)
  | postWake x content r p clear =>
      obtain ⟨-, -, next⟩ := applies
      have counted : CpuOk (((s.setSem x
          { content with
            count := short (content.count + 1)
            wasReset := content.wasReset && !clear }).note
              (.signalled x)).note (.granted x r)) :=
        cpu.frame rfl rfl rfl
      exact counted.wake next.2 rfl
  | resetSem x content count => exact (cpu.releaseAll ok x).frame rfl rfl rfl
  | deleteSem sem x => exact (cpu.releaseAll ok x).frame rfl rfl rfl

end CpuOk

end Nebulea
