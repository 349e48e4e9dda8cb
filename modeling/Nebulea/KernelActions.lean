import Nebulea.KernelSemaphoreMoves
import Nebulea.KernelWaitMoves

/-!
# Kernel entries perform moves

Most moves may be taken by any kernel entry.  `Move.By` says which entries take
the others, and in which state.  The rules of the single calls then add up to
one statement about every entry.
-/

namespace Nebulea

open ExceptState

/-- The entries that store through a pointer argument, or that follow a null
pointer. -/
def Action.MayFault (s : KState) : Action → Prop
  | .call (.waitpid _ _) | .call (.pcount _ _) | .call (.preceive _ _)
  | .call (.clockSettings _ _) | .call (.sdelete _) => True
  | .resume =>
      (∃ pid retvalp, s.mode = .kernel (.waitpid pid retvalp)) ∨
        ∃ r q message, s.mode = .kernel (.preceive r q message) ∧
          message.addr ≠ 0 ∧ message.faults = true
  | _ => False

/-- The entries that store through a pointer argument, and where. -/
def Action.MayStore (s : KState) (addr : Nat) : Action → Prop
  | .call (.waitpid _ retvalp) => addr = retvalp.addr ∧ 0x4000000 ≤ addr
  | .call (.pcount fid count) =>
      addr = count.addr ∧ queueOf s fid ≠ none ∧ count.addr ≠ 0 ∧
        count.faults = false
  | .call (.preceive fid message) =>
      addr = message.addr ∧
        (∃ q content, queueOf s fid = some q ∧ s.queues q = some content ∧
          0 < content.nbMsg) ∧
        message.addr ≠ 0 ∧ message.faults = false
  | .call (.clockSettings quartz ticks) =>
      quartz.faults = false ∧
        (addr = quartz.addr ∨ addr = ticks.addr ∧ ticks.faults = false)
  | .resume =>
      (∃ pid retvalp, s.mode = .kernel (.waitpid pid retvalp) ∧
          addr = retvalp.addr ∧ 0x4000000 ≤ addr) ∨
        ∃ q message p, s.mode = .kernel (.preceive s.running q message) ∧
          s.procs s.running = some p ∧ p.skipMessage = false ∧
          addr = message.addr ∧ message.addr ≠ 0 ∧ message.faults = false
  | _ => False

/-- The entry that ends the process `r` of this pid. -/
def Ending.By (s : KState) (a : Action) (pid : Int) (r : ProcRef) :
    Ending → Prop
  | .exit retval =>
      r = s.running ∧
        (a = .call (.exit retval) ∨ s.mode = .pageFault ∧ retval = 0)
  | .kill => a = .call (.kill pid) ∧ pid ≠ 0

/-- The action performs `waitpid(pid, retvalp)` or its rest. -/
def Action.Waits (s : KState) (a : Action) (pid : Int) (retvalp : UserPtr) :
    Prop :=
  a = .call (.waitpid pid retvalp) ∨
    a = .resume ∧ s.mode = .kernel (.waitpid pid retvalp)

/-- The action ends the process `pid`. -/
def Action.Ceases (s : KState) (a : Action) (pid : Int) : Prop :=
  pid = s.currentPid ∧
      ((∃ retval, a = .call (.exit retval)) ∨ s.mode = .pageFault) ∨
    a = .call (.kill pid)

/-- A move taken in state `t` by the entry `a` that started in `s`. -/
def Move.By (s : KState) (a : Action) : Move → KState → Prop
  | .fault, t => t.mode = s.mode ∧ a.MayFault s
  | .settle _ _, t | .refuse _ _, t | .receive _ _ _, t => t.mode = s.mode
  | .dispatch k _ _ _ _, t =>
      t.mode = s.mode ∧
        ∀ pid retvalp, k = .waitpid pid retvalp →
          a = .call (.waitpid pid retvalp)
  | .reap pid _ p _ _, t =>
      (∃ trace, t = { s with trace := trace }) ∧
        (∃ asked retvalp, a.Waits s asked retvalp ∧
          (asked < 0 ∨ pid = asked)) ∧
        (p.state = .zombie ∨
          ∃ retvalp, s.mode = .kernel (.waitpid pid retvalp))
  | .tick, t => t = s ∧ a = .tick
  | .sleep _ wakeup, t => t = s ∧ a = .call (.waitClock wakeup)
  | .awaitSend _ fid q message, t =>
      t = s ∧ queueOf s fid = some q ∧ a = .call (.psend fid message)
  | .awaitReceive _ fid q, t =>
      t = s ∧ queueOf s fid = some q ∧
        ∃ message, a = .call (.preceive fid message)
  | .awaitSem _ sem x _, t =>
      t = s ∧ semOf s sem = some x ∧ a = .call (.wait sem)
  | .put q _ _ message, t =>
      t = s ∧ ∃ fid, queueOf s fid = some q ∧ a = .call (.psend fid message)
  | .take q _, t =>
      (∃ trace, t = { s with trace := trace }) ∧
        ∃ fid message, queueOf s fid = some q ∧
          a = .call (.preceive fid message)
  | .orphan _ p, _ => a.Ceases s p.fatherPid
  | .awaitChild p, t =>
      t = s ∧ ∃ pid retvalp, a = .call (.waitpid pid retvalp) ∧
        (pid < 0 → ∃ children, p.children = some children ∧ children ≠ [] ∧
          ∀ c ∈ children, ∀ r n, s.HasPid c.pid r n → n.state ≠ .zombie)
  | .note (.finishZombie caller pid found), t =>
      t = s ∧ caller = s.currentPid ∧
        ∃ r p, found = some (r, p) ∧ s.HasPid pid r p ∧
          p.fatherPid = s.currentPid ∧
          (p.state = .zombie ∨
            ∃ retvalp, s.mode = .kernel (.waitpid pid retvalp))
  | .note (.store addr _), _ => a.MayStore s addr
  | .create pid prio _ _, t | .createElect pid prio _ _, t =>
      t = s ∧ pid = getFreePid s ∧
        ∃ name ssize, a = .call (.start name ssize prio) ∧
          ssize ≤ 0x10000000 ∧ prio ≤ maxPrio
  | .endProcess pid r _ how _, t | .endFatherless pid r _ how, t =>
      t = s ∧ how.By s a pid r
  | .clearSkip r _, t => t = s ∧ s.mode = .kernel (.start r)
  | .flush _ _ q, _ =>
      ∃ fid, queueOf s fid = some q ∧
        (a = .call (.pdelete fid) ∨ a = .call (.preset fid))
  | .deleteQueue fid q, _ =>
      queueOf s fid = some q ∧ a = .call (.pdelete fid)
  | .resetQueue q _, _ =>
      ∃ fid, queueOf s fid = some q ∧ a = .call (.preset fid)
  | .refill q _ _ _, t =>
      (∃ trace, t = { s with trace := trace }) ∧
        ∃ fid message, queueOf s fid = some q ∧
          a = .call (.preceive fid message)
  | .handOver q _ message _ _ _ _, t =>
      t = s ∧ ∃ fid, queueOf s fid = some q ∧ a = .call (.psend fid message)
  | .postWake x _ _ _ true, t =>
      t = s ∧ ∃ sem, semOf s sem = some x ∧ a = .call (.signal sem)
  | .postWake x content _ _ false, _ =>
      content.wasReset = false ∧
        ∃ sem count, semOf s sem = some x ∧ a = .call (.signaln sem count)
  | .clearReset x content, t =>
      t = s ∧ ∃ sem count, semOf s sem = some x ∧
        a = .call (.signaln sem count) ∧ 0 ≤ short count ∧
        content.count + short count ≤ semaphoreMaxSize
  | .resetSem x _ count, t =>
      t = s ∧ ∃ sem value, semOf s sem = some x ∧
        a = .call (.sreset sem value) ∧ count = short value
  | .deleteSem sem _, t => t = s ∧ a = .call (.sdelete sem)
  | _, _ => True

theorem Move.By.plain (s : KState) (a : Action) : Allows (Move.By s a) s := by
  intro m t plain shifts
  cases m with
  | settle | refuse | receive => exact shifts trivial
  | dispatch k r p old restored =>
      refine ⟨shifts trivial, ?_⟩
      rintro pid retvalp rfl
      exact absurd plain id
  | tick | awaitChild | sleep | awaitSend | awaitReceive | awaitSem | put | take
  | orphan | reap => exact absurd plain id
  | note e => cases e <;> trivial
  | postWake x content r p clear => exact absurd plain id
  | _ => trivial

/-- The entries that keep the running process on top although they do not call
`__scheduler`: hand-overs to a receiver that is not below the sender, and kills
that wake up no father above the killer. -/
def Action.Calm (s : KState) : Action → Prop
  | .call (.psend fid _) =>
      ∀ q content r p, queueOf s fid = some q → s.queues q = some content →
        content.nbMsg = 0 → s.NextOut (.queue q) r p →
          s.prio s.running ≤ s.prio r
  | .call (.kill pid) =>
      ∀ r p, s.HasPid pid r p → r ≠ s.running → ∀ f father,
        s.procs f = some father → father.link = some .waitingPid →
          father.pid = p.fatherPid → s.prio f ≤ s.prio s.running
  | _ => True

/-- What some entries achieve beyond the moves they take. -/
def Action.Result (s t : KState) : Action → Prop
  | .call (.waitpid pid retvalp) =>
      t.mode = .user → t.eax ≠ -1 → Reaped s pid retvalp t
  | .call (.pdelete fid) | .call (.preset fid) =>
      ∀ q, queueOf s fid = some q → t.lists (.queue q) = []
  | .call (.exit _) | .call (.kill _) => KeepsKin s t
  | .call (.waitClock wakeup) => ∃ p, s.OnCpu p ∧
      Moves (fun m _ => m.Serves) ((Move.sleep p wakeup).effect s) t
  | .resume =>
      (∀ pid retvalp, s.mode = .kernel (.waitpid pid retvalp) →
        Reaped s pid retvalp t) ∧
      (s.mode = .pageFault → KeepsKin s t)
  | _ => True

/-- How a kernel entry that completes ends. -/
structure Completes (s : KState) (a : Action) (t : KState) : Prop where
  ends : Ends (Move.By s a) (a.Calm s) s t
  recovered : s.mode = .pageFault → t.Top
  result : a.Result s t

section Entries

variable {s : KState} {p : Process}

/-- A rule for one entry whose result says nothing more. -/
theorem completes_of_ends {a : Action} {code : KM Unit}
    (rule : wp code (fun _ => Ends (Move.By s a) (a.Calm s) s)
      (Stops (Move.By s a) s) s) (inside : s.mode ≠ .pageFault)
    (result : ∀ t, a.Result s t) :
    wp code (fun _ => Completes s a) (Stops (Move.By s a) s) s :=
  wp_mono rule
    (fun _ t ends => ⟨ends, fun fault => absurd fault inside, result t⟩)
    (fun _ _ stops => stops)

theorem wp_clockSettings {allowed : Move → KState → Prop} {calm : Prop}
    (plain : Allows allowed s) (onCpu : s.OnCpu p)
    (user : s.mode = .user) (quartz ticks : UserPtr)
    (mayStore : ∀ t addr value, quartz.faults = false →
      addr = quartz.addr ∨ addr = ticks.addr ∧ ticks.faults = false →
        allowed (.note (.store addr value)) t)
    (mayFault : ∀ t, t.mode = s.mode → allowed .fault t) :
    wp (clockSettings quartz ticks) (fun _ => Ends allowed calm s)
      (Stops allowed s) s := by
  have heard (t : KState) (mode : t.mode = s.mode) : ¬ t.Skipping := by
    rintro ⟨k, n, inKernel, -⟩
    simp [mode, user] at inKernel
  have begun : Underway allowed calm s s := .refl onCpu
  rw [clockSettings, wp_bind, wp_storeUser]
  split
  · exact Moves.stops (.refl s) (mayFault s rfl) (heard s rfl) onCpu
  rename_i present
  rw [Bool.not_eq_true] at present
  have stored := begun.move (.note (.store quartz.addr quartzFrequency))
    (mayStore _ _ _ present (.inl rfl)) trivial ⟨p, onCpu⟩ rfl rfl
    (fun top => top)
  rw [wp_bind, wp_storeUser]
  split
  · exact Moves.stops stored.path (mayFault _ rfl) (heard _ rfl) onCpu
  · rename_i presentToo
    rw [Bool.not_eq_true] at presentToo
    exact (stored.move (.note (.store ticks.addr clockTicks))
      (mayStore _ _ _ present (.inr ⟨rfl, presentToo⟩)) trivial ⟨p, onCpu⟩ rfl rfl
      (fun top => top)).ret plain user 0

theorem short_le (value : Int) : short value ≤ semaphoreMaxSize := by
  have bound := short_high value
  unfold semaphoreMaxSize
  omega

/-- Every system call. -/
theorem wp_syscall (sound : Sound s) (onCpu : s.OnCpu p)
    (user : s.mode = .user) (c : Syscall) :
    wp (syscall c) (fun _ => Completes s (.call c))
      (Stops (Move.By s (.call c)) s) s := by
  have plain := Move.By.plain s (.call c)
  have inside : s.mode ≠ .pageFault := by simp [user]
  have isPrio : s.prio s.running = p.priority := KState.prio_eq onCpu.1
  have returns (value : Int) :
      Ends (Move.By s (.call c)) ((Action.call c).Calm s) s
        { s with mode := .user, eax := value } :=
    ends_ret plain onCpu user value
  cases c with
  | start name ssize prio =>
      refine completes_of_ends ?_ inside (fun _ => trivial)
      exact wp_start sound plain onCpu user name ssize prio
        (fun _ size inRange => ⟨rfl, rfl, name, ssize, rfl, size, inRange⟩)
        (fun _ size inRange => ⟨rfl, rfl, name, ssize, rfl, size, inRange⟩)
  | getpid =>
      exact completes_of_ends (returns s.currentPid) inside (fun _ => trivial)
  | getprio pid =>
      exact completes_of_ends (wp_getprio sound plain onCpu user pid) inside
        (fun _ => trivial)
  | chprio pid newprio =>
      exact completes_of_ends (wp_chprio sound plain onCpu user pid newprio)
        inside (fun _ => trivial)
  | kill pid =>
      refine wp_mono (wp_kill sound plain onCpu user pid
        (fun _ _ _ notIdle => ⟨rfl, rfl, notIdle⟩)
        (fun _ _ notIdle => ⟨rfl, rfl, notIdle⟩)
        (fun _ _ _ isSon => .inr (isSon ▸ rfl)) (fun calm => calm))
        (fun _ _ done => ⟨done.1, fun fault => absurd fault inside, done.2⟩)
        (fun _ _ stops => stops)
  | waitpid pid retvalp =>
      refine wp_mono (wp_waitpid sound plain onCpu user pid retvalp ?_ ?_ ?_
        ?_ ?_ ?_)
        (fun _ _ done => ⟨done.1, fun fault => absurd fault inside, done.2⟩)
        (fun _ _ stops => stops)
      · intro child r n _ has isSon zombie
        exact ⟨rfl, rfl, r, n, rfl, has, isSon, .inl zombie⟩
      · intro child r n c l trace isAsked zombie
        exact ⟨⟨trace, rfl⟩, ⟨pid, retvalp, .inl rfl, isAsked⟩, .inl zombie⟩
      · exact fun checked => ⟨rfl, pid, retvalp, rfl, checked⟩
      · intro u r n old restored mode
        refine ⟨mode, fun pid' retvalp' same => ?_⟩
        rw [Context.waitpid.injEq] at same
        rw [same.1, same.2]
      · exact fun _ _ inUser => ⟨rfl, inUser⟩
      · exact fun _ mode => ⟨mode, trivial⟩
  | exit retval =>
      refine wp_mono (wp_exit sound plain onCpu (by simp [user]) retval ?_ ?_
        ?_)
        (fun _ _ done => ⟨done.1, fun _ => done.2.1, done.2.2⟩)
        (fun _ _ stops => stops)
      · exact fun _ _ _ => ⟨rfl, rfl, .inl rfl⟩
      · exact fun _ _ => ⟨rfl, rfl, .inl rfl⟩
      · exact fun _ _ _ isSon => .inl ⟨isSon, .inl ⟨retval, rfl⟩⟩
  | scount sem =>
      exact completes_of_ends (wp_scount sound plain onCpu user sem) inside
        (fun _ => trivial)
  | screate count =>
      exact completes_of_ends (wp_screate plain onCpu user (short_le count))
        inside (fun _ => trivial)
  | sdelete sem =>
      refine completes_of_ends ?_ inside (fun _ => trivial)
      exact wp_sdelete sound plain onCpu user sem (fun _ _ => ⟨rfl, rfl⟩)
        (fun _ mode => ⟨mode, trivial⟩)
  | signal sem =>
      refine completes_of_ends ?_ inside (fun _ => trivial)
      exact wp_signal sound plain onCpu user sem
        (fun _ _ _ _ designates => ⟨rfl, sem, designates, rfl⟩)
  | signaln sem count =>
      refine completes_of_ends ?_ inside (fun _ => trivial)
      exact wp_signaln sound plain onCpu user sem (short count)
        (fun _ _ designates nonneg room _ =>
          ⟨rfl, sem, count, designates, rfl, nonneg, room⟩)
        (fun _ _ _ _ _ designates clear =>
          ⟨clear, sem, count, designates, rfl⟩)
  | sreset sem count =>
      refine completes_of_ends ?_ inside (fun _ => trivial)
      exact wp_sreset sound plain onCpu user sem (short_le count)
        (fun _ _ designates _ => ⟨rfl, sem, count, designates, rfl, rfl⟩)
  | tryWait sem =>
      exact completes_of_ends (wp_tryWait sound plain onCpu user sem) inside
        (fun _ => trivial)
  | wait sem =>
      refine completes_of_ends ?_ inside (fun _ => trivial)
      exact wp_wait sound plain onCpu user sem
        (fun _ _ designates => ⟨rfl, designates, rfl⟩)
  | pcount fid count =>
      refine completes_of_ends ?_ inside (fun _ => trivial)
      exact wp_pcount sound plain onCpu user fid count
        (fun q _ designates notNull present =>
          ⟨rfl, by simp [designates], notNull, present⟩)
        (fun _ mode => ⟨mode, trivial⟩)
  | pcreate count =>
      exact completes_of_ends (wp_pcreate plain onCpu user count) inside
        (fun _ => trivial)
  | pdelete fid =>
      refine wp_mono (wp_pdelete sound plain onCpu user fid ?_ ?_)
        (fun _ _ done => ⟨done.1, fun fault => absurd fault inside, done.2⟩)
        (fun _ _ stops => stops)
      · exact fun _ designates _ _ _ => ⟨fid, designates, .inl rfl⟩
      · exact fun _ designates _ => ⟨designates, rfl⟩
  | preceive fid message =>
      refine completes_of_ends ?_ inside (fun _ => trivial)
      exact wp_preceive sound plain onCpu user fid message
        (fun q content _ designates record stored notNull present =>
          ⟨rfl, ⟨q, content, designates, record, stored⟩, notNull, present⟩)
        (fun _ mode => ⟨mode, trivial⟩)
        (fun _ _ _ _ trace designates =>
          ⟨⟨trace, rfl⟩, fid, message, designates, rfl⟩)
        (fun _ _ trace designates =>
          ⟨⟨trace, rfl⟩, fid, message, designates, rfl⟩)
        (fun _ designates => ⟨rfl, designates, message, rfl⟩)
  | preset fid =>
      refine wp_mono (wp_preset sound plain onCpu user fid ?_ ?_)
        (fun _ _ done => ⟨done.1, fun fault => absurd fault inside, done.2⟩)
        (fun _ _ stops => stops)
      · exact fun _ designates _ _ _ => ⟨fid, designates, .inr rfl⟩
      · exact fun _ designates _ _ => ⟨fid, designates, rfl⟩
  | psend fid message =>
      refine completes_of_ends ?_ inside (fun _ => trivial)
      refine wp_psend sound plain onCpu user fid message
        (fun _ _ _ _ _ designates => ⟨rfl, fid, designates, rfl⟩)
        (fun _ designates => ⟨rfl, designates, rfl⟩)
        (fun _ _ designates => ⟨rfl, fid, designates, rfl⟩) ?_
      intro calm q content r n designates record empty next
      have notBelow := calm q content r n designates record empty next
      rwa [isPrio, KState.prio_eq next.2] at notBelow
  | clockSettings quartz ticks =>
      refine completes_of_ends ?_ inside (fun _ => trivial)
      exact wp_clockSettings plain onCpu user quartz ticks
        (fun _ _ _ present isArgument => ⟨present, isArgument⟩)
        (fun _ mode => ⟨mode, trivial⟩)
  | currentClock =>
      exact completes_of_ends (returns s.timeCount) inside (fun _ => trivial)
  | waitClock wakeup =>
      exact wp_mono (wp_waitClock sound plain onCpu user wakeup ⟨rfl, rfl⟩)
        (fun _ _ done => ⟨done.1, fun fault => absurd fault inside, p, onCpu,
          done.2⟩)
        (fun _ _ stops => stops)
  | other result =>
      exact completes_of_ends (returns result) inside (fun _ => trivial)
  | unknown =>
      intro text
      simp at text

/-- Only `psend` and `preceive` can find that their queue was emptied. -/
theorem not_skipping_of_mode (sound : Sound s) (onCpu : s.OnCpu p)
    {k : Context} (mode : s.mode = .kernel k)
    (other : ∀ r q, k ≠ .psend r q ∧ ∀ message, k ≠ .preceive r q message) :
    ¬ s.Skipping := by
  rintro ⟨-, n, -, record, isSet⟩
  rw [onCpu.1, Option.some.injEq] at record
  subst record
  have stack := sound.context.loaded k p mode onCpu.1
  obtain ⟨⟨q, isStack | ⟨message, isStack⟩⟩, -⟩ :=
    sound.skip s.running p onCpu.1 (by simp [Process.Living, onCpu.2]) isSet
  · exact (other s.running q).1 (stack.symm.trans isStack)
  · exact (other s.running q).2 message (stack.symm.trans isStack)

/-- The rest of `start`, when the father gets the processor back. -/
theorem wp_startTail {allowed : Move → KState → Prop} {calm : Prop}
    (plain : Allows allowed s) (onCpu : s.OnCpu p)
    (heard : ¬ s.Skipping) {r : ProcRef} (mode : s.mode = .kernel (.start r))
    (mayClear : ∀ n, allowed (.clearSkip r n) s) :
    wp (startTail r) (fun _ => Ends allowed calm s) (Stops allowed s) s := by
  have begun : Underway allowed calm s s := .refl onCpu
  rw [startTail, wp_bind, modifyProc, wp_bind]
  refine wp_derefProc_of trivial ?_
  intro n record
  have assigned : (s.setProc r { n with skipMessage := false }).procs r =
      some { n with skipMessage := false } := by
    simp
  have onCpu' : ∃ c, (s.setProc r { n with skipMessage := false }).OnCpu c ∧
      (c.skipMessage = true → p.skipMessage = true) := by
    by_cases isRunning : s.running = r
    · subst isRunning
      have same := record.symm.trans onCpu.1
      rw [Option.some.injEq] at same
      subst same
      exact ⟨_, ⟨assigned, onCpu.2⟩, by simp⟩
    · exact ⟨p, ⟨by simp [isRunning, onCpu.1], onCpu.2⟩, id⟩
  obtain ⟨c, isOnCpu, cleared⟩ := onCpu'
  have here := begun.move (.clearSkip r n) (mayClear n) record ⟨c, isOnCpu⟩
    rfl rfl (fun top => top.setProc record rfl)
  rw [wp_modify, wp_bind, wp_derefProc assigned, wp_ret]
  refine ends_resume plain here (by simp [Move.effect, mode, Mode.Receiving])
    ?_ n.pid
  rintro ⟨k, content, inKernel, found, isSet⟩
  have same := isOnCpu.1.symm.trans found
  rw [Option.some.injEq] at same
  subst same
  exact heard ⟨.start r, p, mode, onCpu.1, cleared isSet⟩

/-- Every context that a process can go on with. -/
theorem wp_resume (sound : Sound s) (onCpu : s.OnCpu p) {k : Context}
    (mode : s.mode = .kernel k) :
    wp (resume k) (fun _ => Completes s .resume)
      (Stops (Move.By s .resume) s) s := by
  have plain := Move.By.plain s .resume
  have inside : s.mode ≠ .pageFault := by simp [mode]
  have begun : Underway (Move.By s .resume) (Action.resume.Calm s) s s :=
    .refl onCpu
  have owner := sound.owner_running mode
  have heard := not_skipping_of_mode sound onCpu mode
  have noResult (other : ∀ pid retvalp, k ≠ .waitpid pid retvalp)
      (t : KState) : Action.resume.Result s t := by
    refine ⟨?_, fun fault => absurd fault inside⟩
    intro pid retvalp isWaiting
    rw [mode, Mode.kernel.injEq] at isWaiting
    exact absurd isWaiting (other pid retvalp)
  cases k with
  | fresh =>
      exact completes_of_ends (ends_resume plain begun
        (by simp [mode, Mode.Receiving]) (heard (by simp)) s.eax) inside
        (noResult (by simp))
  | interrupted =>
      exact completes_of_ends (ends_resume plain begun
        (by simp [mode, Mode.Receiving]) (heard (by simp)) s.eax) inside
        (noResult (by simp))
  | returning value =>
      exact completes_of_ends (ends_resume plain begun
        (by simp [mode, Mode.Receiving]) (heard (by simp)) value) inside
        (noResult (by simp))
  | handedOver =>
      exact completes_of_ends (ends_resume plain begun
        (by simp [mode, Mode.Receiving]) (heard (by simp)) 0) inside
        (noResult (by simp))
  | exiting => trivial
  | start r =>
      refine completes_of_ends ?_ inside (noResult (by simp))
      exact wp_startTail plain onCpu (heard (by simp)) mode
        (fun _ => ⟨rfl, mode⟩)
  | waitpid pid retvalp =>
      have tail : wp (waitpidTail pid retvalp)
          (fun _ t => Ends (Move.By s .resume) (Action.resume.Calm s) s t ∧
            Reaped s pid retvalp t) (Stops (Move.By s .resume) s) s := by
        refine wp_waitpidTail sound (heard (by simp)) onCpu mode ?_ ?_ ?_ ?_
        · intro child r n isAsked has isSon
          refine ⟨rfl, rfl, r, n, rfl, has, isSon, ?_⟩
          rcases isAsked with ⟨-, zombie⟩ | isPid
          · exact .inl zombie
          · exact .inr ⟨retvalp, isPid ▸ mode⟩
        · intro child r n c l trace isAsked
          refine ⟨⟨trace, rfl⟩, ⟨pid, retvalp, .inr ⟨rfl, mode⟩, ?_⟩, ?_⟩
          · exact isAsked.imp_left And.left
          · rcases isAsked with ⟨-, zombie⟩ | isPid
            · exact .inl zombie
            · exact .inr ⟨retvalp, isPid ▸ mode⟩
        · exact fun _ _ inUser => .inl ⟨pid, retvalp, mode, rfl, inUser⟩
        · exact fun _ sameMode => ⟨sameMode, .inl ⟨pid, retvalp, mode⟩⟩
      refine wp_mono tail ?_ (fun _ _ stops => stops)
      rintro _ t ⟨ends, reaped⟩
      refine ⟨ends, fun fault => absurd fault inside, ?_,
        fun fault => absurd fault inside⟩
      intro pid' retvalp' mode'
      rw [mode, Mode.kernel.injEq, Context.waitpid.injEq] at mode'
      rw [← mode'.1, ← mode'.2]
      exact reaped
  | psend r q =>
      have isOwner : r = s.running := owner
      subst isOwner
      exact completes_of_ends (wp_psendTail plain onCpu mode) inside
        (noResult (by simp))
  | preceive r q message =>
      have isOwner : r = s.running := owner
      subst isOwner
      refine completes_of_ends (wp_preceiveTail plain onCpu mode ?_ ?_) inside
        (noResult (by simp))
      · exact fun _ clear notNull present =>
          .inr ⟨q, message, p, mode, onCpu.1, clear, rfl, notNull, present⟩
      · exact fun notNull faults =>
          ⟨rfl, .inr ⟨s.running, q, message, mode, notNull, faults⟩⟩
  | wait x =>
      refine completes_of_ends ?_ inside (noResult (by simp))
      exact wp_mono (wp_waitTail sound plain onCpu mode (heard (by simp)))
        (fun _ _ done => done.1) (fun _ _ stops => stops)

/-- Every kernel entry. -/
theorem wp_kernelEntry (sound : Sound s) (onCpu : s.OnCpu p) {a : Action}
    {code : KM Unit} (isEntry : kernelEntry s.mode a = some code) :
    wp code (fun _ => Completes s a) (Stops (Move.By s a) s) s := by
  cases mode : s.mode with
  | user =>
      rw [mode] at isEntry
      cases a with
      | call c =>
          cases isEntry
          exact wp_syscall sound onCpu mode c
      | tick =>
          cases isEntry
          exact completes_of_ends
            (wp_ticPIT sound (.plain s .tick) onCpu mode ⟨rfl, rfl⟩)
            (by simp [mode]) (fun _ => trivial)
      | resume => cases isEntry
  | kernel k =>
      rw [mode] at isEntry
      cases a with
      | resume =>
          cases isEntry
          exact wp_resume sound onCpu mode
      | call c => cases isEntry
      | tick => cases isEntry
  | pageFault =>
      rw [mode] at isEntry
      cases a with
      | resume =>
          cases isEntry
          have exits : wp (exit 0)
              (fun _ t => Ends (Move.By s .resume) (Action.resume.Calm s) s t ∧
                t.Top ∧ KeepsKin s t)
              (Stops (Move.By s .resume) s) s :=
            wp_exit sound (.plain s .resume) onCpu (by simp [mode]) 0
              (fun _ _ _ => ⟨rfl, rfl, .inr ⟨mode, rfl⟩⟩)
              (fun _ _ => ⟨rfl, rfl, .inr ⟨mode, rfl⟩⟩)
              (fun _ _ _ isSon => .inl ⟨isSon, .inr mode⟩)
          refine wp_mono exits ?_ (fun _ _ stops => stops)
          rintro _ t ⟨ends, top, keeps⟩
          refine ⟨ends, fun _ => top, ?_, fun _ => keeps⟩
          intro pid retvalp isWaiting
          simp [mode] at isWaiting
      | call c => cases isEntry
      | tick => cases isEntry

/-! ## Steps -/

/-- What a step of a run achieves. -/
structure Stepped (s : KState) (a : Action) (t : KState) : Prop where
  path : Moves (Move.By s a) s t
  onCpu : ∃ p, t.OnCpu p
  top : t.mode ≠ .pageFault →
    (switches s.trace < switches t.trace ∨ s.mode = .pageFault ∨
      a.Calm s ∧ s.Top) → t.Top
  result : t.mode ≠ .pageFault ∨ ¬ a.MayFault s → a.Result s t

theorem step_next (sound : Sound s) (onCpu : s.OnCpu p) {a : Action}
    {t : KState} (next : step a s = .next t) : Stepped s a t := by
  unfold step at next
  cases isEntry : kernelEntry s.mode a with
  | none =>
      rw [isEntry] at next
      cases next
  | some code =>
      have rule := wp_kernelEntry sound onCpu isEntry
      rw [isEntry] at next
      simp only [] at next
      cases outcome : code s with
      | ok value u =>
          rw [outcome] at next
          cases next
          have done := wp_ok rule outcome
          refine ⟨done.ends.path, done.ends.onCpu, ?_, fun _ => done.result⟩
          rintro - (ran | faulted | ⟨calm, top⟩)
          · exact done.ends.ran ran
          · exact done.recovered faulted
          · exact done.ends.top calm top
      | error failure u =>
          have stops := wp_error rule outcome
          rw [outcome] at next
          cases failure with
          | page =>
              cases next
              obtain ⟨path, ⟨v, -, mayFault⟩, onCpu'⟩ := stops
              refine ⟨path, onCpu', fun inside => absurd rfl inside, ?_⟩
              rintro (inside | cannot)
              · exact absurd rfl inside
              · exact absurd mayFault cannot
          | panic | assertion | useAfterFree | lostContext | noActivable
          | nullHead | endlessLoop => cases next

/-- How a run stops. -/
theorem step_stopped (sound : Sound s) (onCpu : s.OnCpu p) {a : Action}
    {failure : Fault} {t : KState} (stopped : step a s = .stopped failure t) :
    Stops (Move.By s a) s failure t := by
  unfold step at stopped
  cases isEntry : kernelEntry s.mode a with
  | none =>
      rw [isEntry] at stopped
      cases stopped
  | some code =>
      have rule := wp_kernelEntry sound onCpu isEntry
      rw [isEntry] at stopped
      simp only [] at stopped
      cases outcome : code s with
      | ok value u =>
          rw [outcome] at stopped
          cases stopped
      | error reason u =>
          have stops := wp_error rule outcome
          rw [outcome] at stopped
          cases reason with
          | page => cases stopped
          | panic | assertion | useAfterFree | lostContext | noActivable
          | nullHead | endlessLoop =>
              cases stopped
              exact stops

end Entries

end Nebulea
