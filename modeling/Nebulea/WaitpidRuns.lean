import Nebulea.KernelBirths
import Nebulea.KernelSwitches

/-!
# `waitpid` in every run

`__awake_father` wakes up a father whatever child it waits for, and notes which
child has ended.  A father that waits for one given child and is woken up by
another would reap a process that still runs.  Without such wake-ups `waitpid`
reaps zombies only, and stores the value they ended with.
-/

namespace Nebulea

/-- The action ends the process `r`. -/
def Action.EndsProcess (s : KState) (a : Action) (r : ProcRef) (p : Process) :
    Prop :=
  s.procs r = some p ∧
    (r = s.running ∧ ((∃ retval, a = .call (.exit retval)) ∨
        s.mode = .pageFault) ∨
      ∃ pid, a = .call (.kill pid) ∧ pid ≠ 0 ∧ s.processTable pid = some r ∧
        p.state ≠ .zombie)

/-- No process ends while its father waits for another given process. -/
def Action.Answers (s : KState) (a : Action) : Prop :=
  ∀ r p, a.EndsProcess s r p → ∀ f father pid retvalp,
    s.procs f = some father → father.state = .waitingPid →
      father.pid = p.fatherPid → father.stack = .waitpid pid retvalp →
        0 ≤ pid → pid = p.pid

theorem Coherent.answers_of_nil {s : KState} (ok : Coherent s)
    (empty : s.lists .waitingPid = []) (a : Action) : a.Answers s := by
  intro r p _ f father pid retvalp record waiting
  have link : father.link = some .waitingPid := by
    simpa [KState.LinkOk, waiting] using ok.procs.linked f father record
  have member := ok.lists.mem_of_link record link
  simp [empty] at member

/-- A father that is woken up was told about the child it waits for. -/
def Answered (s : KState) : Prop :=
  ∀ r p pid retvalp, s.procs r = some p → p.Living →
    s.Inside r p (.waitpid pid retvalp) → p.state ≠ .waitingPid → 0 ≤ pid →
      p.waitedPid = pid

namespace Answered

variable {s t : KState} (answered : Answered s)

include answered

/-- Each father that is not waiting any more has been woken up before. -/
theorem keep (records : ∀ x n pid retvalp, t.procs x = some n → n.Living →
      t.Inside x n (.waitpid pid retvalp) → n.state ≠ .waitingPid → 0 ≤ pid →
        n.waitedPid = pid ∨ ∃ p, s.procs x = some p ∧ p.Living ∧
          s.Inside x p (.waitpid pid retvalp) ∧ p.state ≠ .waitingPid ∧
          n.waitedPid = p.waitedPid) : Answered t := by
  intro x n pid retvalp found living inside notWaiting given
  rcases records x n pid retvalp found living inside notWaiting given with
    done | ⟨p, record, before, inside', notWaiting', same⟩
  · exact done
  · rw [same]
    exact answered x p pid retvalp record before inside' notWaiting' given

theorem unswitched (same : Unswitched s t)
    (family : ∀ x p n, s.procs x = some p → t.procs x = some n → n.Living →
      (∀ pid retvalp, p.stack = .waitpid pid retvalp → 0 ≤ pid →
          n.waitedPid = pid) ∨
        n.waitedPid = p.waitedPid ∧
          (p.state = .waitingPid → n.state = .waitingPid)) : Answered t := by
  refine answered.keep ?_
  rintro x n pid retvalp found living ⟨stack, mode⟩ notWaiting given
  obtain ⟨p, record, context⟩ := same.procs x n found
  rw [context.stack] at stack
  rcases family x p n record found living with told | ⟨sameWaited, waiting⟩
  · exact .inl (told pid retvalp stack given)
  · refine .inr ⟨p, record, context.living living, ⟨stack, ?_⟩,
      mt waiting notWaiting, sameWaited⟩
    intro isRunning
    have inKernel := mode (isRunning.trans same.running.symm)
    rcases same.mode with sameMode | leaves
    · exact sameMode ▸ inKernel
    · exact absurd inKernel (leaves _)

theorem dispatch (ok : Coherent s) {k restored : Context} {r old : ProcRef}
    {p : Process} (applies : (Move.dispatch k r p old restored).Guard s) :
    Answered ((Move.dispatch k r p old restored).effect s) := by
  obtain ⟨-, next, -, -, -, ⟨content, record, left, fits⟩, -⟩ := applies
  have state := ok.activable_of_nextOut next
  refine answered.keep ?_
  rintro x n pid retvalp found living ⟨stack, -⟩ notWaiting -
  right
  -- the process that leaves is in `waitpid` only if it starts waiting
  have notRunning : x ≠ s.running := by
    rintro rfl
    rw [Move.dispatch_procs] at found
    split at found
    · rename_i isNew
      cases found
      rw [← isNew, if_pos rfl] at stack
      subst stack
      have same : content = p :=
        Option.some.inj (record.symm.trans (isNew ▸ next.2))
      have waiting := fits.1
      simp [same, state] at waiting
    · rw [record, Option.map_some, Option.some.injEq] at found
      subst found
      simp only [if_true] at stack
      subst stack
      exact notWaiting fits.1
  rw [Move.dispatch_procs] at found
  split at found
  · rename_i isNew
    cases found
    rw [if_neg (isNew ▸ notRunning)] at stack
    exact ⟨p, isNew ▸ next.2, by simp [Process.Living, state],
      ⟨stack, fun same => absurd same notRunning⟩, by simp [state], rfl⟩
  · obtain ⟨before, present, rfl⟩ := Option.map_eq_some_iff.mp found
    exact ⟨before, present, living,
      ⟨stack, fun same => absurd same notRunning⟩, notWaiting, rfl⟩

/-- The running process and one more record change, and neither of them is in
`waitpid`. -/
theorem replace {a : ProcRef} {m n : Process}
    (procs : ∀ x, t.procs x = if x = a then some m
      else if x = s.running then some n else s.procs x)
    (first : ∀ pid retvalp, ¬ t.Inside a m (.waitpid pid retvalp))
    (second : ∀ pid retvalp, ¬ t.Inside s.running n (.waitpid pid retvalp)) :
    Answered t := by
  refine answered.keep ?_
  intro x c pid retvalp found living inside notWaiting _
  right
  rw [procs] at found
  split at found
  · rename_i isA
    cases found
    exact absurd (isA ▸ inside) (first pid retvalp)
  · split at found
    · rename_i isRunning
      cases found
      exact absurd (isRunning ▸ inside) (second pid retvalp)
    · rename_i notRunning
      exact ⟨c, found, living, ⟨inside.1, fun same => absurd same notRunning⟩,
        notWaiting, rfl⟩

end Answered

/-- A father woken up by the end of `r` waits for `r` or for any child. -/
theorem Sound.told {s : KState} {a : Action} (sound : Sound s)
    (answers : a.Answers s) {pid : Int} {r : ProcRef} {p : Process}
    {how : Ending} {father : Option (ProcRef × Process)}
    (applies : (Move.endProcess pid r p how father).Guard s)
    (isEnd : how.By s a pid r) {f : ProcRef} {content : Process}
    (isFather : father = some (f, content)) {pid' : Int} {retvalp : UserPtr}
    (stack : content.stack = .waitpid pid' retvalp) (given : 0 ≤ pid') :
    pid = pid' := by
  have ok := sound.coherent
  obtain ⟨has, living, -, -, woken⟩ := applies
  subst isFather
  obtain ⟨-, record, link, samePid⟩ := woken
  have state : content.state = .waitingPid :=
    (ok.procs.linked f content record).state_of_link link
  have ends : a.EndsProcess s r p := by
    refine ⟨has.2, ?_⟩
    cases how with
    | exit retval =>
        obtain ⟨isRunning, isExit | ⟨faulted, -⟩⟩ := isEnd
        · exact .inl ⟨isRunning, .inl ⟨retval, isExit⟩⟩
        · exact .inl ⟨isRunning, .inr faulted⟩
    | kill => exact .inr ⟨pid, isEnd.1, isEnd.2, has.1, living.1⟩
  rw [answers r p ends f content pid' retvalp record state samePid stack given]
  exact (ok.active_of_hasPid has).1.symm

theorem Sound.answered_move {s t : KState} {a : Action} {m : Move}
    (sound : Sound t) (permitted : m.By s a t) (applies : m.Guard t)
    (answers : a.Answers s) (answered : Answered t) :
    Answered (m.effect t) := by
  have ok := sound.coherent
  have still (stays : ¬ m.Switches) :=
    answered.unswitched (m.unswitched stays ok applies)
  have steady (isSteady : m.IsSteady) (stays : ¬ m.Switches) :
      Answered (m.effect t) := by
    refine still stays ?_
    intro x p n record found _
    have kin := (m.steady isSteady ok applies).family x p n record found
    exact .inr ⟨kin.waitedPid, kin.waiting⟩
  cases m with
  | dispatch k r p old restored => exact answered.dispatch ok applies
  | create pid prio p children =>
      obtain ⟨user, onCpu, -⟩ := applies
      refine answered.replace
        (Move.create_procs (ok.lt_nextRef onCpu.1).ne) ?_ ?_
      · rintro pid' retvalp ⟨stack, -⟩
        cases stack
      · rintro pid' retvalp ⟨-, mode⟩
        have inKernel := mode rfl
        simp [Move.effect, user] at inKernel
  | createElect pid prio p children =>
      obtain ⟨-, onCpu, -⟩ := applies
      refine answered.replace
        (Move.createElect_procs (ok.lt_nextRef onCpu.1).ne) ?_ ?_
      · rintro pid' retvalp ⟨stack, -⟩
        cases stack
      · rintro pid' retvalp ⟨stack, -⟩
        cases stack
  | handOver q content message sender r p restored =>
      obtain ⟨-, -, -, next, onCpu, -⟩ := applies
      have distinct := ok.running_ne_of_nextOut next onCpu
      have link := ok.link_of_nextOut next
      have state := ok.inMsgqueue_of_nextOut next
      refine answered.replace (Move.handOver_procs distinct) ?_ ?_
      · rintro pid' retvalp ⟨stack, -⟩
        have blocked := (sound.context.blocked r p next.2
          (by simp [Process.Living, state]) distinct.symm).queue q link
        simp [show p.stack = .waitpid pid' retvalp from stack] at blocked
      · rintro pid' retvalp ⟨stack, -⟩
        cases stack
  | endProcess pid r p how father =>
      obtain ⟨rfl, isEnd⟩ := permitted
      have told {f : ProcRef} {content : Process}
          (isFather : father = some (f, content)) {pid' : Int}
          {retvalp : UserPtr} (stack : content.stack = .waitpid pid' retvalp)
          (given : 0 ≤ pid') : pid = pid' :=
        sound.told answers applies isEnd isFather stack given
      refine still id ?_
      intro x q n record found living
      obtain ⟨has, -, -, -, woken⟩ := applies
      cases father with
      | none =>
          by_cases isR : x = r
          · simp [Move.effect, isR] at found
            simp [← found, Process.Living] at living
          · have same : q = n := by simpa [Move.effect, isR, record] using found
            exact .inr ⟨same ▸ rfl, same ▸ id⟩
      | some father =>
          obtain ⟨f, content⟩ := father
          obtain ⟨distinct, isFather, -⟩ := woken
          rw [Move.endProcess_procs distinct] at found
          split at found
          · rename_i isF
            cases found
            rw [isF, isFather, Option.some.injEq] at record
            subst record
            exact .inl fun pid' retvalp stack given => told rfl stack given
          · split at found
            · cases found
              exact absurd rfl living.1
            · rw [record, Option.some.injEq] at found
              exact .inr ⟨found ▸ rfl, found ▸ id⟩
  | endFatherless pid r p how | finish pid r p =>
      refine still id ?_
      intro x q n record found living
      by_cases isR : x = r
      · simp [Move.effect, isR] at found
        simp [← found, Process.Living] at living
      · have same : q = n := by simpa [Move.effect, isR, record] using found
        exact .inr ⟨same ▸ rfl, same ▸ id⟩
  | orphan r p =>
      refine still id ?_
      intro x q n record found living
      by_cases isR : x = r
      · rw [isR, applies.1, Option.some.injEq] at record
        simp [Move.effect, isR, record] at found
        exact .inr ⟨found ▸ rfl, found ▸ id⟩
      · have same : q = n := by simpa [Move.effect, isR, record] using found
        exact .inr ⟨same ▸ rfl, same ▸ id⟩
  | reap pid r p caller children =>
      refine still id ?_
      intro x q n record found living
      obtain ⟨-, -, -, -, -, distinct, onCpu, -⟩ := applies
      rw [Move.reap_procs distinct] at found
      split at found
      · cases found
        exact absurd rfl living.2
      · split at found
        · rename_i isRunning
          cases found
          rw [isRunning, onCpu.1, Option.some.injEq] at record
          exact .inr ⟨record ▸ rfl, record ▸ id⟩
        · rw [record, Option.some.injEq] at found
          exact .inr ⟨found ▸ rfl, found ▸ id⟩
  | _ => exact steady trivial id

/-! ## How processes ended -/

/-- The event tells how the process `r` ended. -/
def Event.isEnding (r : ProcRef) : Event → Bool
  | .exited p _ => p == r
  | .killed p => p == r
  | _ => false

/-- What the trace tells about the end of the process `r`. -/
def endings (r : ProcRef) (trace : List Event) : List Event :=
  trace.filter (Event.isEnding r)

/-- `r` ended once, by `exit(value)`, or by `kill` and then `value` is 0. -/
def EndedWith (r : ProcRef) (value : Int) (trace : List Event) : Prop :=
  endings r trace = [.exited r value] ∨
    endings r trace = [.killed r] ∧ value = 0

/-- The end of every zombie, and of no other process, has been recorded. -/
structure EndingsOk (s : KState) : Prop where
  fresh : ∀ r, s.nextRef ≤ r → endings r s.trace = []
  living : ∀ r p, s.procs r = some p → p.Living → endings r s.trace = []
  zombie : ∀ r p, s.procs r = some p → p.state = .zombie →
    EndedWith r p.retval s.trace

/-- A move that ends no process. -/
def Move.Lively : Move → Prop
  | .endProcess _ _ _ _ _ | .endFatherless _ _ _ _ => False
  | _ => True

section Endings

variable {s t : KState} {m : Move}

theorem Move.endings_lively (applies : m.Guard s) (lively : m.Lively)
    (x : ProcRef) : endings x (m.effect s).trace = endings x s.trace := by
  have none : endings x (m.events s) = [] := by
    cases m with
    | note e => cases e <;> first | rfl | exact absurd applies id
    | endProcess | endFatherless => exact absurd lively id
    | _ => rfl
  rw [m.trace_effect, endings, List.filter_append]
  exact congrArg (· ++ endings x s.trace) none

/-- No process ends, and every record is an old one or that of a new process
that runs. -/
theorem EndingsOk.keep (books : EndingsOk s) (next : s.nextRef ≤ t.nextRef)
    (same : ∀ x, endings x t.trace = endings x s.trace)
    (records : ∀ x n, t.procs x = some n →
      s.nextRef ≤ x ∧ n.state ≠ .zombie ∨ ∃ p, s.procs x = some p ∧
        (n.Living → p.Living) ∧
        (n.state = .zombie → p.state = .zombie ∧ n.retval = p.retval)) :
    EndingsOk t := by
  constructor
  · intro r isFresh
    rw [same]
    exact books.fresh r (le_trans next isFresh)
  · intro r n found living
    rw [same]
    rcases records r n found with ⟨isFresh, -⟩ | ⟨p, record, alive, -⟩
    · exact books.fresh r isFresh
    · exact books.living r p record (alive living)
  · intro r n found zombie
    rw [EndedWith, same]
    rcases records r n found with ⟨-, notZombie⟩ | ⟨p, record, -, ended⟩
    · exact absurd zombie notZombie
    · obtain ⟨wasZombie, sameValue⟩ := ended zombie
      rw [sameValue]
      exact books.zombie r p record wasZombie

/-- The process `r` ends, and every other record is an old one. -/
theorem EndingsOk.endProcess (books : EndingsOk s) {r : ProcRef} {p : Process}
    (record : s.procs r = some p) (living : p.Living) (how : Ending)
    (next : t.nextRef = s.nextRef) (trace : t.trace = how.event r :: s.trace)
    (fresh : r < s.nextRef)
    (records : ∀ x n, t.procs x = some n →
      x = r ∧ ¬ n.Living ∧ n.retval = how.retval ∨ x ≠ r ∧
        ∃ p, s.procs x = some p ∧ (n.Living → p.Living) ∧
          (n.state = .zombie → p.state = .zombie ∧ n.retval = p.retval)) :
    EndingsOk t := by
  have others {x : ProcRef} (other : x ≠ r) :
      endings x t.trace = endings x s.trace := by
    rw [trace]
    cases how <;>
      simp [endings, Ending.event, Event.isEnding, other.symm]
  have itself : EndedWith r how.retval t.trace := by
    have before := books.living r p record living
    rw [trace]
    unfold endings at before
    cases how <;>
      simp [EndedWith, endings, Ending.event, Ending.retval, Event.isEnding,
        before]
  constructor
  · intro x isFresh
    rw [next] at isFresh
    rw [others (lt_of_lt_of_le fresh isFresh).ne']
    exact books.fresh x isFresh
  · intro x n found alive
    rcases records x n found with ⟨-, ended, -⟩ | ⟨other, q, before, kept, -⟩
    · exact absurd alive ended
    · rw [others other]
      exact books.living x q before (kept alive)
  · intro x n found zombie
    rcases records x n found with ⟨rfl, -, value⟩ | ⟨other, q, before, -, kept⟩
    · rw [value]
      exact itself
    · obtain ⟨wasZombie, sameValue⟩ := kept zombie
      rw [EndedWith, others other, sameValue]
      exact books.zombie x q before wasZombie

theorem EndingsOk.move (books : EndingsOk s) (ok : Coherent s)
    (applies : m.Guard s) : EndingsOk (m.effect s) := by
  have same (lively : m.Lively) :=
    books.keep (m.nextRef_le s) (m.endings_lively applies lively)
  have steady (isSteady : m.IsSteady) (lively : m.Lively) :
      EndingsOk (m.effect s) := by
    have quiet := m.steady isSteady ok applies
    refine same lively ?_
    intro x n found
    obtain ⟨p, record, context⟩ := quiet.procs x n found
    have kin := quiet.family x p n record found
    exact .inr ⟨p, record, context.living,
      fun zombie => ⟨kin.zombie.mp zombie, kin.retval⟩⟩
  cases m with
  | dispatch k r p old restored =>
      obtain ⟨-, next, -⟩ := applies
      have state := ok.activable_of_nextOut next
      refine same trivial ?_
      intro x n found
      rw [Move.dispatch_procs] at found
      split at found
      · rename_i isNew
        cases found
        exact .inr ⟨p, isNew ▸ next.2, fun _ => by simp [Process.Living, state],
          by simp⟩
      · obtain ⟨before, present, rfl⟩ := Option.map_eq_some_iff.mp found
        exact .inr ⟨before, present, id, fun zombie => ⟨zombie, rfl⟩⟩
  | create pid prio p children =>
      obtain ⟨-, onCpu, -⟩ := applies
      refine same trivial ?_
      intro x n found
      rw [Move.create_procs (ok.lt_nextRef onCpu.1).ne] at found
      split at found
      · rename_i isNew
        cases found
        exact .inl ⟨isNew.ge, by simp⟩
      · split at found
        · rename_i isRunning
          cases found
          exact .inr ⟨p, isRunning ▸ onCpu.1, id, fun zombie => ⟨zombie, rfl⟩⟩
        · exact .inr ⟨n, found, id, fun zombie => ⟨zombie, rfl⟩⟩
  | createElect pid prio p children =>
      obtain ⟨-, onCpu, -⟩ := applies
      refine same trivial ?_
      intro x n found
      rw [Move.createElect_procs (ok.lt_nextRef onCpu.1).ne] at found
      split at found
      · rename_i isNew
        cases found
        exact .inl ⟨isNew.ge, by simp [KState.created, Process.zeroed]⟩
      · split at found
        · rename_i isRunning
          cases found
          exact .inr ⟨p, isRunning ▸ onCpu.1,
            fun _ => by simp [Process.Living, onCpu.2], by simp⟩
        · exact .inr ⟨n, found, id, fun zombie => ⟨zombie, rfl⟩⟩
  | handOver q content message sender r p restored =>
      obtain ⟨-, -, -, next, onCpu, -⟩ := applies
      have state := ok.inMsgqueue_of_nextOut next
      refine same trivial ?_
      intro x n found
      rw [Move.handOver_procs (ok.running_ne_of_nextOut next onCpu)] at found
      split at found
      · rename_i isNew
        cases found
        exact .inr ⟨p, isNew ▸ next.2, fun _ => by simp [Process.Living, state],
          by simp⟩
      · split at found
        · rename_i isRunning
          cases found
          exact .inr ⟨sender, isRunning ▸ onCpu.1,
            fun _ => by simp [Process.Living, onCpu.2], by simp⟩
        · exact .inr ⟨n, found, id, fun zombie => ⟨zombie, rfl⟩⟩
  | endProcess pid r p how father =>
      obtain ⟨has, living, -, -, woken⟩ := applies
      refine books.endProcess has.2 living how ?_ (Move.trace_effect _ s)
        (ok.lt_nextRef has.2) ?_
      · cases father <;> rfl
      intro x n found
      cases father with
      | none =>
          by_cases isR : x = r
          · simp [Move.effect, isR] at found
            exact .inl ⟨isR, by simp [← found, Process.Living],
              by simp [← found]⟩
          · have same : s.procs x = some n := by
              simpa [Move.effect, isR] using found
            exact .inr ⟨isR, n, same, id, fun zombie => ⟨zombie, rfl⟩⟩
      | some father =>
          obtain ⟨f, content⟩ := father
          obtain ⟨distinct, isFather, link, -⟩ := woken
          have state : content.state = .waitingPid :=
            (ok.procs.linked f content isFather).state_of_link link
          rw [Move.endProcess_procs distinct] at found
          split at found
          · rename_i isF
            cases found
            exact .inr ⟨isF ▸ distinct, content, isF ▸ isFather,
              fun _ => by simp [Process.Living, state], by simp⟩
          · split at found
            · rename_i isR
              cases found
              exact .inl ⟨isR, by simp [Process.Living], rfl⟩
            · rename_i notR
              exact .inr ⟨notR, n, found, id, fun zombie => ⟨zombie, rfl⟩⟩
  | endFatherless pid r p how =>
      obtain ⟨has, living, -⟩ := applies
      refine books.endProcess has.2 living how rfl rfl (ok.lt_nextRef has.2) ?_
      intro x n found
      by_cases isR : x = r
      · simp [Move.effect, isR] at found
        exact .inl ⟨isR, by simp [← found, Process.Living], by simp [← found]⟩
      · have same : s.procs x = some n := by
          simpa [Move.effect, isR] using found
        exact .inr ⟨isR, n, same, id, fun zombie => ⟨zombie, rfl⟩⟩
  | orphan r p =>
      refine same trivial ?_
      intro x n found
      by_cases isR : x = r
      · simp [Move.effect, isR] at found
        subst found
        exact .inr ⟨p, isR ▸ applies.1, id, fun zombie => ⟨zombie, rfl⟩⟩
      · have same : s.procs x = some n := by
          simpa [Move.effect, isR] using found
        exact .inr ⟨n, same, id, fun zombie => ⟨zombie, rfl⟩⟩
  | finish pid r p =>
      refine same trivial ?_
      intro x n found
      by_cases isR : x = r
      · simp [Move.effect, isR] at found
        exact .inr ⟨p, isR ▸ applies.1.2, by simp [← found, Process.Living],
          by simp [← found]⟩
      · have same : s.procs x = some n := by
          simpa [Move.effect, isR] using found
        exact .inr ⟨n, same, id, fun zombie => ⟨zombie, rfl⟩⟩
  | reap pid r p caller children =>
      obtain ⟨-, -, has, -, -, distinct, onCpu, -⟩ := applies
      refine same trivial ?_
      intro x n found
      rw [Move.reap_procs distinct] at found
      split at found
      · rename_i isR
        cases found
        exact .inr ⟨p, isR ▸ has.2, by simp [Process.Living], by simp⟩
      · split at found
        · rename_i isRunning
          cases found
          exact .inr ⟨caller, isRunning ▸ onCpu.1, id,
            fun zombie => ⟨zombie, rfl⟩⟩
        · exact .inr ⟨n, found, id, fun zombie => ⟨zombie, rfl⟩⟩
  | _ => exact steady trivial trivial

end Endings

/-! ## Runs -/

/-- `__finish_zombie` is entered on a zombie whose father is the caller. -/
def Event.ReapsZombie : Event → Prop
  | .finishZombie caller pid found =>
      ∃ r p, found = some (r, p) ∧ p.pid = pid ∧ p.state = .zombie ∧
        p.fatherPid = caller
  | _ => True

section Runs

variable {s t : KState} {a : Action}

/-- The rest of `waitpid` finds a zombie. -/
theorem Settled.zombie_of_waitpid (settled : Settled s)
    (answered : Answered s) {pid : Int} {retvalp : UserPtr}
    (mode : s.mode = .kernel (.waitpid pid retvalp)) {r : ProcRef}
    {p : Process} (has : s.HasPid pid r p) : p.state = .zombie := by
  have sound := settled.sound
  obtain ⟨c, onCpu⟩ := settled.onCpu
  have living : c.Living := by simp [Process.Living, onCpu.2]
  have inside : s.Inside s.running c (.waitpid pid retvalp) :=
    ⟨sound.context.loaded _ c mode onCpu.1, fun _ => mode⟩
  have nonneg := (sound.coherent.procs.table pid r has.1).1
  have notWaiting : c.state ≠ .waitingPid := by simp [onCpu.2]
  obtain ⟨r', p', has', -, zombie⟩ := (sound.family.awaits s.running c pid
    retvalp onCpu.1 living inside).2 notWaiting
  rw [answered s.running c pid retvalp onCpu.1 living inside notWaiting nonneg]
    at has'
  have sameRef := has.1.symm.trans has'.1
  rw [Option.some.injEq] at sameRef
  subst sameRef
  have sameRecord := has.2.symm.trans has'.2
  rw [Option.some.injEq] at sameRecord
  exact sameRecord ▸ zombie

theorem Settled.events_reapZombie {m : Move} (settled : Settled s)
    (answered : Answered s) (permitted : m.By s a t) (applies : m.Guard t) :
    ∀ e ∈ m.events t, e.ReapsZombie := by
  intro e member
  cases m with
  | note event =>
      cases List.mem_singleton.mp member
      cases e with
      | finishZombie caller pid found =>
          obtain ⟨rfl, rfl, r, p, rfl, has, isSon, reason⟩ := permitted
          refine ⟨r, p, rfl,
            (settled.sound.coherent.active_of_hasPid has).1, ?_, isSon⟩
          rcases reason with zombie | ⟨retvalp, mode⟩
          · exact zombie
          · exact settled.zombie_of_waitpid answered mode has
      | _ => trivial
  | endProcess pid r p how father | endFatherless pid r p how =>
      cases List.mem_singleton.mp member
      cases how <;> trivial
  | awaitSend | dispatch | take | receive | acquire | post | resetSem =>
      cases List.mem_singleton.mp member
      trivial
  | put | refill | handOver | postWake =>
      rcases List.mem_pair.mp member with rfl | rfl <;> trivial
  | _ => cases member

/-- What holds along the runs in which fathers are woken up by the child they
wait for. -/
theorem Run.answered {apps : List String}
    (run : Run (fun t a => a.Answers t) (bootState apps) s) :
    Answered s ∧ EndingsOk s ∧ ∀ e ∈ s.trace, e.ReapsZombie := by
  refine run.keeps bootState_settled
    (I := fun u => Answered u ∧ EndingsOk u ∧ ∀ e ∈ u.trace, e.ReapsZombie) ?_
    ⟨?_, ⟨?_, ?_, ?_⟩, ?_⟩
  · rintro b a u m answers settled ⟨before, -, -⟩ sound permitted applies
      ⟨answered, books, trace⟩
    refine ⟨sound.answered_move permitted applies answers answered,
      books.move sound.coherent applies, ?_⟩
    rw [m.trace_effect]
    intro e member
    rcases List.mem_append.mp member with new | old
    · exact settled.events_reapZombie before permitted applies e new
    · exact trace e old
  · rintro r p pid retvalp found - ⟨stack, -⟩
    rcases bootState_procs found with ⟨-, rfl⟩ | ⟨-, rfl⟩ <;> cases stack
  · exact fun _ _ => rfl
  · exact fun _ _ _ _ => rfl
  · intro r p found zombie
    rcases bootState_procs found with ⟨-, rfl⟩ | ⟨-, rfl⟩ <;> cases zombie
  · intro e member
    cases member

theorem Action.Waits.answers {pid : Int} {retvalp : UserPtr}
    (waits : a.Waits s pid retvalp) (inside : s.mode ≠ .pageFault) :
    a.Answers s := by
  rintro r p ⟨-, ⟨-, ⟨retval, isExit⟩ | faulted⟩ | ⟨pid', isKill, -⟩⟩
  · rcases waits with isCall | ⟨isResume, -⟩ <;> simp_all
  · exact absurd faulted inside
  · rcases waits with isCall | ⟨isResume, -⟩ <;> simp_all

/-- `waitpid` has returned the pid of a child. -/
theorem Settled.reaped {pid : Int} {retvalp : UserPtr} (settled : Settled s)
    (waits : a.Waits s pid retvalp) (next : step a s = .next t)
    (user : t.mode = .user) (found : 0 ≤ t.eax) :
    Reaped s pid retvalp t := by
  have result := (settled.stepped next).result (by simp [user])
  rcases waits with rfl | ⟨rfl, mode⟩
  · exact result user (by omega)
  · exact result.1 pid retvalp mode

/-- As long as no process ends while its father waits for another given one,
`waitpid` reaps zombies of the caller only, returns the child it was asked for
and stores the value this child ended with. -/
theorem waitpid_reaps_zombies {apps : List String} {b : KState}
    (booted : Booted apps b) (run : Run (fun t a => a.Answers t) b s) :
    (∀ caller pid found, Event.finishZombie caller pid found ∈ s.trace →
      ∃ r p, found = some (r, p) ∧ p.pid = pid ∧ p.state = .zombie ∧
        p.fatherPid = caller) ∧
      ∀ a pid retvalp t, a.Waits s pid retvalp → step a s = .next t →
        t.mode = .user → 0 ≤ t.eax →
          (pid < 0 ∨ t.eax = pid) ∧ ∃ r p, s.HasPid t.eax r p ∧
            p.state = .zombie ∧ p.fatherPid = s.currentPid ∧
            EndedWith r p.retval s.trace ∧
            t.trace = (if retvalp.addr = 0 then []
              else [.store retvalp.addr p.retval]) ++
                .finishZombie s.currentPid t.eax (some (r, p)) :: s.trace := by
  cases booted_eq booted
  have settled := run.settled bootState_settled
  obtain ⟨-, books, trace⟩ := run.answered
  refine ⟨fun caller pid found => trace _, ?_⟩
  intro a pid retvalp t waits next user found
  obtain ⟨r, p, isAsked, has, recorded⟩ :=
    settled.reaped waits next user found
  have inside : s.mode ≠ .pageFault := by
    rcases waits with rfl | ⟨-, mode⟩
    · simp [mode_of_call next]
    · simp [mode]
  have reaps := (run.step (waits.answers inside) next).answered.2.2
    (.finishZombie s.currentPid t.eax (some (r, p))) (by simp [recorded])
  obtain ⟨r', p', same, -, zombie, isSon⟩ := reaps
  cases same
  exact ⟨isAsked, r, p, has, zombie, isSon, books.zombie r p has.2 zombie,
    recorded⟩

/-- A father gets the value its child ended with. -/
theorem reaps_after_exit :
    ∃ b s t r p, Booted ["idle", "autotest", "a"] b ∧
      Run (fun t a => a.Answers t) b s ∧
      step (.call (.waitpid 2 ⟨0x5000000, false⟩)) s = .next t ∧
      s.HasPid 2 r p ∧ p.state = .zombie ∧
      EndedWith r p.retval s.trace := by
  obtain ⟨t, performed, -, checked⟩ := exists_of_runActions
    ["idle", "autotest", "a"] ((firstTicks ++
      [.call (.start "a" 4096 200), .resume, .call (.exit 3), .resume]) ++
        [.call (.waitpid 2 ⟨0x5000000, false⟩)])
    (fun t => t.mode == .user && t.eax == 2) (by decide) (by decide)
    (by decide +kernel)
  rw [Bool.and_eq_true, beq_iff_eq, beq_iff_eq] at checked
  rw [runActions_append, Option.bind_eq_some_iff] at performed
  obtain ⟨s, toS, waits⟩ := performed
  have booted : Booted ["idle", "autotest", "a"] _ :=
    booted_bootState (by decide) (by decide)
  have run : Run (fun t a => a.Answers t)
      (bootState ["idle", "autotest", "a"]) s := by
    refine run_of_allAlong bootState_settled toS
      (fun t _ => t.lists .waitingPid == []) ?_ (by decide +kernel)
    intro t a settled empty
    exact settled.sound.coherent.answers_of_nil (by simpa using empty) a
  have next := step_of_runActions waits
  obtain ⟨-, r, p, has, zombie, -, ended, -⟩ :=
    (waitpid_reaps_zombies booted run).2 _ 2 ⟨0x5000000, false⟩ t (.inl rfl)
      next checked.1 (by omega)
  rw [checked.2] at has
  exact ⟨_, s, t, r, p, booted, run, next, has, zombie, ended⟩

end Runs

/-- A father waits for one child and another child ends. -/
def wrongChildRun : List Action :=
  firstTicks ++ [.call (.start "a" 4096 100), .call (.start "b" 4096 90),
    .call (.waitpid 2 ⟨0, false⟩), .resume, .call (.waitClock 1000), .resume,
    .call (.exit 7), .resume]

/-- `__finish_zombie` is entered on a process that is asleep. -/
def Event.reapsSleeper : Event → Bool
  | .finishZombie _ _ (some (_, p)) => p.state == .asleep
  | _ => false

/-- `waitpid` reaps a child that is asleep. -/
theorem wrong_child_is_reaped :
    ∃ b s caller pid r p, Booted ["idle", "autotest", "a", "b"] b ∧
      Run (fun _ _ => True) b s ∧
      Event.finishZombie caller pid (some (r, p)) ∈ s.trace ∧
      p.state ≠ .zombie := by
  obtain ⟨s, performed, -, checked⟩ := exists_of_runActions
    ["idle", "autotest", "a", "b"] wrongChildRun
    (fun s => s.trace.any Event.reapsSleeper) (by decide) (by decide)
    (by decide +kernel)
  obtain ⟨e, member, found⟩ := List.any_eq_true.mp checked
  unfold Event.reapsSleeper at found
  split at found
  · rename_i caller pid r p
    have asleep : p.state = .asleep := by simpa using found
    exact ⟨_, s, caller, pid, r, p,
      booted_bootState (by decide) (by decide), run_of_runActions performed,
      member, by simp [asleep]⟩
  · cases found

end Nebulea
