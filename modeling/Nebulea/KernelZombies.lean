import Nebulea.KernelBirths
import Nebulea.KernelFamilyRuns
import Nebulea.KernelListOrder

/-!
# Zombies

No pending wake-up reaches a process that has ended: until its father reaps it
or ends as well it stays a zombie, in no list, with the value it ended with.
-/

namespace Nebulea

open ExceptState

/-- What a zombie keeps. -/
structure Remains (p n : Process) : Prop where
  zombie : n.state = .zombie
  retval : n.retval = p.retval
  pid : n.pid = p.pid

/-- The process `r` has finished, and may have been released. -/
def Gone (s : KState) (r : ProcRef) : Prop :=
  r < s.nextRef ∧ ∀ n, s.procs r = some n → n.state = .finished

/-- The action is a `waitpid` of the process `father`, or ends it. -/
def Action.Buries (s : KState) (a : Action) (father : Int) : Prop :=
  (∃ pid retvalp, a.Waits s pid retvalp) ∧ s.currentPid = father ∨
    a.Ceases s father

section Moves

variable {s : KState} {m : Move} {r : ProcRef}

/-- Finished processes never come back. -/
theorem Gone.move (gone : Gone s r) (ok : Coherent s) (applies : m.Guard s) :
    Gone (m.effect s) r := by
  obtain ⟨old, finished⟩ := gone
  refine ⟨old.trans_le (m.nextRef_le s), ?_⟩
  intro n found
  have ended {p : Process} (record : s.procs r = some p) {P : Prop}
      (active : p.state ≠ .finished) : P :=
    absurd (finished p record) active
  by_cases stays : ¬ m.Switches
  · obtain ⟨p, record, context⟩ := (m.unswitched stays ok applies).procs r n found
    by_contra active
    exact ended record (context.active active)
  rw [not_not] at stays
  cases m with
  | dispatch k new p old restored =>
      have state := ok.activable_of_nextOut applies.2.1
      rw [Move.dispatch_procs] at found
      split at found
      · rename_i isNew
        exact ended (isNew ▸ applies.2.1.2) (by simp [state])
      · obtain ⟨before, record, rfl⟩ := Option.map_eq_some_iff.mp found
        exact finished before record
  | create pid prio p children =>
      obtain ⟨-, onCpu, -⟩ := applies
      rw [Move.create_procs (ok.lt_nextRef onCpu.1).ne, if_neg old.ne] at found
      split at found
      · rename_i isRunning
        exact ended (isRunning ▸ onCpu.1) (by simp [onCpu.2])
      · exact finished n found
  | createElect pid prio p children =>
      obtain ⟨-, onCpu, -⟩ := applies
      rw [Move.createElect_procs (ok.lt_nextRef onCpu.1).ne,
        if_neg old.ne] at found
      split at found
      · rename_i isRunning
        exact ended (isRunning ▸ onCpu.1) (by simp [onCpu.2])
      · exact finished n found
  | handOver q content message sender new p restored =>
      obtain ⟨-, -, -, next, onCpu, -⟩ := applies
      have state := ok.inMsgqueue_of_nextOut next
      rw [Move.handOver_procs (ok.running_ne_of_nextOut next onCpu)] at found
      split at found
      · rename_i isNew
        exact ended (isNew ▸ next.2) (by simp [state])
      · split at found
        · rename_i isRunning
          exact ended (isRunning ▸ onCpu.1) (by simp [onCpu.2])
        · exact finished n found
  | _ => exact absurd stays id

/-- A zombie stays one, unless it is reaped or loses its father. -/
theorem Move.zombie_after (ok : Coherent s) (applies : m.Guard s) {p : Process}
    (record : s.procs r = some p) (zombie : p.state = .zombie) :
    (∃ n, (m.effect s).procs r = some n ∧ Remains p n ∧
        n.fatherPid = p.fatherPid) ∨
      m = .orphan r p ∨ (∃ pid, m = .finish pid r p) ∨
      ∃ pid caller children, m = .reap pid r p caller children := by
  have unlinked : p.link = none := by
    simpa [KState.LinkOk, zombie] using ok.procs.linked r p record
  rcases m.procs_unlinked ok applies record (by simp [zombie]) unlinked with
    untouched | reaches
  · left
    obtain ⟨stack, registers, isSaved⟩ := m.saves_eq s r p
    rw [isSaved] at untouched
    exact ⟨_, untouched, ⟨zombie, rfl, rfl⟩, rfl⟩
  cases reaches with
  | wakeSleeper =>
      have asleep := applies.2.1
      simp [zombie] at asleep
  | endProcess pid how father => exact absurd zombie applies.2.1.1
  | endFatherless pid how => exact absurd zombie applies.2.1.1
  | orphan => exact .inr (.inl rfl)
  | finish pid => exact .inr (.inr (.inl ⟨pid, rfl⟩))
  | reap pid caller children =>
      exact .inr (.inr (.inr ⟨pid, caller, children, rfl⟩))
  | reprio newprio => exact absurd zombie applies.2.1.1
  | clearSkip =>
      exact .inl ⟨_, Function.update_self .., ⟨zombie, rfl, rfl⟩, rfl⟩
  | refuse =>
      exact .inl ⟨_, Function.update_self .., ⟨zombie, rfl, rfl⟩, rfl⟩

end Moves

/-- The process `r` has ended. -/
def Ended (s : KState) (r : ProcRef) : Prop :=
  (∃ p, s.procs r = some p ∧ p.state = .zombie) ∨ Gone s r

theorem Ended.move {s : KState} {m : Move} {r : ProcRef} (ended : Ended s r)
    (ok : Coherent s) (applies : m.Guard s) : Ended (m.effect s) r := by
  rcases ended with ⟨p, record, zombie⟩ | gone
  swap
  · exact .inr (gone.move ok applies)
  have later : r < (m.effect s).nextRef :=
    (ok.lt_nextRef record).trans_le (m.nextRef_le s)
  rcases m.zombie_after ok applies record zombie with
    ⟨n, after, remains, -⟩ | rfl | ⟨pid, rfl⟩ | ⟨pid, caller, children, rfl⟩
  · exact .inl ⟨n, after, remains.zombie⟩
  · exact .inl ⟨_, Function.update_self .., zombie⟩
  · refine .inr ⟨later, ?_⟩
    intro n found
    simp [Move.effect] at found
    exact found ▸ rfl
  · obtain ⟨-, -, -, -, -, distinct, -⟩ := applies
    refine .inr ⟨later, ?_⟩
    intro n found
    rw [Move.reap_procs distinct, if_pos rfl] at found
    cases found
    rfl

theorem Ended.endProcess {s : KState} {pid : Int} {r : ProcRef} {p : Process}
    {how : Ending} {father : Option (ProcRef × Process)}
    (applies : (Move.endProcess pid r p how father).Guard s) :
    Ended ((Move.endProcess pid r p how father).effect s) r := by
  left
  cases father with
  | none => exact ⟨_, Function.update_self .., rfl⟩
  | some father =>
      obtain ⟨f, content⟩ := father
      obtain ⟨-, -, -, -, distinct, -⟩ := applies
      rw [Move.endProcess_procs distinct, if_neg distinct.symm, if_pos rfl]
      exact ⟨_, rfl, rfl⟩

theorem Ended.endFatherless {s : KState} {pid : Int} {r : ProcRef} {p : Process}
    {how : Ending} (ok : Coherent s)
    (applies : (Move.endFatherless pid r p how).Guard s) :
    Ended ((Move.endFatherless pid r p how).effect s) r := by
  refine .inr ⟨(ok.lt_nextRef applies.1.2).trans_le (Move.nextRef_le _ s), ?_⟩
  intro n found
  simp [Move.effect] at found
  exact found ▸ rfl

section Steps

variable {s t u : KState} {a : Action} {r : ProcRef} {p : Process}

/-- Between the moves of a step: the zombie is as it was, or the action buries
it, and then it may have lost its father already. -/
def Buried (s : KState) (a : Action) (r : ProcRef) (p : Process)
    (u : KState) : Prop :=
  (∃ n, u.procs r = some n ∧ Remains p n ∧ n.fatherPid = p.fatherPid) ∨
    a.Buries s p.fatherPid ∧
      (Gone u r ∨ ∃ n, u.procs r = some n ∧ Remains p n)

theorem Buried.move {m : Move} (buried : Buried s a r p u) (sound : Sound u)
    (isSon : p.fatherPid ≠ -1) (permitted : m.By s a u)
    (applies : m.Guard u) : Buried s a r p (m.effect u) := by
  have ok := sound.coherent
  have later {n : Process} (record : u.procs r = some n) :
      r < (m.effect u).nextRef :=
    (ok.lt_nextRef record).trans_le (m.nextRef_le u)
  rcases buried with ⟨n, record, remains, sameFather⟩ | ⟨buries, still⟩
  · rcases m.zombie_after ok applies record remains.zombie with
      ⟨n', after, remains', father'⟩ | rfl | ⟨pid, rfl⟩ |
        ⟨pid, caller, children, rfl⟩
    · exact .inl ⟨n', after, ⟨remains'.zombie,
        remains'.retval.trans remains.retval, remains'.pid.trans remains.pid⟩,
        father'.trans sameFather⟩
    · refine .inr ⟨.inr (sameFather ▸ permitted), .inr ?_⟩
      exact ⟨_, Function.update_self .., remains.zombie, remains.retval,
        remains.pid⟩
    · exact absurd (sameFather.symm.trans applies.2.2.1) isSon
    · obtain ⟨⟨trace, rfl⟩, ⟨asked, retvalp, waits, -⟩, -⟩ := permitted
      obtain ⟨-, -, -, -, isFather, distinct, -⟩ := applies
      refine .inr ⟨.inl ⟨⟨asked, retvalp, waits⟩,
        isFather.symm.trans sameFather⟩, .inl ⟨later record, ?_⟩⟩
      intro n' found
      rw [Move.reap_procs distinct, if_pos rfl] at found
      cases found
      rfl
  · refine .inr ⟨buries, ?_⟩
    rcases still with gone | ⟨n, record, remains⟩
    · exact .inl (gone.move ok applies)
    rcases m.zombie_after ok applies record remains.zombie with
      ⟨n', after, remains', -⟩ | rfl | ⟨pid, rfl⟩ |
        ⟨pid, caller, children, rfl⟩
    · exact .inr ⟨n', after, remains'.zombie,
        remains'.retval.trans remains.retval, remains'.pid.trans remains.pid⟩
    · exact .inr ⟨_, Function.update_self .., remains.zombie, remains.retval,
        remains.pid⟩
    · refine .inl ⟨later record, ?_⟩
      intro n' found
      simp [Move.effect] at found
      exact found ▸ rfl
    · obtain ⟨-, -, -, -, -, distinct, -⟩ := applies
      refine .inl ⟨later record, ?_⟩
      intro n' found
      rw [Move.reap_procs distinct, if_pos rfl] at found
      cases found
      rfl

theorem Settled.buried (settled : Settled s) (fathered : Fathered s)
    (record : s.procs r = some p) (zombie : p.state = .zombie)
    (path : Moves (Move.By s a) s u) : Buried s a r p u := by
  have entry := settled.sound.coherent.procs.listed r p record (by simp [zombie])
  have isSon := fathered p.pid r p ⟨entry, record⟩ zombie
  have both : Sound u ∧ Buried s a r p u := by
    refine path.keeps (I := fun v => Sound v ∧ Buried s a r p v) ?_
      ⟨settled.sound, .inl ⟨p, record, ⟨zombie, rfl, rfl⟩, rfl⟩⟩
    rintro m v permitted applies ⟨sound, buried⟩
    exact ⟨sound.move applies, buried.move sound isSon permitted applies⟩
  exact both.2

/-- After a step a zombie is as it was, or has been buried. -/
theorem Settled.zombie_after (settled : Settled s) (fathered : Fathered s)
    (record : s.procs r = some p) (zombie : p.state = .zombie)
    (next : step a s = .next t) :
    (∃ n, t.procs r = some n ∧ Remains p n ∧ n.fatherPid = p.fatherPid) ∨
      a.Buries s p.fatherPid ∧
        (Gone t r ∨ ∃ n, t.procs r = some n ∧ Remains p n) :=
  settled.buried fathered record zombie (settled.stepped next).path

/-- `r` has ended, and is in no list but that of finished processes. -/
def Dead (s : KState) (r : ProcRef) (p : Process) : Prop :=
  (∀ n, s.procs r = some n →
      n.state = .zombie ∧ n.retval = p.retval ∨ n.state = .finished) ∧
    ∀ h, h ≠ .finished → r ∉ s.lists h

theorem Coherent.dead (ok : Coherent s)
    (ended : (∃ n, s.procs r = some n ∧ Remains p n) ∨ Gone s r) :
    Dead s r p := by
  have states : ∀ n, s.procs r = some n →
      n.state = .zombie ∧ n.retval = p.retval ∨ n.state = .finished := by
    intro n found
    rcases ended with ⟨n', record, remains⟩ | gone
    · rw [found, Option.some.injEq] at record
      exact .inl ⟨record ▸ remains.zombie, record ▸ remains.retval⟩
    · exact .inr (gone.2 n found)
  refine ⟨states, ?_⟩
  intro h notFinished member
  obtain ⟨n, record, link⟩ := ok.record_of_mem member
  have linked := ok.procs.linked r n record
  rcases states n record with ⟨zombie, -⟩ | finished
  · simp [KState.LinkOk, zombie, link] at linked
  · simp [KState.LinkOk, finished, link] at linked
    exact notFinished linked

/-- The kernel code of a step does not wake up the dead either. -/
theorem Passes.dead (passes : Passes s a u)
    (along : ∀ v, Moves (Move.By s a) s v → Dead v r p) : Dead u r p := by
  induction passes with
  | move path => exact along _ path
  | data _ procs lists _ ih =>
      rw [Dead, procs, lists]
      exact ih
  | turn front next ih =>
      rename_i v x w content
      have member := List.mem_of_getLast? next.1
      have other : r ≠ w := by
        rintro rfl
        exact ih.2 _ (by simp) member
      refine ⟨?_, ?_⟩
      · intro n found
        exact ih.1 n (by simpa [other] using found)
      · intro h notFinished listed
        rw [KState.wake_lists] at listed
        rcases KState.mem_of_mem_relinkLists listed with inside | ⟨isW, -⟩
        · exact ih.2 h notFinished inside
        · exact other isW

end Steps

section Runs

variable {s t : KState} {r : ProcRef} {p : Process}

theorem bootState_fathered (apps : List String) : Fathered (bootState apps) :=
  (bootState_familiesOk apps).kinship.zombie

theorem Run.fathered {meets : KState → Action → Prop} {apps : List String}
    (run : Run meets (bootState apps) s) : Fathered s := by
  induction run with
  | refl => exact bootState_fathered apps
  | step front _ next ih =>
      exact (front.settled bootState_settled).fathered ih next

theorem Reachable.fathered (reached : Reachable s) : Fathered s := by
  obtain ⟨apps, b, booted, run⟩ := reached
  cases booted_eq booted
  exact run.fathered

/-- `r` is still the zombie it was, or it has been buried. -/
theorem Run.remains {meets : KState → Action → Prop} (reached : Reachable s)
    (record : s.procs r = some p) (zombie : p.state = .zombie)
    (run : Run meets s t) :
    (∃ n, t.procs r = some n ∧ Remains p n) ∨ Gone t r := by
  induction run with
  | refl => exact .inl ⟨p, record, zombie, rfl, rfl⟩
  | step front met next ih =>
      have there := reached.run (front.mono fun _ _ _ => trivial)
      have settled := there.settled
      rcases ih with ⟨n, found, remains⟩ | gone
      · have later {n' : Process} (kept : Remains n n') : Remains p n' :=
          ⟨kept.zombie, kept.retval.trans remains.retval,
            kept.pid.trans remains.pid⟩
        rcases settled.zombie_after there.fathered found remains.zombie next with
          ⟨n', after, kept, -⟩ | ⟨-, gone | ⟨n', after, kept⟩⟩
        · exact .inl ⟨n', after, later kept⟩
        · exact .inr gone
        · exact .inl ⟨n', after, later kept⟩
      · right
        exact settled.keeps next (I := fun v => Gone v r)
          (fun u m sound _ applies kept => kept.move sound.coherent applies)
          gone

/-- A call that only returns a value. -/
theorem step_call_of_wp {c : Syscall} {v : KState} (user : s.mode = .user)
    (rule : wp (syscall c) (fun _ u => u = v) (fun _ _ => False) s) :
    step (.call c) s = .next v := by
  refine step_of_wp ?_ rule
  rw [user]
  rfl

/-- The calls on a zombie that must refuse. -/
theorem zombie_refuses {pid newprio : Int} (has : s.HasPid pid r p)
    (zombie : p.state = .zombie) (user : s.mode = .user) {c : Syscall}
    (call : c ∈ [Syscall.chprio pid newprio, .kill pid, .getprio pid]) :
    step (.call c) s = .next { s with mode := .user, eax := -1 } := by
  refine step_call_of_wp user ?_
  simp only [List.mem_cons, List.not_mem_nil, or_false] at call
  rcases call with rfl | rfl | rfl
  · rw [syscall, chprio, wp_bind, wp_get, wp_ite]
    split
    · rw [wp_ret]
    · rw [wp_bind, wp_entry has.1, wp_bind, wp_derefProc has.2, wp_ite,
        if_pos (.inl zombie), wp_ret]
  · rw [syscall, kill, wp_bind, wp_get, wp_ite]
    split
    · rw [wp_ret]
    · rw [wp_bind, wp_entry has.1, wp_bind, wp_derefProc has.2, wp_ite,
        if_pos zombie, wp_ret]
  · rw [syscall, getprio, wp_bind, wp_get, wp_ite]
    split
    · rw [wp_ret]
    · rw [wp_bind, wp_entry has.1, wp_bind, wp_derefProc has.2, wp_ite,
        if_pos zombie, wp_ret]

/-- The pid of a process of the table is not free. -/
theorem getFreePid_ne {pid : Int} (ok : Coherent s) (has : s.HasPid pid r p) :
    getFreePid s ≠ pid := by
  intro isFree
  have nonneg := (ok.procs.table pid r has.1).1
  have free : s.processTable (getFreePid s) = none :=
    (firstFree_free (show getFreePid s ≠ -1 by omega)).2.2
  rw [isFree, has.1] at free
  cases free

/-- Once a process is a zombie it stays one until a `waitpid` of its father or
the end of its father finishes it: nothing wakes it up, its value and its pid
stay, and `chprio`, `kill` and `getprio` refuse it. -/
theorem zombies_stay_dead (reached : Reachable s)
    (record : s.procs r = some p) (zombie : p.state = .zombie)
    (run : Run (fun _ _ => True) s t) :
    (∀ a u, Passes t a u → Dead u r p) ∧
      ∀ n, t.procs r = some n → n.state = .zombie →
        n.retval = p.retval ∧ getFreePid t ≠ n.pid ∧
          (t.mode = .user → ∀ newprio,
            ∀ c ∈ [Syscall.chprio n.pid newprio, .kill n.pid, .getprio n.pid],
              step (.call c) t = .next { t with mode := .user, eax := -1 }) ∧
          ∀ a u, step a t = .next u →
            (∃ n', u.procs r = some n' ∧ n'.state = .zombie) ∨
              (∀ n', u.procs r = some n' → n'.state = .finished) ∧
                a.Buries t n.fatherPid := by
  have there := reached.run run
  have settled := there.settled
  have ended := run.remains reached record zombie
  refine ⟨?_, ?_⟩
  · intro a u passes
    refine passes.dead ?_
    intro v path
    have soundV := settled.sound.moves path
    refine soundV.coherent.dead ?_
    rcases ended with ⟨n, found, remains⟩ | gone
    · have later {n' : Process} (kept : Remains n n') : Remains p n' :=
        ⟨kept.zombie, kept.retval.trans remains.retval,
          kept.pid.trans remains.pid⟩
      rcases settled.buried there.fathered found remains.zombie path with
        ⟨n', after, kept, -⟩ | ⟨-, gone | ⟨n', after, kept⟩⟩
      · exact .inl ⟨n', after, later kept⟩
      · exact .inr gone
      · exact .inl ⟨n', after, later kept⟩
    · right
      have both : Sound v ∧ Gone v r := by
        refine path.keeps (I := fun w => Sound w ∧ Gone w r) ?_
          ⟨settled.sound, gone⟩
        rintro m w _ applies ⟨sound, kept⟩
        exact ⟨sound.move applies, kept.move sound.coherent applies⟩
      exact both.2
  · intro n found isZombie
    have active : n.state ≠ .finished := by simp [isZombie]
    have has : t.HasPid n.pid r n :=
      ⟨settled.sound.coherent.procs.listed r n found active, found⟩
    have sameValue : n.retval = p.retval := by
      rcases ended with ⟨n', record', remains⟩ | gone
      · rw [found, Option.some.injEq] at record'
        exact record' ▸ remains.retval
      · exact absurd (gone.2 n found) active
    refine ⟨sameValue, getFreePid_ne settled.sound.coherent has,
      fun user newprio c call => zombie_refuses has isZombie user call, ?_⟩
    intro a u next
    rcases settled.zombie_after there.fathered found isZombie next with
      ⟨n', after, kept, -⟩ | ⟨buries, gone | ⟨n', after, kept⟩⟩
    · exact .inl ⟨n', after, kept.zombie⟩
    · exact .inr ⟨gone.2, buries⟩
    · exact .inl ⟨n', after, kept.zombie⟩

/-- A child that has ended refuses to be killed again. -/
theorem zombie_after_exit :
    ∃ s p, Reachable s ∧ s.procs 2 = some p ∧ p.state = .zombie ∧
      p.pid = 2 ∧ 2 ∉ s.lists .activable ∧
      step (.call (.kill 2)) s = .next { s with mode := .user, eax := -1 } := by
  obtain ⟨s, -, reached, checked⟩ := exists_of_runActions
    ["idle", "autotest", "a"] (firstTicks ++
      [.call (.start "a" 4096 200), .resume, .call (.exit 3), .resume])
    (fun s => s.mode == .user && (s.procs 2).any fun p =>
      p.state == .zombie && p.pid == 2) (by decide) (by decide)
    (by decide +kernel)
  rw [Bool.and_eq_true, beq_iff_eq, Option.any_eq_true] at checked
  obtain ⟨user, p, record, checked⟩ := checked
  rw [Bool.and_eq_true, beq_iff_eq, beq_iff_eq] at checked
  have dead := zombies_stay_dead reached record checked.1 .refl
  have refuses := (dead.2 p record checked.1).2.2.1 user 1 (.kill p.pid)
    (by simp)
  rw [checked.2] at refuses
  exact ⟨s, p, reached, record, checked.1, checked.2,
    (dead.1 .tick s (.move (.refl s))).2 .activable (by simp), refuses⟩

end Runs

end Nebulea
