import Nebulea.KernelZombies

/-!
# Suspended processes between two moves

What a move does to `skip_message` and to the saved message of a process, how a
process that is off the processor becomes activable, and which context a
process off the processor is suspended in.
-/

namespace Nebulea

namespace Move

/-- The move assigns the `skip_message` of `x`. -/
def WritesSkip (x : ProcRef) : Move → Prop
  | .clearSkip r _ | .refuse r _ | .flush r _ _ => x = r
  | _ => False

/-- The move assigns the saved message of `x`. -/
def WritesMessage (s : KState) (x : ProcRef) : Move → Prop
  | .awaitSend _ _ _ _ | .put _ _ _ _ | .handOver _ _ _ _ _ _ _ =>
      x = s.running
  | _ => False

/-- The ways in which a process that is off the processor becomes activable. -/
inductive Wakes (x : ProcRef) (p : Process) : Move → Prop
  | sleeper (m : Move) (asleep : p.state = .asleep) : Wakes x p m
  | father (m : Move) (waiting : p.state = .waitingPid) : Wakes x p m
  | ofSem (m : Move) (y : SemRef) (link : p.link = some (.sem y)) : Wakes x p m
  | flush (q : QueueRef) : Wakes x p (.flush x p q)
  | refill (q : QueueRef) (content : MessageQueue) :
      Wakes x p (.refill q content x p)

/-- What a move does to the fields of the record of `x` that belong to message
queues. -/
structure Carries (s : KState) (x : ProcRef) (m : Move) (p n : Process) :
    Prop where
  skip : n.skipMessage = p.skipMessage ∨ m.WritesSkip x
  message : n.message = p.message ∨ m.WritesMessage s x
  activable : n.state = .activable →
    p.state = .activable ∨ x = s.running ∨ m.Wakes x p

namespace Carries

variable {s : KState} {x : ProcRef} {m : Move} {p n : Process}

/-- The three fields stay as they are. -/
theorem same (skip : n.skipMessage = p.skipMessage)
    (message : n.message = p.message) (state : n.state = p.state) :
    Carries s x m p n :=
  ⟨.inl skip, .inl message, fun activable => .inl (state ▸ activable)⟩

/-- The process becomes activable. -/
theorem woken (skip : n.skipMessage = p.skipMessage ∨ m.WritesSkip x)
    (message : n.message = p.message)
    (wakes : x = s.running ∨ m.Wakes x p) : Carries s x m p n :=
  ⟨skip, .inl message, fun _ => .inr wakes⟩

/-- The process goes on in a state in which it is not activable. -/
theorem left (skip : n.skipMessage = p.skipMessage)
    (message : n.message = p.message ∨ m.WritesMessage s x)
    (state : n.state ≠ .activable) : Carries s x m p n :=
  ⟨.inl skip, message, fun activable => absurd activable state⟩

end Carries

variable {s : KState} {m : Move} {x : ProcRef}

/-- Processes released together with the others of their semaphore. -/
theorem releaseAll_carries (ok : Coherent s) {y : SemRef} {p n : Process}
    (record : s.procs x = some p) (link : p.link = some (.sem y))
    (found : (s.release y (s.lists (.sem y)).reverse).procs x = some n) :
    m.Carries s x p n := by
  have kept : ∃ c, (s.release y (s.lists (.sem y)).reverse).procs x = some c ∧
      c.skipMessage = p.skipMessage ∧ c.message = p.message := by
    refine KState.releaseAll_keeps
      (I := fun t => ∃ c, t.procs x = some c ∧
        c.skipMessage = p.skipMessage ∧ c.message = p.message)
      ok ?_ ⟨p, record, rfl, rfl⟩
    rintro t w content ⟨c, isRecord, skip, message⟩ isContent -
    by_cases isW : x = w
    · subst isW
      rw [isRecord, Option.some.injEq] at isContent
      subst isContent
      exact ⟨_, Function.update_self .., skip, message⟩
    · exact ⟨c, by simpa [isW] using isRecord, skip, message⟩
  obtain ⟨c, isRecord, skip, message⟩ := kept
  rw [found, Option.some.injEq] at isRecord
  subst isRecord
  exact .woken (.inl skip) message (.inr (.ofSem m y link))

/-- Every record found after a move is new or was found before it. -/
theorem carries_after (ok : Coherent s) (applies : m.Guard s) {n : Process}
    (found : (m.effect s).procs x = some n) (old : x ≠ s.nextRef) :
    ∃ p, s.procs x = some p ∧ m.Carries s x p n := by
  by_cases touched : m.Touches s x
  swap
  · rw [procs_untouched ok applies touched] at found
    obtain ⟨p, record, rfl⟩ := Option.map_eq_some_iff.mp found
    obtain ⟨stack, registers, isSaved⟩ := m.saves_eq s x p
    exact ⟨p, record, by rw [isSaved]; exact .same rfl rfl rfl⟩
  have becomes {p c : Process} (record : s.procs x = some p)
      (isNew : (m.effect s).procs x = some c) (carries : m.Carries s x p c) :
      ∃ p, s.procs x = some p ∧ m.Carries s x p n := by
    rw [isNew, Option.some.injEq] at found
    exact ⟨p, record, found ▸ carries⟩
  cases m with
  | yield p =>
      cases touched
      exact becomes applies.1 (Function.update_self ..)
        (.woken (.inl rfl) rfl (.inl rfl))
  | sleep p wakeup =>
      cases touched
      exact becomes applies.1 (Function.update_self ..)
        (.left rfl (.inl rfl) (by simp))
  | awaitChild p =>
      cases touched
      exact becomes applies.1 (Function.update_self ..)
        (.left rfl (.inl rfl) (by simp))
  | awaitSend p fid q message =>
      cases touched
      exact becomes applies.1.1 (Function.update_self ..)
        (.left rfl (.inr rfl) (by simp))
  | awaitReceive p fid q =>
      cases touched
      exact becomes applies.1.1 (Function.update_self ..)
        (.left rfl (.inl rfl) (by simp))
  | awaitSem p sem y content =>
      cases touched
      exact becomes applies.2.1.1 (Function.update_self ..)
        (.left rfl (.inl rfl) (by simp))
  | put q content p message =>
      cases touched
      have onCpu := applies.2.2.1
      exact becomes onCpu.1 (Function.update_self ..)
        (.left rfl (.inr rfl) (by simp [onCpu.2]))
  | wakeSleeper r p =>
      cases touched
      exact becomes applies.1 (Function.update_self ..)
        (.woken (.inl rfl) rfl (.inr (.sleeper _ applies.2.1)))
  | flush r p q =>
      cases touched
      exact becomes applies.1.2 (Function.update_self ..)
        (.woken (.inr rfl) rfl (.inr (.flush q)))
  | refill q content r p =>
      cases touched
      exact becomes applies.2.2.2.2.2 (Function.update_self ..)
        (.woken (.inl rfl) rfl (.inr (.refill q content)))
  | postWake y content r p clear =>
      cases touched
      have next := applies.2.2
      exact becomes next.2 (Function.update_self ..)
        (.woken (.inl rfl) rfl (.inr (.ofSem _ y (ok.link_of_nextOut next))))
  | endFatherless pid r p how =>
      cases touched
      exact becomes applies.1.2 (Function.update_self ..)
        (.left rfl (.inl rfl) (by simp))
  | finish pid r p =>
      cases touched
      exact becomes applies.1.2 (Function.update_self ..)
        (.left rfl (.inl rfl) (by simp))
  | orphan r p =>
      cases touched
      exact becomes applies.1 (Function.update_self ..) (.same rfl rfl rfl)
  | reprio r p newprio =>
      cases touched
      exact becomes applies.1 (Function.update_self ..) (.same rfl rfl rfl)
  | clearSkip r p =>
      cases touched
      exact becomes applies (Function.update_self ..)
        ⟨.inr rfl, .inl rfl, fun activable => .inl activable⟩
  | refuse r p =>
      cases touched
      exact becomes applies.1 (Function.update_self ..)
        ⟨.inr rfl, .inl rfl, fun activable => .inl activable⟩
  | purge keep =>
      have listed : x ∈ s.lists .finished := touched
      obtain ⟨p, record, -⟩ := ok.record_of_mem listed
      refine ⟨p, record, ?_⟩
      simp only [effect, KState.purge_procs, if_pos listed] at found
      split at found
      · rw [record, Option.map_some, Option.some.injEq] at found
        rw [← found]
        exact .same rfl rfl rfl
      · cases found
  | dispatch k r p old restored =>
      cases touched
      have isNew := dispatch_procs (s := s) (k := k) (r := x) (p := p)
        (o := old) (c := restored) x
      rw [if_pos rfl] at isNew
      exact becomes applies.2.1.2 isNew (.left rfl (.inl rfl) (by simp))
  | create pid prio p children =>
      obtain ⟨-, onCpu, -⟩ := applies
      have isRunning := touched.resolve_left old
      subst isRunning
      have isNew :
          ((Move.create pid prio p children).effect s).procs s.running = _ :=
        create_procs (ok.lt_nextRef onCpu.1).ne s.running
      rw [if_neg old, if_pos rfl] at isNew
      exact becomes onCpu.1 isNew (.same rfl rfl rfl)
  | createElect pid prio p children =>
      obtain ⟨-, onCpu, -⟩ := applies
      have isRunning := touched.resolve_left old
      subst isRunning
      have isNew : ((Move.createElect pid prio p children).effect s).procs
          s.running = _ :=
        createElect_procs (ok.lt_nextRef onCpu.1).ne s.running
      rw [if_neg old, if_pos rfl] at isNew
      exact becomes onCpu.1 isNew (.woken (.inl rfl) rfl (.inl rfl))
  | handOver q content message sender r p restored =>
      obtain ⟨-, -, -, next, onCpu, -⟩ := applies
      have isNew := handOver_procs (q := q) (c := content) (m := message)
        (n := sender) (p := p) (k := restored)
        (ok.running_ne_of_nextOut next onCpu) x
      by_cases isR : x = r
      · subst isR
        rw [if_pos rfl] at isNew
        exact becomes next.2 isNew (.left rfl (.inl rfl) (by simp))
      · have isRunning := touched.resolve_left isR
        subst isRunning
        rw [if_neg isR, if_pos rfl] at isNew
        exact becomes onCpu.1 isNew
          ⟨.inl rfl, .inr rfl, fun _ => .inr (.inl rfl)⟩
  | endProcess pid r p how father =>
      obtain ⟨has, -, -, -, woken⟩ := applies
      cases father with
      | none =>
          have isR : x = r := by
            rcases touched with isR | ⟨f, content, isFather, -⟩
            · exact isR
            · cases isFather
          subst isR
          exact becomes has.2 (Function.update_self ..)
            (.left rfl (.inl rfl) (by simp))
      | some father =>
          obtain ⟨f, content⟩ := father
          obtain ⟨distinct, record, link, -⟩ := woken
          have isNew := endProcess_procs (s := s) (i := pid) (p := p)
            (f := content) (h := how) distinct x
          by_cases isF : x = f
          · subst isF
            rw [if_pos rfl] at isNew
            have waiting := (ok.procs.linked x content record).state_of_link link
            exact becomes record isNew
              (.woken (.inl rfl) rfl (.inr (.father _ waiting)))
          · have isR : x = r := by
              rcases touched with isR | ⟨g, c, isFather, isG⟩
              · exact isR
              · cases isFather
                exact absurd isG isF
            subst isR
            rw [if_neg isF, if_pos rfl] at isNew
            exact becomes has.2 isNew (.left rfl (.inl rfl) (by simp))
  | reap pid r p caller children =>
      obtain ⟨-, -, has, -, -, distinct, onCpu, -⟩ := applies
      have isNew := reap_procs (i := pid) (p := p) (c := caller)
        (l := children) distinct x
      by_cases isR : x = r
      · subst isR
        rw [if_pos rfl] at isNew
        exact becomes has.2 isNew (.left rfl (.inl rfl) (by simp))
      · have isRunning := touched.resolve_left isR
        subst isRunning
        rw [if_neg isR, if_pos rfl] at isNew
        exact becomes onCpu.1 isNew (.same rfl rfl rfl)
  | resetSem y content count | deleteSem sem y =>
      obtain ⟨p, record, link⟩ := ok.record_of_mem touched
      exact ⟨p, record, releaseAll_carries ok record link found⟩
  | settle | fault | note | tick | newQueue | deleteQueue | resetQueue | take
  | receive | newSem | acquire | post | clearReset => exact absurd touched id

/-- A process off the processor is suspended where it was, or has just left the
processor or been created. -/
theorem suspended_after (ok : Coherent s) (applies : m.Guard s) {n : Process}
    (found : (m.effect s).procs x = some n)
    (other : x ≠ (m.effect s).running) :
    x ≠ s.running ∧ (∃ p, s.procs x = some p ∧ n.stack = p.stack) ∨
      x = s.running ∧ m.Leaves n.stack ∨
        x = s.nextRef ∧ n.stack = .fresh := by
  by_cases isRunning : x = s.running
  swap
  · rcases m.stack_after ok applies found with same | ⟨isRunning', -⟩ | isNew
    · exact .inl ⟨isRunning, same⟩
    · exact absurd isRunning' isRunning
    · exact .inr (.inr isNew)
  subst isRunning
  refine .inr (.inl ⟨rfl, ?_⟩)
  by_cases stays : ¬ m.Switches
  · exact absurd (m.unswitched stays ok applies).running.symm other
  rw [not_not] at stays
  cases m with
  | dispatch k r p old restored =>
      rw [dispatch_procs, if_neg (show s.running ≠ r from other)] at found
      obtain ⟨before, -, rfl⟩ := Option.map_eq_some_iff.mp found
      simp only [if_true]
      exact .dispatch k r p old restored
  | create pid prio p children => exact absurd rfl other
  | createElect pid prio p children =>
      obtain ⟨-, onCpu, -⟩ := applies
      have notNew := (ok.lt_nextRef onCpu.1).ne
      rw [createElect_procs notNew, if_neg notNew, if_pos rfl,
        Option.some.injEq] at found
      rw [← found]
      exact .createElect pid prio p children _
  | handOver q content message sender r p restored =>
      obtain ⟨-, -, -, next, onCpu, -⟩ := applies
      rw [handOver_procs (ok.running_ne_of_nextOut next onCpu),
        if_neg (show s.running ≠ r from other), if_pos rfl,
        Option.some.injEq] at found
      rw [← found]
      exact .handOver q content message sender r p restored
  | _ => exact absurd stays id

/-- The moves that take `x`, with record `p`, out of the list of `q`. -/
inductive Dislodges (x : ProcRef) (p : Process) (q : QueueRef) : Move → Prop
  | flush : Dislodges x p q (.flush x p q)
  | refill (content : MessageQueue) : Dislodges x p q (.refill q content x p)
  | handOver (content : MessageQueue) (message : Int) (sender : Process)
      (restored : Context) :
      Dislodges x p q (.handOver q content message sender x p restored)
  | endProcess (pid : Int) (how : Ending)
      (father : Option (ProcRef × Process)) :
      Dislodges x p q (.endProcess pid x p how father)
  | endFatherless (pid : Int) (how : Ending) :
      Dislodges x p q (.endFatherless pid x p how)

/-- The process goes on waiting in the call it is suspended in. -/
structure Lingers (p n : Process) : Prop where
  state : n.state = p.state
  link : n.link = p.link
  message : n.message = p.message
  stack : n.stack = p.stack
  pid : n.pid = p.pid

/-- The moves that take `x`, with record `p`, out of a list. -/
inductive Unlinks (x : ProcRef) (p : Process) : Head → Move → Prop
  | dislodge (q : QueueRef) (m : Move) (dislodges : m.Dislodges x p q) :
      Unlinks x p (.queue q) m
  | postWake (y : SemRef) (content : Semaphore) (clear : Bool) :
      Unlinks x p (.sem y) (.postWake y content x p clear)
  | resetSem (y : SemRef) (content : Semaphore) (count : Int) :
      Unlinks x p (.sem y) (.resetSem y content count)
  | deleteSem (sem : Int) (y : SemRef) :
      Unlinks x p (.sem y) (.deleteSem sem y)
  | dispatch (k : Context) (old : ProcRef) (restored : Context) :
      Unlinks x p .activable (.dispatch k x p old restored)
  | father (pid : Int) (r : ProcRef) (child : Process) (how : Ending) :
      Unlinks x p .waitingPid (.endProcess pid r child how (some (x, p)))
  | purge (keep : Option ProcRef) : Unlinks x p .finished (.purge keep)
  | endProcess (h : Head) (pid : Int) (how : Ending)
      (father : Option (ProcRef × Process)) :
      Unlinks x p h (.endProcess pid x p how father)
  | endFatherless (h : Head) (pid : Int) (how : Ending) :
      Unlinks x p h (.endFatherless pid x p how)

/-- A process in a list stays there until a move takes it out. -/
theorem linked_after (ok : Coherent s) (applies : m.Guard s) {p : Process}
    {h : Head} (record : s.procs x = some p) (link : p.link = some h) :
    (∃ n, (m.effect s).procs x = some n ∧ Rests p n) ∨ m.Unlinks x p h := by
  by_cases touched : m.Touches s x
  swap
  · left
    obtain ⟨stack, registers, isSaved⟩ := m.saves_eq s x p
    refine ⟨m.saves s x p, ?_, ?_⟩
    · rw [procs_untouched ok applies touched, record]
      rfl
    · rw [isSaved]
      exact ⟨rfl, rfl, rfl, rfl, rfl, rfl⟩
  have same {r : ProcRef} {n : Process} (isR : x = r)
      (found : s.procs r = some n) : n = p := by
    rw [← isR, record, Option.some.injEq] at found
    exact found.symm
  have unlinked (isNone : p.link = none) {P : Prop} : P := by
    cases isNone.symm.trans link
  have occupied {c : Process} (isRunning : x = s.running) (onCpu : s.OnCpu c)
      {P : Prop} : P := by
    cases same isRunning onCpu.1
    exact unlinked (ok.link_of_elected onCpu.1 onCpu.2)
  have sameList {g : Head} (member : x ∈ s.lists g) : h = g := by
    have isLink := ok.lists.link_of_mem record member
    exact Option.some.inj (link.symm.trans isLink)
  have nextOf {g : Head} {r : ProcRef} {n : Process} (next : s.NextOut g r n)
      (isR : x = r) : n = p ∧ h = g :=
    ⟨same isR next.2, sameList (isR ▸ List.mem_of_getLast? next.1)⟩
  have rewritten {n : Process} (isNew : (m.effect s).procs x = some n)
      (rests : Rests p n) :
      ∃ n, (m.effect s).procs x = some n ∧ Rests p n :=
    ⟨n, isNew, rests⟩
  cases m with
  | yield | sleep | awaitChild => exact occupied touched applies
  | awaitSend | awaitReceive => exact occupied touched applies.1
  | awaitSem => exact occupied touched applies.2.1
  | put => exact occupied touched applies.2.2.1
  | wakeSleeper r n =>
      cases same touched applies.1
      have linked := ok.procs.linked x p record
      refine unlinked ?_
      simpa [KState.LinkOk, applies.2.1] using linked
  | finish pid r n =>
      cases same touched applies.1.2
      have linked := ok.procs.linked x p record
      refine unlinked ?_
      simpa [KState.LinkOk, applies.2.1] using linked
  | create pid prio n children =>
      rcases touched with isNew | isRunning
      · exact absurd isNew (ok.lt_nextRef record).ne
      · exact occupied isRunning applies.2.1
  | createElect pid prio n children =>
      rcases touched with isNew | isRunning
      · exact absurd isNew (ok.lt_nextRef record).ne
      · exact occupied isRunning applies.2.1
  | reap pid r n caller children =>
      obtain ⟨-, -, has, isNone, -, -, onCpu, -⟩ := applies
      rcases touched with isR | isRunning
      · cases same isR has.2
        exact unlinked isNone
      · exact occupied isRunning onCpu
  | orphan r n =>
      cases same touched applies.1
      cases touched
      exact .inl (rewritten (Function.update_self ..)
        ⟨rfl, rfl, rfl, rfl, rfl, rfl⟩)
  | reprio r n newprio =>
      cases same touched applies.1
      cases touched
      exact .inl (rewritten (Function.update_self ..)
        ⟨rfl, rfl, rfl, rfl, rfl, rfl⟩)
  | clearSkip r n =>
      cases same touched applies
      cases touched
      exact .inl (rewritten (Function.update_self ..)
        ⟨rfl, rfl, rfl, rfl, rfl, rfl⟩)
  | refuse r n =>
      cases same touched applies.1
      cases touched
      exact .inl (rewritten (Function.update_self ..)
        ⟨rfl, rfl, rfl, rfl, rfl, rfl⟩)
  | purge keep =>
      cases sameList touched
      exact .inr (.purge keep)
  | resetSem y content count =>
      cases sameList touched
      exact .inr (.resetSem y content count)
  | deleteSem sem y =>
      cases sameList touched
      exact .inr (.deleteSem sem y)
  | dispatch k r n old restored =>
      obtain ⟨rfl, rfl⟩ := nextOf applies.2.1 touched
      cases touched
      exact .inr (.dispatch k old restored)
  | postWake y content r n clear =>
      obtain ⟨rfl, rfl⟩ := nextOf applies.2.2 touched
      cases touched
      exact .inr (.postWake y content clear)
  | flush r n q =>
      obtain ⟨rfl, rfl⟩ := nextOf applies.1 touched
      cases touched
      exact .inr (.dislodge q _ .flush)
  | refill q content r n =>
      obtain ⟨rfl, rfl⟩ := nextOf applies.2.2.2.2 touched
      cases touched
      exact .inr (.dislodge q _ (.refill content))
  | handOver q content message sender r n restored =>
      obtain ⟨-, -, -, next, onCpu, -⟩ := applies
      rcases touched with isR | isRunning
      · obtain ⟨rfl, rfl⟩ := nextOf next isR
        cases isR
        exact .inr (.dislodge q _ (.handOver content message sender restored))
      · exact occupied isRunning onCpu
  | endFatherless pid r n how =>
      cases same touched applies.1.2
      cases touched
      exact .inr (.endFatherless h pid how)
  | endProcess pid r n how father =>
      obtain ⟨has, -, -, -, woken⟩ := applies
      rcases touched with isR | ⟨f, content, rfl, isF⟩
      · cases same isR has.2
        cases isR
        exact .inr (.endProcess h pid how father)
      · cases same isF woken.2.1
        cases isF
        cases link.symm.trans woken.2.2.1
        exact .inr (.father pid r n how)
  | settle | fault | note | tick | newQueue | deleteQueue | resetQueue | take
  | receive | newSem | acquire | post | clearReset => exact absurd touched id

/-- A process in the list of a queue waits on until a move takes it out. -/
theorem rests_after (ok : Coherent s) (applies : m.Guard s) {p : Process}
    {q : QueueRef} (record : s.procs x = some p)
    (link : p.link = some (.queue q)) :
    (∃ n, (m.effect s).procs x = some n ∧ Rests p n) ∨
      m.Dislodges x p q := by
  refine (linked_after ok applies record link).imp_right ?_
  intro unlinks
  cases unlinks with
  | dislodge q m dislodges => exact dislodges
  | endProcess h pid how father => exact .endProcess pid how father
  | endFatherless h pid how => exact .endFatherless pid how

/-- A process that gets the processor is in no list. -/
theorem link_of_running_after (ok : Coherent s) (applies : m.Guard s)
    {n : Process} (found : (m.effect s).procs x = some n)
    (other : x ≠ s.running) (elected : x = (m.effect s).running) :
    n.link = none ∨ x = s.nextRef := by
  by_cases stays : ¬ m.Switches
  · exact absurd (elected.trans (m.unswitched stays ok applies).running) other
  rw [not_not] at stays
  cases m with
  | dispatch k r p old restored =>
      rw [dispatch_procs, if_pos (show x = r from elected),
        Option.some.injEq] at found
      rw [← found]
      exact .inl rfl
  | create => exact absurd elected other
  | createElect => exact .inr elected
  | handOver q content message sender r p restored =>
      obtain ⟨-, -, -, next, onCpu, -⟩ := applies
      rw [handOver_procs (ok.running_ne_of_nextOut next onCpu),
        if_pos (show x = r from elected), Option.some.injEq] at found
      rw [← found]
      exact .inl rfl
  | _ => exact absurd stays id

/-- A suspended process in a list stays there as it is until a move takes it
out. -/
theorem lingers_after (ok : Coherent s) (applies : m.Guard s) {p : Process}
    {h : Head} (record : s.procs x = some p) (link : p.link = some h)
    (other : x ≠ s.running) :
    (∃ n, (m.effect s).procs x = some n ∧ Lingers p n ∧
        x ≠ (m.effect s).running) ∨ m.Unlinks x p h := by
  have old := (ok.lt_nextRef record).ne
  rcases linked_after ok applies record link with ⟨n, found, rests⟩ | unlinks
  swap
  · exact .inr unlinks
  refine .inl ⟨n, found, ⟨rests.state, rests.link, rests.message, ?_,
    rests.pid⟩, ?_⟩
  · rcases m.stack_after ok applies found with
      ⟨c, isRecord, stack⟩ | ⟨isRunning, -⟩ | ⟨isNew, -⟩
    · rw [record, Option.some.injEq] at isRecord
      rw [isRecord, stack]
    · exact absurd isRunning other
    · exact absurd isNew old
  · intro elected
    rcases link_of_running_after ok applies found other elected with
      unlinked | isNew
    · cases (unlinked.symm.trans rests.link).trans link
    · exact absurd isNew old

/-- A suspended process in the list of a queue stays there as it is until a move
takes it out. -/
theorem queued_after (ok : Coherent s) (applies : m.Guard s) {p : Process}
    {q : QueueRef} (record : s.procs x = some p)
    (link : p.link = some (.queue q)) (other : x ≠ s.running) :
    (∃ n, (m.effect s).procs x = some n ∧ Lingers p n ∧
        x ≠ (m.effect s).running) ∨ m.Dislodges x p q := by
  rcases lingers_after ok applies record link other with lingers | unlinks
  · exact .inl lingers
  · cases unlinks with
    | dislodge q m dislodges => exact .inr dislodges
    | endProcess h pid how father => exact .inr (.endProcess pid how father)
    | endFatherless h pid how => exact .inr (.endFatherless pid how)

/-- The contexts that the processor restores. -/
theorem kernel_before (applies : m.Guard s) {k : Context}
    (mode : (m.effect s).mode = .kernel k) :
    (∃ left r p old, m = .dispatch left r p old k) ∨
      (∃ pid prio p children, m = .createElect pid prio p children ∧
        k = .fresh) ∨
      (∃ q content message sender r p,
        m = .handOver q content message sender r p k) ∨
      s.mode = .kernel k := by
  by_cases keeps : ¬ m.SetsMode
  · exact .inr (.inr (.inr ((m.mode_effect keeps).symm.trans mode)))
  rw [not_not] at keeps
  cases m with
  | settle mode' eax => cases applies.1.symm.trans mode
  | fault | reap | refuse | receive => cases mode
  | dispatch left r p old restored =>
      cases mode
      exact .inl ⟨left, r, p, old, rfl⟩
  | createElect pid prio p children =>
      cases mode
      exact .inr (.inl ⟨pid, prio, p, children, rfl, rfl⟩)
  | handOver q content message sender r p restored =>
      cases mode
      exact .inr (.inr (.inl ⟨q, content, message, sender, r, p, rfl⟩))
  | _ => exact absurd keeps id

end Move

end Nebulea
