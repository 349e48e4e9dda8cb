import Nebulea.KernelFrames

/-!
# Families in every run

A run without `sdelete`, and without calls of `waitpid` for one given child,
never finishes a process that has not ended.  In such runs every father lists
its children, no zombie loses its father, and no father waits in vain.
-/

namespace Nebulea

/-! ## Moves -/

section Moves

variable {s t : KState}

/-- An entry of the table leads to the new process or to an old one. -/
theorem KState.HasPid.before_create (ok : Coherent s) {pid : Int}
    {p n c : Process} (onCpu : s.OnCpu p)
    (records : ∀ x, t.procs x =
      if x = s.nextRef then some c else if x = s.running then some n
      else s.procs x)
    (table : t.processTable =
      Function.update s.processTable pid (some s.nextRef))
    {i : Int} {x : ProcRef} {m : Process} (has : t.HasPid i x m) :
    i = pid ∧ m = c ∨ s.HasPid i x p ∧ m = n ∨ s.HasPid i x m := by
  obtain ⟨isEntry, found⟩ := has
  rw [records] at found
  by_cases isPid : i = pid
  · left
    rw [isPid, table, Function.update_self, Option.some.injEq] at isEntry
    rw [if_pos isEntry.symm, Option.some.injEq] at found
    exact ⟨isPid, found.symm⟩
  · right
    rw [table, Function.update_of_ne isPid] at isEntry
    obtain ⟨-, -, q, record, -⟩ := ok.procs.table i x isEntry
    rw [if_neg (ok.lt_nextRef record).ne] at found
    split at found
    · rename_i isRunning
      cases found
      exact .inl ⟨⟨isEntry, isRunning ▸ onCpu.1⟩, rfl⟩
    · exact .inr ⟨isEntry, found⟩

theorem Fathered.create (fathered : Fathered s) (ok : Coherent s) {pid : Int}
    {p n c : Process} (onCpu : s.OnCpu p)
    (records : ∀ x, t.procs x =
      if x = s.nextRef then some c else if x = s.running then some n
      else s.procs x)
    (table : t.processTable =
      Function.update s.processTable pid (some s.nextRef))
    (isNew : c.state ≠ .zombie) (isFather : n.state ≠ .zombie) :
    Fathered t := by
  intro i x m has zombie
  rcases KState.HasPid.before_create ok onCpu records table has with
    ⟨-, rfl⟩ | ⟨-, rfl⟩ | had
  · exact absurd zombie isNew
  · exact absurd zombie isFather
  · exact fathered i x m had zombie

/-- A new process is listed by the one on the processor. -/
theorem Kinship.create (kinship : Kinship s) (ok : Coherent s)
    {pid : Int} {p n c : Process} {child : Child} {children : List Child}
    (onCpu : s.OnCpu p) (entry : s.processTable s.currentPid = some s.running)
    (isChildren : p.children = some children)
    (freePid : s.processTable pid = none)
    (records : ∀ x, t.procs x =
      if x = s.nextRef then some c else if x = s.running then some n
      else s.procs x)
    (table : t.processTable =
      Function.update s.processTable pid (some s.nextRef))
    (isNew : c.fatherPid = s.currentPid ∧ c.state ≠ .zombie)
    (isFather : n.fatherPid = p.fatherPid ∧
      n.children = some (addChild child children) ∧ n.Living)
    (isChild : child.pid = pid) : Kinship t := by
  have notIdle : s.running ≠ idleRef := by
    intro isIdle
    have noChildren := (kinship.idle p (isIdle ▸ onCpu.1)).2.1
    rw [isChildren] at noChildren
    cases noChildren
  have living : p.Living := by simp [Process.Living, onCpu.2]
  have perm := List.perm_orderedInsert (fun first second : Child =>
    first.priority ≤ second.priority) child children
  have others {i : Int} (other : i ≠ pid) :
      t.processTable i = s.processTable i := by
    rw [table, Function.update_of_ne other]
  have notNewPid {i : Int} {x : ProcRef} (isEntry : s.processTable i = some x) :
      i ≠ pid := by
    rintro rfl
    rw [freePid] at isEntry
    cases isEntry
  have back {i : Int} {x : ProcRef} {m : Process} (has : t.HasPid i x m) :=
    KState.HasPid.before_create ok onCpu records table has
  have forth {i father : Int} (listed : s.ListedBy i father) :
      t.ListedBy i father := by
    obtain ⟨x, q, l, has, alive, isList, member⟩ := listed
    have isEntry : t.processTable father = some x :=
      (others (notNewPid has.1)).trans has.1
    have after := records x
    rw [if_neg (ok.lt_nextRef has.2).ne] at after
    by_cases isRunning : x = s.running
    · subst isRunning
      have same := has.2.symm.trans onCpu.1
      rw [Option.some.injEq] at same
      subst same
      rw [isChildren, Option.some.injEq] at isList
      subst isList
      rw [if_pos rfl] at after
      refine ⟨s.running, n, _, ⟨isEntry, after⟩, isFather.2.2, isFather.2.1, ?_⟩
      refine (perm.map Child.pid).mem_iff.mpr ?_
      exact List.mem_cons_of_mem _ member
    · rw [if_neg isRunning, has.2] at after
      exact ⟨x, q, l, ⟨isEntry, after⟩, alive, isList, member⟩
  constructor
  · intro i x m has notIdle' isSon
    rcases back has with ⟨rfl, rfl⟩ | ⟨had, rfl⟩ | had
    · rw [isNew.1]
      have after := records s.running
      rw [if_neg (ok.lt_nextRef onCpu.1).ne, if_pos rfl] at after
      refine ⟨s.running, n, _, ⟨(others (notNewPid entry)).trans entry, after⟩,
        isFather.2.2, isFather.2.1, ?_⟩
      refine (perm.map Child.pid).mem_iff.mpr ?_
      rw [List.map_cons, isChild]
      exact List.mem_cons_self
    · rw [isFather.1] at isSon ⊢
      exact forth (kinship.listed i x p had notIdle' isSon)
    · exact forth (kinship.listed i x m had notIdle' isSon)
  · exact kinship.zombie.create ok onCpu records table isNew.2 isFather.2.2.1
  · intro m found
    have isOld : idleRef ≠ s.nextRef :=
      (Nat.zero_lt_of_lt (ok.lt_nextRef onCpu.1)).ne
    rw [records, if_neg isOld, if_neg notIdle.symm] at found
    exact kinship.idle m found

/-- An entry of the table that stays leads to the same process. -/
theorem KState.HasPid.before_reap (ok : Coherent s) {pid : Int} {r : ProcRef}
    {p caller : Process} {children : List Child} (has : s.HasPid pid r p)
    (distinct : r ≠ s.running) (onCpu : s.OnCpu caller) {i : Int}
    {x : ProcRef} {m : Process}
    (stays : ((Move.reap pid r p caller children).effect s).HasPid i x m) :
    i ≠ pid ∧ ∃ q, s.HasPid i x q ∧ m.fatherPid = q.fatherPid ∧
      m.state = q.state := by
  obtain ⟨isEntry, found⟩ := stays
  have other : i ≠ pid := by
    rintro rfl
    simp [Move.effect] at isEntry
  have isEntry' : s.processTable i = some x := by
    simpa [Move.effect, other] using isEntry
  obtain ⟨-, -, q, record, -⟩ := ok.procs.table i x isEntry'
  have notR : x ≠ r := by
    rintro rfl
    exact other (ok.pid_eq_of_ref ⟨isEntry', record⟩ has)
  rw [Move.reap_procs distinct, if_neg notR] at found
  refine ⟨other, ?_⟩
  split at found
  · rename_i isRunning
    cases found
    exact ⟨caller, ⟨isEntry', isRunning ▸ onCpu.1⟩, rfl, rfl⟩
  · exact ⟨m, ⟨isEntry', found⟩, rfl, rfl⟩

theorem Fathered.reap (fathered : Fathered s) (ok : Coherent s) {pid : Int}
    {r : ProcRef} {p caller : Process} {children : List Child}
    (has : s.HasPid pid r p) (distinct : r ≠ s.running)
    (onCpu : s.OnCpu caller) :
    Fathered ((Move.reap pid r p caller children).effect s) := by
  intro i x m stays zombie
  obtain ⟨-, q, had, sameFather, sameState⟩ :=
    KState.HasPid.before_reap ok has distinct onCpu stays
  rw [sameFather]
  exact fathered i x q had (sameState ▸ zombie)

/-- A zombie leaves the table and the list of its father. -/
theorem Kinship.reap (kinship : Kinship s) (sound : Sound s) {pid : Int}
    {r : ProcRef} {p caller : Process} {children : List Child}
    (applies : (Move.reap pid r p caller children).Guard s)
    (zombie : p.state = .zombie) :
    Kinship ((Move.reap pid r p caller children).effect s) := by
  have ok := sound.coherent
  obtain ⟨-, -, has, -, -, distinct, onCpu, before, isBefore, -, -, stays⟩ :=
    applies
  have records := Move.reap_procs (s := s) (i := pid) (p := p) (c := caller)
    (l := children) distinct
  have callerLiving : caller.Living := by simp [Process.Living, onCpu.2]
  have back {i : Int} {x : ProcRef} {m : Process}
      (has' : ((Move.reap pid r p caller children).effect s).HasPid i x m) :=
    KState.HasPid.before_reap ok has distinct onCpu has'
  have forth {i father : Int} (listed : s.ListedBy i father) (other : i ≠ pid) :
      ((Move.reap pid r p caller children).effect s).ListedBy i father := by
    obtain ⟨x, q, l, has', alive, isList, member⟩ := listed
    have notR : x ≠ r := by
      rintro rfl
      have same := has'.2.symm.trans has.2
      rw [Option.some.injEq] at same
      exact alive.1 (same ▸ zombie)
    have notPid : father ≠ pid := by
      rintro rfl
      exact notR (has'.unique has).1
    have isEntry : ((Move.reap pid r p caller children).effect s).processTable
        father = some x := by
      simpa [Move.effect, notPid] using has'.1
    have after := records x
    rw [if_neg notR] at after
    by_cases isRunning : x = s.running
    · subst isRunning
      have same := has'.2.symm.trans onCpu.1
      rw [Option.some.injEq] at same
      subst same
      rw [isBefore, Option.some.injEq] at isList
      subst isList
      rw [if_pos rfl] at after
      refine ⟨s.running, _, children, ⟨isEntry, after⟩, callerLiving, rfl, ?_⟩
      obtain ⟨child, inside, isPid⟩ := List.mem_map.mp member
      exact List.mem_map.mpr
        ⟨child, stays child inside (isPid ▸ other), isPid⟩
    · rw [if_neg isRunning, has'.2] at after
      exact ⟨x, q, l, ⟨isEntry, after⟩, alive, isList, member⟩
  constructor
  · intro i x m has' notIdle isSon
    obtain ⟨other, q, hadPid, sameFather, -⟩ := back has'
    rw [sameFather] at isSon ⊢
    exact forth (kinship.listed i x q hadPid notIdle isSon) other
  · exact kinship.zombie.reap ok has distinct onCpu
  · intro m found
    rw [records] at found
    split at found
    · rename_i isIdle
      exact absurd zombie (kinship.idle p (isIdle ▸ has.2)).1.1
    · split at found
      · rename_i isIdle
        have noChildren := (kinship.idle caller (isIdle ▸ onCpu.1)).2.1
        rw [isBefore] at noChildren
        cases noChildren
      · exact kinship.idle m found

/-- The moves that only the end of a process takes. -/
def Move.Bereaves : Move → Prop
  | .endProcess _ _ _ _ _ | .endFatherless _ _ _ _ | .orphan _ _ => True
  | _ => False

/-- The other moves leave no zombie without a father. -/
theorem Fathered.move (fathered : Fathered s) (ok : Coherent s) {m : Move}
    (applies : m.Guard s) (ends : ¬ m.Bereaves) : Fathered (m.effect s) := by
  cases m with
  | dispatch k r p old restored =>
      exact fathered.same (.dispatch ok applies.2.1)
  | handOver q content message sender r p restored =>
      exact fathered.same (.handOver ok applies)
  | create pid prio p children =>
      obtain ⟨-, onCpu, -⟩ := applies
      exact fathered.create ok onCpu
        (Move.create_procs (ok.lt_nextRef onCpu.1).ne) rfl (by simp)
        (by simp [onCpu.2])
  | createElect pid prio p children =>
      obtain ⟨-, onCpu, -⟩ := applies
      exact fathered.create ok onCpu
        (Move.createElect_procs (ok.lt_nextRef onCpu.1).ne) rfl
        (by simp [KState.created, Process.zeroed]) (by simp)
  | endProcess | endFatherless | orphan => exact absurd trivial ends
  | finish pid r p =>
      obtain ⟨has, zombie, fatherless, -⟩ := applies
      exact absurd fatherless (fathered pid r p has zombie)
  | reap pid r p caller children =>
      obtain ⟨-, -, has, -, -, distinct, onCpu, -⟩ := applies
      exact fathered.reap ok has distinct onCpu
  | settle | fault | note | tick | yield | sleep | awaitChild | awaitSend
  | awaitReceive | awaitSem | purge | wakeSleeper | reprio | clearSkip
  | refuse | newQueue | flush | deleteQueue | resetQueue | put | take
  | refill | receive | newSem | acquire | post | postWake | clearReset
  | resetSem | deleteSem =>
      refine fathered.same (Move.steady ?_ ok applies).sameKin
      trivial

/-- The moves that end no process keep families, if only zombies are reaped. -/
theorem Kinship.move (kinship : Kinship s) (sound : Sound s) {m : Move}
    (applies : m.Guard s)
    (ends : ¬ m.Bereaves)
    (reaps : ∀ pid r p caller children,
      m = .reap pid r p caller children → p.state = .zombie) :
    Kinship (m.effect s) := by
  have ok := sound.coherent
  cases m with
  | dispatch k r p old restored =>
      exact kinship.same (.dispatch ok applies.2.1) ok
  | handOver q content message sender r p restored =>
      exact kinship.same (.handOver ok applies) ok
  | create pid prio p children =>
      obtain ⟨-, onCpu, entry, isChildren, -, -, freePid, -⟩ := applies
      exact kinship.create ok onCpu entry isChildren freePid
        (Move.create_procs (ok.lt_nextRef onCpu.1).ne) rfl
        ⟨rfl, by simp⟩ ⟨rfl, rfl, by simp [Process.Living, onCpu.2]⟩ rfl
  | createElect pid prio p children =>
      obtain ⟨-, onCpu, entry, isChildren, -, -, freePid, -⟩ := applies
      exact kinship.create ok onCpu entry isChildren freePid
        (Move.createElect_procs (ok.lt_nextRef onCpu.1).ne) rfl
        ⟨rfl, by simp [KState.created, Process.zeroed]⟩
        ⟨rfl, rfl, by simp [Process.Living]⟩ rfl
  | endProcess | endFatherless | orphan => exact absurd trivial ends
  | finish pid r p =>
      obtain ⟨has, zombie, fatherless, -⟩ := applies
      exact absurd fatherless (kinship.zombie pid r p has zombie)
  | reap pid r p caller children =>
      exact kinship.reap sound applies (reaps pid r p caller children rfl)
  | settle | fault | note | tick | yield | sleep | awaitChild | awaitSend
  | awaitReceive | awaitSem | purge | wakeSleeper | reprio | clearSkip
  | refuse | newQueue | flush | deleteQueue | resetQueue | put | take
  | refill | receive | newSem | acquire | post | postWake | clearReset
  | resetSem | deleteSem =>
      refine kinship.same (Move.steady ?_ ok applies).sameKin ok
      trivial

/-! ## Fathers that wait -/

/-- Processes in `waitpid` wait for any child. -/
def AnyChild (s : KState) : Prop :=
  ∀ r p pid retvalp, s.procs r = some p → p.stack = .waitpid pid retvalp →
    pid < 0

theorem AnyChild.move (any : AnyChild s) {m : Move} (ok : Coherent s)
    (applies : m.Guard s)
    (asked : ∀ pid retvalp r p old restored,
      m = .dispatch (.waitpid pid retvalp) r p old restored → pid < 0) :
    AnyChild (m.effect s) := by
  intro x n pid retvalp found stack
  rcases m.stack_after ok applies found with
    ⟨p, record, same⟩ | ⟨-, leaves⟩ | ⟨-, fresh⟩
  · exact any x p pid retvalp record (same ▸ stack)
  · rw [stack] at leaves
    cases leaves with
    | dispatch _ r p old restored =>
        exact asked pid retvalp r p old restored rfl
  · simp [fresh] at stack

/-- A father that waits has a child, and none of its children is a zombie. -/
def Patient (s : KState) : Prop :=
  ∀ f p, s.procs f = some p → p.state = .waitingPid →
    (∃ c, s.HasSon c p.pid) ∧ ∀ c, ¬ s.HasZombieSon c p.pid

/-- Only `waitpid` makes a process wait for a child. -/
theorem Move.waiting_before {m : Move} (ok : Coherent s) (applies : m.Guard s)
    {x : ProcRef} {n : Process} (found : (m.effect s).procs x = some n)
    (waiting : n.state = .waitingPid) :
    (∃ p, s.procs x = some p ∧ p.state = .waitingPid ∧ n.pid = p.pid) ∨
      ∃ p, m = .awaitChild p ∧ s.OnCpu p ∧ n.pid = p.pid := by
  have blocks : n.state.Blocks := by
    rw [waiting]
    trivial
  rcases m.blocked_before ok applies found blocks with
    ⟨p, record, rests⟩ | ⟨suspends, -, p, onCpu, samePid⟩
  · exact .inl ⟨p, record, rests.state.symm.trans waiting, rests.pid⟩
  · right
    rw [waiting] at suspends
    cases m with
    | awaitChild q =>
        have same := applies.1.symm.trans onCpu.1
        rw [Option.some.injEq] at same
        exact ⟨q, rfl, applies, same ▸ samePid⟩
    | _ => cases suspends

/-- The sons of `father` and the zombies among them are the same. -/
structure SameSons (s t : KState) (father : Int) : Prop where
  kept : s.SonsKept t father
  zombies : ∀ c, t.HasZombieSon c father → s.HasZombieSon c father

theorem SameKin.sameSons (same : SameKin s t) (ok : Coherent s)
    (father : Int) : SameSons s t father where
  kept := by
    intro c x p has isSon
    obtain ⟨n, stays, kin⟩ := same.hasPid_forth ok has
    exact ⟨n, stays, kin.fatherPid.trans isSon, kin.zombie.mpr⟩
  zombies := by
    rintro c ⟨x, n, has, isSon, zombie⟩
    obtain ⟨p, had, kin⟩ := same.hasPid_back has
    exact ⟨x, p, had, kin.fatherPid.symm.trans isSon, kin.zombie.mp zombie⟩

/-- The end of a process adds a zombie son only to the father it wakes up. -/
theorem HasEnded.zombies (ok : Coherent s) {pid : Int} {r : ProcRef}
    {p : Process} (has : s.HasPid pid r p) (ended : HasEnded s pid r p t)
    {father c : Int} (other : p.fatherPid ≠ father)
    (son : t.HasZombieSon c father) : s.HasZombieSon c father := by
  obtain ⟨x, n, has', isSon, zombie⟩ := son
  have notPid : c ≠ pid := by
    rintro rfl
    exact other ((ended.ended x n has').2.1.symm.trans isSon)
  obtain ⟨q, had, kin⟩ := ended.hasPid_back ok has has' notPid
  exact ⟨x, q, had, kin.fatherPid.symm.trans isSon, kin.zombie.mp zombie⟩

/-- A process leaves the table that is no son of `father`. -/
theorem sameSons_finish {pid : Int} {r : ProcRef} {p n : Process}
    {father : Int} (has : s.HasPid pid r p)
    (procs : t.procs = Function.update s.procs r (some n))
    (table : t.processTable = Function.update s.processTable pid none)
    (finished : n.state ≠ .zombie) (noSon : p.fatherPid ≠ father) :
    SameSons s t father where
  kept := KState.sonsKept_finish father has procs table noSon
  zombies := by
    rintro c ⟨x, m, ⟨entry, found⟩, isSon, zombie⟩
    have other : c ≠ pid := by
      rintro rfl
      simp [table] at entry
    have notR : x ≠ r := by
      rintro rfl
      rw [procs, Function.update_self, Option.some.injEq] at found
      exact finished (found ▸ zombie)
    exact ⟨x, m, ⟨by simpa [table, other] using entry,
      by simpa [procs, notR] using found⟩, isSon, zombie⟩

theorem sameSons_create (ok : Coherent s) {pid : Int} {p n c : Process}
    (onCpu : s.OnCpu p) (freePid : s.processTable pid = none)
    (records : ∀ x, t.procs x =
      if x = s.nextRef then some c else if x = s.running then some n
      else s.procs x)
    (table : t.processTable =
      Function.update s.processTable pid (some s.nextRef))
    (sameFather : n.fatherPid = p.fatherPid) (alive : n.Living)
    (isNew : c.state ≠ .zombie) (father : Int) : SameSons s t father where
  kept := FamilyOk.sonsKept_create ok onCpu freePid records table sameFather
    father
  zombies := by
    rintro i ⟨x, m, has, isSon, zombie⟩
    rcases KState.HasPid.before_create ok onCpu records table has with
      ⟨-, rfl⟩ | ⟨-, rfl⟩ | had
    · exact absurd zombie isNew
    · exact absurd zombie alive.1
    · exact ⟨x, m, had, isSon, zombie⟩

/-- Families of fathers that wait change only when they are woken up. -/
theorem Move.sameSons {m : Move} (sound : Sound s) (applies : m.Guard s)
    {f : ProcRef} {father : Process}
    (found : (m.effect s).procs f = some father)
    (waiting : father.state = .waitingPid) :
    SameSons s (m.effect s) father.pid := by
  have ok := sound.coherent
  have after := sound.move applies
  have living : father.Living := by simp [Process.Living, waiting]
  have nonneg := after.coherent.pid_nonneg found living.2
  have before := m.waiting_before ok applies found waiting
  cases m with
  | dispatch k r p old restored =>
      exact (SameKin.dispatch ok applies.2.1).sameSons ok _
  | handOver q content message sender r p restored =>
      exact (SameKin.handOver ok applies).sameSons ok _
  | create pid prio p children =>
      obtain ⟨-, onCpu, -, -, -, -, freePid, -⟩ := applies
      exact sameSons_create ok onCpu freePid
        (Move.create_procs (ok.lt_nextRef onCpu.1).ne) rfl rfl
        (by simp [Process.Living, onCpu.2]) (by simp) _
  | createElect pid prio p children =>
      obtain ⟨-, onCpu, -, -, -, -, freePid, -⟩ := applies
      exact sameSons_create ok onCpu freePid
        (Move.createElect_procs (ok.lt_nextRef onCpu.1).ne) rfl rfl
        (by simp [Process.Living]) (by simp [KState.created, Process.zeroed]) _
  | endFatherless pid r p how =>
      obtain ⟨has, -, fatherless, -⟩ := applies
      exact sameSons_finish has rfl rfl (by simp) (by omega)
  | finish pid r p =>
      obtain ⟨has, -, fatherless, -⟩ := applies
      exact sameSons_finish has rfl rfl (by simp) (by omega)
  | endProcess pid r p how woken =>
      have kept := FamilyOk.sonsKept_endProcess ok applies father.pid
      refine ⟨kept, fun c => (HasEnded.endProcess ok applies).zombies ok
        applies.1 ?_⟩
      -- the father it wakes up does not wait any more
      obtain ⟨q, record, waits, samePid⟩ :=
        before.resolve_right (by rintro ⟨_, isAwait, -⟩; cases isAwait)
      obtain ⟨has, alive, -, -, isWoken⟩ := applies
      have link : q.link = some .waitingPid := by
        simpa [KState.LinkOk, waits] using ok.procs.linked f q record
      have notR : f ≠ r := by
        rintro rfl
        have zombie : father.state = .zombie := by
          cases woken with
          | none =>
              simp [Move.effect] at found
              simp [← found]
          | some woken =>
              rw [Move.endProcess_procs isWoken.1, if_neg isWoken.1.symm,
                if_pos rfl] at found
              cases found
              rfl
        exact living.1 zombie
      intro isFather
      cases woken with
      | none =>
          exact isWoken f q notR record link
            (samePid.symm.trans isFather.symm)
      | some woken =>
          obtain ⟨distinct, isRecord, isLink, isPid⟩ := isWoken
          have wokenState : woken.2.state = .waitingPid :=
            (ok.procs.linked _ _ isRecord).state_of_link isLink
          have same : f = woken.1 :=
            ok.procs.eq_of_pid record isRecord (by simp [waits])
              (by simp [wokenState]) (by rw [← samePid, isPid, isFather])
          rw [Move.endProcess_procs distinct, if_pos same] at found
          cases found
          cases waiting
  | orphan r p =>
      obtain ⟨record, active, noFather⟩ := applies
      obtain ⟨q, wasFather, waits, samePid⟩ :=
        before.resolve_right (by rintro ⟨_, isAwait, -⟩; cases isAwait)
      have notSon : father.pid ≠ p.fatherPid := by
        rw [samePid]
        exact noFather f q wasFather (by simp [Process.Living, waits])
      refine ⟨KState.sonsKept_update father.pid record rfl rfl ?_ id, ?_⟩
      · exact fun isSon => absurd isSon.symm notSon
      · rintro c ⟨x, n, ⟨entry, isRecord⟩, isSon, zombie⟩
        have notR : x ≠ r := by
          rintro rfl
          simp [Move.effect] at isRecord
          rw [← isRecord] at isSon
          dsimp only at isSon
          omega
        exact ⟨x, n, ⟨entry, by simpa [Move.effect, notR] using isRecord⟩,
          isSon, zombie⟩
  | reap pid r p caller children =>
      obtain ⟨q, wasFather, waits, samePid⟩ :=
        before.resolve_right (by rintro ⟨_, isAwait, -⟩; cases isAwait)
      obtain ⟨-, -, has, -, isSon, distinct, onCpu, -⟩ := applies
      obtain ⟨content, isCurrent, currentPid⟩ := sound.cpu.current
      have notSon : p.fatherPid ≠ father.pid := by
        intro isFather
        rw [onCpu.1, Option.some.injEq] at isCurrent
        subst isCurrent
        have same : f = s.running :=
          ok.procs.eq_of_pid wasFather onCpu.1 (by simp [waits])
            (by simp [onCpu.2]) (by rw [← samePid, currentPid, ← isSon, isFather])
        rw [same, onCpu.1, Option.some.injEq] at wasFather
        have elected := onCpu.2
        simp [wasFather, waits] at elected
      constructor
      · intro c x n had isSon'
        have other : c ≠ pid := by
          rintro rfl
          obtain ⟨-, rfl⟩ := had.unique has
          exact notSon isSon'
        have notR : x ≠ r := by
          rintro rfl
          exact other (ok.pid_eq_of_ref had has)
        have stays := Move.reap_procs (s := s) (i := pid) (p := p) (c := caller)
          (l := children) distinct x
        have entry : ((Move.reap pid r p caller children).effect
            s).processTable c = some x := by
          simpa [Move.effect, other] using had.1
        rw [if_neg notR] at stays
        by_cases isRunning : x = s.running
        · subst isRunning
          have same := had.2.symm.trans onCpu.1
          rw [Option.some.injEq] at same
          subst same
          rw [if_pos rfl] at stays
          exact ⟨_, ⟨entry, stays⟩, isSon', id⟩
        · rw [if_neg isRunning, had.2] at stays
          exact ⟨n, ⟨entry, stays⟩, isSon', id⟩
      · rintro c ⟨x, n, stays, isSon', zombie⟩
        obtain ⟨-, q', had, sameFather, sameState⟩ :=
          KState.HasPid.before_reap ok has distinct onCpu stays
        exact ⟨x, q', had, sameFather.symm.trans isSon',
          sameState.symm.trans zombie⟩
  | settle | fault | note | tick | yield | sleep | awaitChild | awaitSend
  | awaitReceive | awaitSem | purge | wakeSleeper | reprio | clearSkip
  | refuse | newQueue | flush | deleteQueue | resetQueue | put | take
  | refill | receive | newSem | acquire | post | postWake | clearReset
  | resetSem | deleteSem =>
      refine (Move.steady ?_ ok applies).sameKin.sameSons ok _
      trivial

/-- A process may start to wait if it has a child and no zombie among its
children. -/
theorem Patient.move (patient : Patient s) {m : Move} (sound : Sound s)
    (applies : m.Guard s)
    (awaits : ∀ p, m = .awaitChild p →
      (∃ c, s.HasSon c p.pid) ∧ ∀ c, ¬ s.HasZombieSon c p.pid) :
    Patient (m.effect s) := by
  intro f n found waiting
  have same := m.sameSons sound applies found waiting
  have before : (∃ c, s.HasSon c n.pid) ∧ ∀ c, ¬ s.HasZombieSon c n.pid := by
    rcases m.waiting_before sound.coherent applies found waiting with
      ⟨p, record, waits, samePid⟩ | ⟨p, isAwait, -, samePid⟩
    · rw [samePid]
      exact patient f p record waits
    · rw [samePid]
      exact awaits p isAwait
  obtain ⟨⟨c, son⟩, noZombie⟩ := before
  exact ⟨⟨c, same.kept.hasSon son⟩,
    fun i zombie => noZombie i (same.zombies i zombie)⟩

end Moves

/-! ## Runs -/

/-- All entries but `sdelete` and calls of `waitpid` for one given child. -/
def Action.Familial : Action → Prop
  | .call (.waitpid pid _) => pid < 0
  | .call (.sdelete _) => False
  | _ => True

/-- What the runs below keep between two steps. -/
structure FamiliesOk (s : KState) : Prop where
  kinship : Kinship s
  any : AnyChild s
  patient : Patient s

section Runs

variable {s t : KState} {a : Action}

/-- A step ends processes as a whole, or takes none of the moves of an end. -/
theorem Settled.keepsKin (settled : Settled s) (next : step a s = .next t) :
    KeepsKin s t ∨ ∀ u (m : Move), m.By s a u → ¬ m.Bereaves := by
  have stepped := settled.stepped next
  by_cases faulted : s.mode = .pageFault
  · left
    have isResume : a = .resume := by
      unfold step at next
      rw [faulted] at next
      cases a with
      | resume => rfl
      | call c => cases next
      | tick => cases next
    subst isResume
    refine (stepped.result (.inr ?_)).2 faulted
    rintro (⟨pid, retvalp, mode⟩ | ⟨r, q, message, mode, -⟩)
    · simp [faulted] at mode
    · simp [faulted] at mode
  by_cases isExit : ∃ retval, a = .call (.exit retval)
  · obtain ⟨retval, rfl⟩ := isExit
    exact .inl (stepped.result (.inr id))
  by_cases isKill : ∃ pid, a = .call (.kill pid)
  · obtain ⟨pid, rfl⟩ := isKill
    exact .inl (stepped.result (.inr id))
  right
  have noEnd {pid : Int} {r : ProcRef} {how : Ending} : ¬ how.By s a pid r := by
    intro ends
    cases how with
    | exit retval =>
        rcases ends.2 with called | ⟨mode, -⟩
        · exact isExit ⟨retval, called⟩
        · exact faulted mode
    | kill => exact isKill ⟨pid, ends.1⟩
  intro u m permitted bereaves
  cases m with
  | endProcess pid r p how father => exact noEnd permitted.2
  | endFatherless pid r p how => exact noEnd permitted.2
  | orphan r p =>
      rcases permitted with ⟨-, called | mode⟩ | called
      · exact isExit called
      · exact faulted mode
      · exact isKill ⟨_, called⟩
  | _ => exact bereaves

theorem Settled.fathered (settled : Settled s) (fathered : Fathered s)
    (next : step a s = .next t) : Fathered t := by
  rcases settled.keepsKin next with keeps | lively
  · exact keeps.fathered fathered
  · refine settled.keeps next (I := Fathered) ?_ fathered
    intro u m sound permitted applies kept
    exact kept.move sound.coherent applies (lively u m permitted)

/-- The families after a step, if they were in order before. -/
theorem Settled.kinship (settled : Settled s) (families : FamiliesOk s)
    (next : step a s = .next t) : Kinship t := by
  rcases settled.keepsKin next with keeps | lively
  · exact keeps.kinship families.kinship
  refine settled.keeps next (I := Kinship) ?_ families.kinship
  intro u m sound permitted applies kinship
  refine kinship.move sound applies (lively u m permitted) ?_
  rintro pid r p caller children rfl
  obtain ⟨-, -, zombie | ⟨retvalp, mode⟩⟩ := permitted
  · exact zombie
  · -- the caller waits for any child, so it cannot be told to reap this one
    obtain ⟨content, onCpu⟩ := settled.onCpu
    have stack := settled.sound.context.loaded _ content mode onCpu.1
    have negative := families.any s.running content pid retvalp onCpu.1 stack
    have entry := applies.2.2.1.1
    have nonneg := (sound.coherent.procs.table pid r entry).1
    omega

theorem Settled.familiesOk (settled : Settled s) (families : FamiliesOk s)
    (familial : a.Familial) (next : step a s = .next t) : FamiliesOk t := by
  refine ⟨settled.kinship families next, ?_, ?_⟩
  · refine settled.keeps next (I := AnyChild) ?_ families.any
    intro u m sound permitted applies any
    refine any.move sound.coherent applies ?_
    rintro pid retvalp r p old restored rfl
    have called := permitted.2 pid retvalp rfl
    subst called
    exact familial
  · refine settled.keeps next (I := Patient) ?_ families.patient
    intro u m sound permitted applies patient
    refine patient.move sound applies ?_
    rintro p rfl
    obtain ⟨rfl, pid, retvalp, rfl, checked⟩ := permitted
    obtain ⟨children, isChildren, notNil, noZombie⟩ := checked familial
    have onCpu : u.OnCpu p := applies
    have has := sound.hasPid_current onCpu
    have isPid := (sound.coherent.active_of_hasPid has).1
    have sons := (sound.family.children _ p children onCpu.1
      (by simp [Process.Living, onCpu.2]) isChildren).2
    constructor
    · obtain ⟨child, member⟩ := List.exists_mem_of_ne_nil children notNil
      exact ⟨child.pid, sons child member⟩
    · rintro c ⟨x, n, had, isSon, zombie⟩
      have notIdle : x ≠ idleRef := by
        rintro rfl
        exact (families.kinship.idle n had.2).1.1 zombie
      have isFather : n.fatherPid ≠ -1 :=
        families.kinship.zombie c x n had zombie
      have listed := families.kinship.listed c x n had notIdle isFather
      rw [isSon, isPid] at listed
      obtain ⟨y, q, l, isCurrent, -, isList, member⟩ := listed
      obtain ⟨-, rfl⟩ := has.unique isCurrent
      rw [isChildren, Option.some.injEq] at isList
      subst isList
      obtain ⟨child, inside, sameC⟩ := List.mem_map.mp member
      exact noZombie child inside x n (sameC ▸ had) zombie

theorem bootState_familiesOk (apps : List String) :
    FamiliesOk (bootState apps) := by
  refine ⟨⟨?_, ?_, ?_⟩, ?_, ?_⟩
  · rintro c r p ⟨-, found⟩ notIdle isSon
    rcases bootState_procs found with ⟨rfl, rfl⟩ | ⟨rfl, rfl⟩
    · exact absurd rfl notIdle
    · exact absurd rfl isSon
  · rintro c r p ⟨-, found⟩ zombie
    rcases bootState_procs found with ⟨-, rfl⟩ | ⟨-, rfl⟩ <;> cases zombie
  · intro p found
    rcases bootState_procs found with ⟨-, rfl⟩ | ⟨isIdle, -⟩
    · exact ⟨by decide, rfl, rfl⟩
    · cases isIdle
  · intro r p pid retvalp found stack
    rcases bootState_procs found with ⟨-, rfl⟩ | ⟨-, rfl⟩ <;> cases stack
  · intro r p found waiting
    rcases bootState_procs found with ⟨-, rfl⟩ | ⟨-, rfl⟩ <;> cases waiting

theorem Run.familiesOk {apps : List String}
    (run : Run (fun _ a => a.Familial) (bootState apps) s) : FamiliesOk s := by
  induction run with
  | refl => exact bootState_familiesOk apps
  | step front familial next ih =>
      exact (front.settled bootState_settled).familiesOk ih familial next

/-- Fathers and children know each other in every state of a run, and every
zombie has a father that can reap it.  Idle, which `start` did not make, is
left out. -/
theorem families_agree {apps : List String} {b : KState}
    (booted : Booted apps b) (run : Run (fun _ a => a.Familial) b s) :
    (∀ c r p, s.HasPid c r p → r ≠ idleRef → p.fatherPid ≠ -1 →
      ∃ f father l, s.HasPid p.fatherPid f father ∧ father.state ≠ .zombie ∧
        father.children = some l ∧ (l.map Child.pid).count c = 1) ∧
      (∀ r p l, s.HasPid p.pid r p → p.state ≠ .zombie →
        p.children = some l → ∀ child ∈ l, s.HasSon child.pid p.pid) ∧
      ∀ c r p, s.HasPid c r p → p.state = .zombie → p.fatherPid ≠ -1 := by
  cases booted_eq booted
  have sound := (run.settled bootState_settled).sound
  have kinship := run.familiesOk.kinship
  refine ⟨?_, ?_, kinship.zombie⟩
  · intro c r p has notIdle isSon
    obtain ⟨f, father, l, isFather, living, isList, member⟩ :=
      kinship.listed c r p has notIdle isSon
    have distinct := (sound.family.children f father l isFather.2 living
      isList).1
    exact ⟨f, father, l, isFather, living.1, isList,
      List.count_eq_one_of_mem distinct member⟩
  · intro r p l has alive isList
    have active := (sound.coherent.active_of_hasPid has).2
    exact (sound.family.children r p l has.2 ⟨alive, active⟩ isList).2

/-- The test that an action is one of those above. -/
def Action.familially : Action → Bool
  | .call (.waitpid pid _) => pid < 0
  | .call (.sdelete _) => false
  | _ => true

theorem Action.familial_of_familially (familially : a.familially = true) :
    a.Familial := by
  unfold Action.familially at familially
  split at familially
  · simpa [Action.Familial] using familially
  · cases familially
  · rename_i notWait notDelete
    unfold Action.Familial
    split
    · exact absurd rfl (notWait _ _)
    · exact absurd rfl (notDelete _)
    · trivial

/-- A run of such actions, by evaluation. -/
theorem exists_familialRun (apps : List String) (actions : List Action)
    (check : KState → Bool) (idle : "idle" ∈ apps)
    (autotest : "autotest" ∈ apps)
    (evaluated : (runActions actions (bootState apps)).any check = true)
    (familially : allAlong (fun _ a => a.familially) actions
      (bootState apps) = true) :
    ∃ b s, Booted apps b ∧ Run (fun _ a => a.Familial) b s ∧
      check s = true := by
  obtain ⟨s, performed, -, checked⟩ :=
    exists_of_runActions apps actions check idle autotest evaluated
  refine ⟨_, s, booted_bootState idle autotest, ?_, checked⟩
  exact run_of_allAlong bootState_settled performed _
    (fun _ _ _ => Action.familial_of_familially) familially

/-- A father that has started a child. -/
theorem families_agree_after_start :
    ∃ b s r p f father l, Booted ["idle", "autotest", "a"] b ∧
      Run (fun _ a => a.Familial) b s ∧ s.HasPid 2 r p ∧ p.fatherPid = 1 ∧
      s.HasPid 1 f father ∧ father.children = some l ∧
      (l.map Child.pid).count 2 = 1 := by
  obtain ⟨b, s, booted, run, checked⟩ := exists_familialRun
    ["idle", "autotest", "a"] (firstTicks ++ [.call (.start "a" 4096 100)])
    (fun s => s.processTable 2 == some 2 &&
      (s.procs 2).any fun p => p.fatherPid == 1)
    (by decide) (by decide) (by decide +kernel) (by decide +kernel)
  rw [Bool.and_eq_true, beq_iff_eq, Option.any_eq_true] at checked
  obtain ⟨entry, p, record, isSon⟩ := checked
  rw [beq_iff_eq] at isSon
  obtain ⟨f, father, l, isFather, -, isList, once⟩ :=
    (families_agree booted run).1 2 2 p ⟨entry, record⟩ (by decide)
      (by omega)
  rw [isSon] at isFather
  exact ⟨b, s, 2, p, f, father, l, booted, run, ⟨entry, record⟩, isSon,
    isFather, isList, once⟩

/-- Idle seems to be its own son, and is in no list of children. -/
theorem idle_is_not_listed :
    ∃ b r p, Booted ["idle", "autotest"] b ∧ b.mode = .user ∧
      b.HasPid 0 r p ∧ p.fatherPid ≠ -1 ∧
      ¬ ∃ f father l, b.HasPid p.fatherPid f father ∧
        father.state ≠ .zombie ∧ father.children = some l ∧
        (l.map Child.pid).count 0 = 1 := by
  refine ⟨_, 0, idleRecord, booted_bootState (by decide) (by decide), rfl,
    ⟨rfl, rfl⟩, by decide, ?_⟩
  rintro ⟨f, father, l, ⟨entry, record⟩, -, isList, -⟩
  cases entry
  cases record
  cases isList

/-- In every state of a run a father that waits has a child, and none of its
children is a zombie. -/
theorem no_father_waits_in_vain {apps : List String} {b : KState}
    (booted : Booted apps b) (run : Run (fun _ a => a.Familial) b s) :
    ∀ f p, s.procs f = some p → p.state = .waitingPid →
      (∃ c, s.HasSon c p.pid) ∧ ∀ c, ¬ s.HasZombieSon c p.pid := by
  cases booted_eq booted
  exact run.familiesOk.patient

/-- A father waits for the child it has started. -/
theorem father_waits_for_child :
    ∃ b s f p, Booted ["idle", "autotest", "a"] b ∧
      Run (fun _ a => a.Familial) b s ∧ s.procs f = some p ∧
      p.state = .waitingPid ∧ (∃ c, s.HasSon c p.pid) ∧
      ∀ c, ¬ s.HasZombieSon c p.pid := by
  obtain ⟨b, s, booted, run, checked⟩ := exists_familialRun
    ["idle", "autotest", "a"] (firstTicks ++ [.call (.start "a" 4096 100),
      .call (.waitpid (-1) ⟨0, false⟩), .resume])
    (fun s => (s.procs 1).any fun p => p.state == .waitingPid)
    (by decide) (by decide) (by decide +kernel) (by decide +kernel)
  obtain ⟨p, record, waits⟩ := (Option.any_eq_true _ _).mp checked
  rw [beq_iff_eq] at waits
  exact ⟨b, s, 1, p, booted, run, record, waits,
    no_father_waits_in_vain booted run 1 p record waits⟩

end Runs

end Nebulea
