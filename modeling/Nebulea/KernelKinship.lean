import Nebulea.KernelSchedulerMoves

/-!
# Fathers that list their children

`father_pid` and the lists of children tell the same story between two kernel
entries: a process with a father is listed by it, the father has not ended, and
a zombie always has a father.  While a process ends this holds for all but its
own children, which it visits one after the other.
-/

namespace Nebulea

namespace KState

/-- The process `father` has not ended and lists `c` as a child. -/
def ListedBy (s : KState) (c father : Int) : Prop :=
  ∃ r p l, s.HasPid father r p ∧ p.Living ∧ p.children = some l ∧
    c ∈ l.map Child.pid

end KState

/-- Every zombie has a father. -/
def Fathered (s : KState) : Prop :=
  ∀ c r p, s.HasPid c r p → p.state = .zombie → p.fatherPid ≠ -1

/-- Families as both `father_pid` and the lists of children tell them.  Idle,
which `start` did not make, has no place in them. -/
structure Kinship (s : KState) : Prop where
  listed : ∀ c r p, s.HasPid c r p → r ≠ idleRef → p.fatherPid ≠ -1 →
    s.ListedBy c p.fatherPid
  zombie : Fathered s
  idle : ∀ p, s.procs idleRef = some p →
    p.Living ∧ p.children = none ∧ p.fatherPid = p.pid

/-- Families after `pid` has ended, with its children still to be visited. -/
structure KinshipBut (s : KState) (pid : Int) (rest : List Child) : Prop where
  listed : ∀ c r p, s.HasPid c r p → r ≠ idleRef → p.fatherPid ≠ -1 →
    p.fatherPid ≠ pid → s.ListedBy c p.fatherPid
  rest : ∀ c r p, s.HasPid c r p → r ≠ idleRef → p.fatherPid = pid →
    c ∈ rest.map Child.pid
  zombie : Fathered s
  idle : ∀ p, s.procs idleRef = some p →
    p.Living ∧ p.children = none ∧ p.fatherPid = p.pid

theorem KinshipBut.done {s : KState} {pid : Int} (kin : KinshipBut s pid []) :
    Kinship s where
  listed := by
    intro c r p has notIdle isSon
    apply kin.listed c r p has notIdle isSon
    intro isPid
    have member := kin.rest c r p has notIdle isPid
    cases member
  zombie := kin.zombie
  idle := kin.idle

/-! ## Moves that touch no family -/

/-- What a record says of its family, and whether the process has ended. -/
structure Kin (p n : Process) : Prop where
  pid : n.pid = p.pid
  fatherPid : n.fatherPid = p.fatherPid
  children : n.children = p.children
  zombie : n.state = .zombie ↔ p.state = .zombie
  finished : n.state = .finished ↔ p.state = .finished

theorem Kin.refl (p : Process) : Kin p p :=
  ⟨rfl, rfl, rfl, Iff.rfl, Iff.rfl⟩

theorem Kin.living {p n : Process} (kin : Kin p n) : n.Living ↔ p.Living := by
  unfold Process.Living
  rw [ne_eq, ne_eq, kin.zombie, kin.finished]

/-- The same families in both states. -/
structure SameKin (s t : KState) : Prop where
  table : t.processTable = s.processTable
  back : ∀ x n, t.procs x = some n → ∃ p, s.procs x = some p ∧ Kin p n
  forth : ∀ x p, s.procs x = some p → p.state ≠ .finished →
    ∃ n, t.procs x = some n ∧ Kin p n

section SameKin

variable {s t : KState}

theorem SameKin.of_records (table : t.processTable = s.processTable)
    (procs : t.procs = s.procs) : SameKin s t where
  table := table
  back := fun _ n found => ⟨n, procs ▸ found, .refl n⟩
  forth := fun _ p record _ => ⟨p, procs ▸ record, .refl p⟩

theorem Steady.sameKin (same : Steady s t) : SameKin s t where
  table := same.table
  back := by
    intro x n found
    obtain ⟨p, record, context⟩ := same.procs x n found
    have kin := same.family x p n record found
    exact ⟨p, record, context.pid, kin.fatherPid, kin.children, kin.zombie,
      kin.finished⟩
  forth := by
    intro x p record active
    obtain ⟨n, found⟩ := same.kept x p record active
    obtain ⟨p', record', context⟩ := same.procs x n found
    rw [record, Option.some.injEq] at record'
    subst record'
    have kin := same.family x p n record found
    exact ⟨n, found, context.pid, kin.fatherPid, kin.children, kin.zombie,
      kin.finished⟩

theorem SameKin.dispatch (ok : Coherent s) {k restored : Context}
    {r old : ProcRef} {p : Process} (next : s.NextOut .activable r p) :
    SameKin s ((Move.dispatch k r p old restored).effect s) := by
  have state := ok.activable_of_nextOut next
  have elected (stack : Context) : Kin p
      { p with
        state := .elected, link := none, stack := stack, registers := none } :=
    ⟨rfl, rfl, rfl, by simp [state], by simp [state]⟩
  constructor
  · rfl
  · intro x n found
    rw [Move.dispatch_procs] at found
    split at found
    · rename_i isNew
      cases found
      exact ⟨p, isNew ▸ next.2, elected _⟩
    · obtain ⟨before, present, rfl⟩ := Option.map_eq_some_iff.mp found
      exact ⟨before, present, rfl, rfl, rfl, Iff.rfl, Iff.rfl⟩
  · intro x content record _
    rw [Move.dispatch_procs]
    split
    · rename_i isNew
      rw [isNew, next.2, Option.some.injEq] at record
      subst record
      exact ⟨_, rfl, elected _⟩
    · rw [record]
      exact ⟨_, rfl, rfl, rfl, rfl, Iff.rfl, Iff.rfl⟩

theorem SameKin.handOver (ok : Coherent s) {q : QueueRef}
    {content : MessageQueue} {message : Int} {sender p : Process}
    {r : ProcRef} {restored : Context}
    (applies :
      (Move.handOver q content message sender r p restored).Guard s) :
    SameKin s
      ((Move.handOver q content message sender r p restored).effect s) := by
  obtain ⟨-, -, -, next, onCpu, -⟩ := applies
  have distinct := ok.running_ne_of_nextOut next onCpu
  have state := ok.inMsgqueue_of_nextOut next
  have elected : Kin p
      { p with state := .elected, link := none, registers := none } :=
    ⟨rfl, rfl, rfl, by simp [state], by simp [state]⟩
  constructor
  · rfl
  · intro x n found
    rw [Move.handOver_procs distinct] at found
    split at found
    · rename_i isNew
      cases found
      exact ⟨p, isNew ▸ next.2, elected⟩
    · split at found
      · rename_i isRunning
        cases found
        exact ⟨sender, isRunning ▸ onCpu.1, rfl, rfl, rfl, by simp [onCpu.2],
          by simp [onCpu.2]⟩
      · exact ⟨n, found, .refl n⟩
  · intro x c record _
    rw [Move.handOver_procs distinct]
    split
    · rename_i isNew
      rw [isNew, next.2, Option.some.injEq] at record
      subst record
      exact ⟨_, rfl, elected⟩
    · split
      · rename_i isRunning
        rw [isRunning, onCpu.1, Option.some.injEq] at record
        subst record
        exact ⟨_, rfl, rfl, rfl, rfl, by simp [onCpu.2], by simp [onCpu.2]⟩
      · exact ⟨c, record, .refl c⟩

theorem SameKin.hasPid_back (same : SameKin s t) {c : Int} {x : ProcRef}
    {n : Process} (has : t.HasPid c x n) : ∃ p, s.HasPid c x p ∧ Kin p n := by
  obtain ⟨p, record, kin⟩ := same.back x n has.2
  exact ⟨p, ⟨same.table ▸ has.1, record⟩, kin⟩

theorem SameKin.hasPid_forth (same : SameKin s t) (ok : Coherent s) {c : Int}
    {x : ProcRef} {p : Process} (has : s.HasPid c x p) :
    ∃ n, t.HasPid c x n ∧ Kin p n := by
  obtain ⟨n, found, kin⟩ :=
    same.forth x p has.2 (ok.active_of_hasPid has).2
  exact ⟨n, ⟨same.table ▸ has.1, found⟩, kin⟩

theorem SameKin.listedBy (same : SameKin s t) (ok : Coherent s)
    {c father : Int} (listed : s.ListedBy c father) :
    t.ListedBy c father := by
  obtain ⟨r, p, l, has, living, children, member⟩ := listed
  obtain ⟨n, stays, kin⟩ := same.hasPid_forth ok has
  exact ⟨r, n, l, stays, kin.living.mpr living, kin.children.trans children,
    member⟩

theorem Fathered.same (fathered : Fathered s) (same : SameKin s t) :
    Fathered t := by
  intro c x n has isZombie
  obtain ⟨p, had, kin⟩ := same.hasPid_back has
  rw [kin.fatherPid]
  exact fathered c x p had (kin.zombie.mp isZombie)

theorem Kinship.same (kinship : Kinship s) (same : SameKin s t)
    (ok : Coherent s) : Kinship t where
  listed := by
    intro c x n has notIdle isSon
    obtain ⟨p, has', kin⟩ := same.hasPid_back has
    rw [kin.fatherPid] at isSon ⊢
    exact same.listedBy ok (kinship.listed c x p has' notIdle isSon)
  zombie := kinship.zombie.same same
  idle := by
    intro n found
    obtain ⟨p, record, kin⟩ := same.back idleRef n found
    obtain ⟨living, noChildren, isSelf⟩ := kinship.idle p record
    exact ⟨kin.living.mpr living, kin.children.trans noChildren,
      by rw [kin.fatherPid, kin.pid, isSelf]⟩

end SameKin

/-- What `__scheduler` does concerns no family. -/
theorem Move.sameKin_of_serves {s : KState} {m : Move} (ok : Coherent s)
    (applies : m.Guard s) (serves : m.Serves) : SameKin s (m.effect s) := by
  cases m with
  | dispatch k r p old restored => exact .dispatch ok applies.2.1
  | yield p => exact (Move.steady (m := .yield p) trivial ok applies).sameKin
  | purge keep =>
      exact (Move.steady (m := .purge keep) trivial ok applies).sameKin
  | wakeSleeper r p =>
      exact (Move.steady (m := .wakeSleeper r p) trivial ok applies).sameKin
  | _ => exact absurd serves id

/-- What moves that concern no family keep. -/
theorem Sound.serve {s t : KState} (sound : Sound s) {I : KState → Prop}
    (path : Moves (fun m _ => m.Serves) s t)
    (keep : ∀ u v, SameKin u v → Coherent u → I u → I v) (start : I s) :
    I t := by
  have both : Sound t ∧ I t := by
    refine path.keeps (I := fun u => Sound u ∧ I u) ?_ ⟨sound, start⟩
    rintro m u serves applies ⟨soundU, kept⟩
    have ok := soundU.coherent
    exact ⟨soundU.move applies,
      keep u _ (m.sameKin_of_serves ok applies serves) ok kept⟩
  exact both.2

theorem Kinship.serve {s t : KState} (sound : Sound s)
    (path : Moves (fun m _ => m.Serves) s t) (kinship : Kinship s) :
    Kinship t :=
  sound.serve path (fun _ _ same ok kin => kin.same same ok) kinship

theorem Fathered.serve {s t : KState} (sound : Sound s)
    (path : Moves (fun m _ => m.Serves) s t) (fathered : Fathered s) :
    Fathered t :=
  sound.serve path (fun _ _ same _ kept => kept.same same) fathered

/-! ## The end of a process -/

section Ends

variable {s t : KState}

/-- Two entries of the table do not lead to the same record. -/
theorem Coherent.pid_eq_of_ref (ok : Coherent s) {c d : Int} {r : ProcRef}
    {p q : Process} (first : s.HasPid c r p) (second : s.HasPid d r q) :
    c = d := by
  have samePid := (ok.active_of_hasPid first).1
  have samePid' := (ok.active_of_hasPid second).1
  have same := first.2.symm.trans second.2
  rw [Option.some.injEq] at same
  rw [← samePid, ← samePid', same]

theorem KState.HasPid.unique {c : Int} {r x : ProcRef} {p q : Process}
    (first : s.HasPid c r p) (second : s.HasPid c x q) : r = x ∧ p = q := by
  have sameRef := first.1.symm.trans second.1
  rw [Option.some.injEq] at sameRef
  subst sameRef
  have same := first.2.symm.trans second.2
  rw [Option.some.injEq] at same
  exact ⟨rfl, same⟩

/-- The process `pid` of record `r` has ended: it is a zombie with a father or
out of the table, and no other record has changed its family. -/
structure HasEnded (s : KState) (pid : Int) (r : ProcRef) (p : Process)
    (t : KState) : Prop where
  table : ∀ c, c ≠ pid → t.processTable c = s.processTable c
  back : ∀ x n, x ≠ r → t.procs x = some n → ∃ q, s.procs x = some q ∧ Kin q n
  forth : ∀ x q, x ≠ r → s.procs x = some q → q.state ≠ .finished →
    ∃ n, t.procs x = some n ∧ Kin q n
  ended : ∀ x n, t.HasPid pid x n → x = r ∧ n.fatherPid = p.fatherPid ∧
    p.fatherPid ≠ -1

/-- The other processes of the table are those there were. -/
theorem HasEnded.hasPid_back {pid : Int} {r : ProcRef} {p : Process}
    (ended : HasEnded s pid r p t) (ok : Coherent s) (has : s.HasPid pid r p)
    {c : Int} {x : ProcRef} {n : Process} (hasPid : t.HasPid c x n)
    (other : c ≠ pid) : ∃ q, s.HasPid c x q ∧ Kin q n := by
  have entry : s.processTable c = some x :=
    (ended.table c other).symm.trans hasPid.1
  obtain ⟨-, -, q, record, -⟩ := ok.procs.table c x entry
  have notR : x ≠ r := by
    rintro rfl
    exact other (ok.pid_eq_of_ref ⟨entry, record⟩ has)
  obtain ⟨q', record', kin⟩ := ended.back x n notR hasPid.2
  exact ⟨q', ⟨entry, record'⟩, kin⟩

theorem Fathered.ended (fathered : Fathered s) (ok : Coherent s) {pid : Int}
    {r : ProcRef} {p : Process} (has : s.HasPid pid r p)
    (ended : HasEnded s pid r p t) : Fathered t := by
  intro c x n hasPid isZombie
  by_cases isPid : c = pid
  · subst isPid
    obtain ⟨-, sameFather, isSon⟩ := ended.ended x n hasPid
    rwa [sameFather]
  · obtain ⟨q, hasPid', kin⟩ := ended.hasPid_back ok has hasPid isPid
    rw [kin.fatherPid]
    exact fathered c x q hasPid' (kin.zombie.mp isZombie)

theorem Kinship.ended (kinship : Kinship s) (ok : Coherent s) {pid : Int}
    {r : ProcRef} {p : Process} {children : List Child}
    (has : s.HasPid pid r p) (isChildren : p.children = some children)
    (ended : HasEnded s pid r p t) : KinshipBut t pid children := by
  have notIdle : r ≠ idleRef := by
    rintro rfl
    have noChildren := (kinship.idle p has.2).2.1
    rw [isChildren] at noChildren
    cases noChildren
  have fathers : ∀ {c father}, s.ListedBy c father → father ≠ pid →
      t.ListedBy c father := by
    rintro c father ⟨x, q, l, hasPid, living, isList, member⟩ other
    have notR : x ≠ r := by
      rintro rfl
      exact other (ok.pid_eq_of_ref hasPid has)
    obtain ⟨n, found, kin⟩ := ended.forth x q notR hasPid.2 living.2
    exact ⟨x, n, l, ⟨(ended.table father other).trans hasPid.1, found⟩,
      kin.living.mpr living, kin.children.trans isList, member⟩
  -- a process other than the one that ended has the father it had
  have before : ∀ {c x n}, t.HasPid c x n → x ≠ idleRef → n.fatherPid ≠ -1 →
      s.ListedBy c n.fatherPid := by
    intro c x n hasPid notIdle' isSon
    by_cases isPid : c = pid
    · subst isPid
      obtain ⟨isR, sameFather, -⟩ := ended.ended x n hasPid
      rw [sameFather] at isSon ⊢
      exact kinship.listed c r p has notIdle isSon
    · obtain ⟨q, hasPid', kin⟩ := ended.hasPid_back ok has hasPid isPid
      rw [kin.fatherPid] at isSon ⊢
      exact kinship.listed c x q hasPid' notIdle' isSon
  constructor
  · intro c x n hasPid notIdle' isSon other
    exact fathers (before hasPid notIdle' isSon) other
  · intro c x n hasPid notIdle' isSon
    have isFather : n.fatherPid ≠ -1 := by
      have nonneg := (ok.procs.table pid r has.1).1
      omega
    have listed := before hasPid notIdle' isFather
    rw [isSon] at listed
    obtain ⟨y, q, l, hasPid', -, isList, member⟩ := listed
    obtain ⟨-, rfl⟩ := has.unique hasPid'
    rw [isChildren, Option.some.injEq] at isList
    rwa [isList]
  · exact kinship.zombie.ended ok has ended
  · intro n found
    obtain ⟨q, record, kin⟩ := ended.back idleRef n notIdle.symm found
    obtain ⟨living, noChildren, isSelf⟩ := kinship.idle q record
    exact ⟨kin.living.mpr living, kin.children.trans noChildren,
      by rw [kin.fatherPid, kin.pid, isSelf]⟩

theorem HasEnded.endProcess (ok : Coherent s) {pid : Int} {r : ProcRef}
    {p : Process} {how : Ending} {father : Option (ProcRef × Process)}
    (applies : (Move.endProcess pid r p how father).Guard s) :
    HasEnded s pid r p ((Move.endProcess pid r p how father).effect s) := by
  obtain ⟨has, -, isSon, -, woken⟩ := applies
  have table : ((Move.endProcess pid r p how father).effect s).processTable =
      s.processTable := by
    cases father <;> rfl
  have records : ∀ x, x ≠ r →
      (((Move.endProcess pid r p how father).effect s).procs x = s.procs x ∨
        ∃ q n, s.procs x = some q ∧ Kin q n ∧
          ((Move.endProcess pid r p how father).effect s).procs x =
            some n) := by
    intro x notR
    cases father with
    | none => exact .inl (by simp [Move.effect, notR])
    | some father =>
        obtain ⟨f, content⟩ := father
        obtain ⟨distinct, isFather, link, -⟩ := woken
        have state : content.state = .waitingPid :=
          (ok.procs.linked f content isFather).state_of_link link
        rw [Move.endProcess_procs distinct]
        by_cases isF : x = f
        · rw [if_pos isF]
          refine .inr ⟨content, _, isF ▸ isFather, ?_, rfl⟩
          exact ⟨rfl, rfl, rfl, by simp [state], by simp [state]⟩
        · rw [if_neg isF, if_neg notR]
          exact .inl rfl
  constructor
  · intro c _
    rw [table]
  · intro x n notR found
    rcases records x notR with same | ⟨q, n', record, kin, isN⟩
    · exact ⟨n, same ▸ found, .refl n⟩
    · rw [isN, Option.some.injEq] at found
      exact ⟨q, record, found ▸ kin⟩
  · intro x q notR record _
    rcases records x notR with same | ⟨q', n, record', kin, isN⟩
    · exact ⟨q, same.trans record, .refl q⟩
    · rw [record, Option.some.injEq] at record'
      exact ⟨n, isN, record' ▸ kin⟩
  · rintro x n ⟨entry, found⟩
    rw [table, has.1, Option.some.injEq] at entry
    subst entry
    have isEnded : ((Move.endProcess pid r p how father).effect s).procs r =
        some { p with retval := how.retval, state := .zombie, link := none } := by
      cases father with
      | none => simp [Move.effect]
      | some father =>
          rw [Move.endProcess_procs woken.1, if_neg woken.1.symm, if_pos rfl]
    rw [isEnded, Option.some.injEq] at found
    exact ⟨rfl, found ▸ rfl, isSon⟩

theorem HasEnded.endFatherless {pid : Int} {r : ProcRef} {p : Process}
    {how : Ending} :
    HasEnded s pid r p ((Move.endFatherless pid r p how).effect s) := by
  have records : ∀ x, x ≠ r →
      ((Move.endFatherless pid r p how).effect s).procs x = s.procs x := by
    intro x notR
    simp [Move.effect, notR]
  constructor
  · intro c other
    simp [Move.effect, other]
  · intro x n notR found
    exact ⟨n, records x notR ▸ found, .refl n⟩
  · intro x q notR record _
    exact ⟨q, (records x notR).trans record, .refl q⟩
  · rintro x n ⟨entry, -⟩
    simp [Move.effect] at entry

/-- One turn of the loop over the children: the child has no father any more,
and is finished if it was a zombie. -/
def Orphaned (child : Child) (s t : KState) : Prop :=
  ∃ r p, s.HasPid child.pid r p ∧
    (p.state ≠ .zombie ∧ t = s.setProc r { p with fatherPid := -1 } ∨
      p.state = .zombie ∧ t = (s.setProc r { p with fatherPid := -1 }).finish
        child.pid r { p with fatherPid := -1 } none)

/-- The child is no zombie afterwards; the other processes are as before. -/
theorem Orphaned.hasPid_back {child : Child} (orphaned : Orphaned child s t)
    (ok : Coherent s) {c : Int} {x : ProcRef} {n : Process}
    (hasPid : t.HasPid c x n) :
    c = child.pid ∧ n.fatherPid = -1 ∧ n.state ≠ .zombie ∨
      c ≠ child.pid ∧ s.HasPid c x n := by
  obtain ⟨r, p, has, ⟨notZombie, rfl⟩ | ⟨-, rfl⟩⟩ := orphaned
  · by_cases isR : x = r
    · subst isR
      have isChild : n = { p with fatherPid := -1 } := by
        simpa using hasPid.2.symm
      have samePid := ok.pid_eq_of_ref ⟨hasPid.1, has.2⟩ has
      exact .inl ⟨samePid, isChild ▸ rfl, isChild ▸ notZombie⟩
    · refine .inr ⟨?_, hasPid.1, by simpa [isR] using hasPid.2⟩
      rintro rfl
      exact isR (Option.some.inj (hasPid.1.symm.trans has.1))
  · have other : c ≠ child.pid := by
      rintro rfl
      have gone := hasPid.1
      simp at gone
    have entry : s.processTable c = some x := by
      simpa [other] using hasPid.1
    have notR : x ≠ r := by
      rintro rfl
      exact other (ok.pid_eq_of_ref ⟨entry, has.2⟩ has)
    exact .inr ⟨other, entry, by simpa [notR] using hasPid.2⟩

theorem Fathered.orphaned (fathered : Fathered s) (ok : Coherent s)
    {child : Child} (orphaned : Orphaned child s t) : Fathered t := by
  intro c x n hasPid isZombie
  rcases orphaned.hasPid_back ok hasPid with ⟨-, -, notZombie⟩ | ⟨-, had⟩
  · exact absurd isZombie notZombie
  · exact fathered c x n had isZombie

theorem KinshipBut.orphaned (ok : Coherent s) {pid : Int} {child : Child}
    {rest : List Child} (kin : KinshipBut s pid (child :: rest))
    (isPid : 0 ≤ pid) (isSon : s.HasSon child.pid pid)
    (notSelf : child.pid ≠ pid)
    (orphaned : Orphaned child s t) : KinshipBut t pid rest := by
  have before : ∀ {c x n}, t.HasPid c x n → _ := orphaned.hasPid_back ok
  have zombies := kin.zombie.orphaned ok orphaned
  obtain ⟨r, p, has, turn⟩ := orphaned
  have notIdle : r ≠ idleRef := by
    rintro rfl
    obtain ⟨y, q, has', isFather⟩ := isSon
    obtain ⟨rfl, rfl⟩ := has.unique has'
    have isSelf := (kin.idle p has.2).2.2
    rw [isFather, (ok.active_of_hasPid has).1] at isSelf
    exact notSelf isSelf.symm
  have fathers : ∀ {c father}, s.ListedBy c father → t.ListedBy c father := by
    rintro c father ⟨x, q, l, hasPid, living, isList, member⟩
    by_cases isR : x = r
    · subst isR
      have same := hasPid.2.symm.trans has.2
      rw [Option.some.injEq] at same
      subst same
      rcases turn with ⟨-, rfl⟩ | ⟨isZombie, -⟩
      · exact ⟨x, _, l, ⟨hasPid.1, Function.update_self ..⟩, living, isList,
          member⟩
      · exact absurd isZombie living.1
    · refine ⟨x, q, l, ⟨?_, ?_⟩, living, isList, member⟩
      · have other : father ≠ child.pid := by
          rintro rfl
          exact isR (hasPid.unique has).1
        rcases turn with ⟨-, rfl⟩ | ⟨-, rfl⟩
        · exact hasPid.1
        · simpa [other] using hasPid.1
      · rcases turn with ⟨-, rfl⟩ | ⟨-, rfl⟩
        · simpa [isR] using hasPid.2
        · simpa [isR] using hasPid.2
  constructor
  · intro c x n hasPid notIdle' isFather other
    rcases before hasPid with ⟨-, fatherless, -⟩ | ⟨-, hasPid'⟩
    · exact absurd fatherless isFather
    · exact fathers (kin.listed c x n hasPid' notIdle' isFather other)
  · intro c x n hasPid notIdle' isFather
    rcases before hasPid with ⟨-, fatherless, -⟩ | ⟨notChild, hasPid'⟩
    · omega
    · have member := kin.rest c x n hasPid' notIdle' isFather
      rw [List.map_cons, List.mem_cons] at member
      exact member.resolve_left notChild
  · exact zombies
  · intro n found
    apply kin.idle n
    rcases turn with ⟨-, rfl⟩ | ⟨-, rfl⟩
    · simpa [notIdle.symm] using found
    · simpa [notIdle.symm] using found

end Ends

/-- What the end of a process keeps of the families. -/
structure KeepsKin (s t : KState) : Prop where
  kinship : Kinship s → Kinship t
  fathered : Fathered s → Fathered t

theorem KeepsKin.trans {s t u : KState} (front : KeepsKin s t)
    (back : KeepsKin t u) : KeepsKin s u :=
  ⟨fun before => back.kinship (front.kinship before),
    fun before => back.fathered (front.fathered before)⟩

theorem SameKin.keepsKin {s t : KState} (same : SameKin s t)
    (ok : Coherent s) : KeepsKin s t :=
  ⟨fun before => before.same same ok, fun before => before.same same⟩

theorem KeepsKin.settle {s : KState} (ok : Coherent s) (value : Int) :
    KeepsKin s { s with mode := .user, eax := value } := by
  have same : SameKin s { s with mode := .user, eax := value } :=
    .of_records rfl rfl
  exact same.keepsKin ok

theorem KeepsKin.serve {s t : KState} (sound : Sound s)
    (path : Moves (fun m _ => m.Serves) s t) : KeepsKin s t :=
  ⟨Kinship.serve sound path, Fathered.serve sound path⟩

end Nebulea
