import Nebulea.KernelBirths
import Nebulea.KernelFamilyRuns

/-!
# Generations

Records are made one after the other, so a father is always older than its
children.  Waiting for a child therefore never goes round in a circle: below
every process that waits there is one that does not.
-/

namespace Nebulea

namespace KState

/-- `child` is the record of a son of the process with record `father`. -/
def SonOf (s : KState) (child father : ProcRef) : Prop :=
  ∃ c p content, s.HasPid c child p ∧ s.HasPid p.fatherPid father content

/-- Fathers are older than their sons.  Idle, which seems to be its own son, is
left out. -/
def Elders (s : KState) : Prop :=
  ∀ child father, child ≠ idleRef → s.SonOf child father → father < child

/-- Idle does not wait for a child. -/
def IdleWaitsNot (s : KState) : Prop :=
  ∀ p, s.procs idleRef = some p → p.state ≠ .waitingPid

end KState

section Moves

variable {s : KState} {m : Move}

/-- A record that was there before has the same father, or none any more. -/
theorem Move.father_before (ok : Coherent s) (applies : m.Guard s)
    {x : ProcRef} {n : Process} (found : (m.effect s).procs x = some n)
    (lived : s.procs x ≠ none) :
    ∃ p, s.procs x = some p ∧ n.pid = p.pid ∧
      (n.fatherPid = p.fatherPid ∨ n.fatherPid = -1) := by
  obtain ⟨q, before⟩ := Option.ne_none_iff_exists'.mp lived
  have isOld : x ≠ s.nextRef := (ok.lt_nextRef before).ne
  have untouched (isSame : some q = some n) :
      ∃ p, s.procs x = some p ∧ n.pid = p.pid ∧
        (n.fatherPid = p.fatherPid ∨ n.fatherPid = -1) := by
    rw [Option.some.injEq] at isSame
    exact ⟨q, before, by rw [isSame], .inl (by rw [isSame])⟩
  have replaced {r : ProcRef} {p c : Process} (record : s.procs r = some p)
      (isR : x = r) (isNew : some c = some n) (samePid : c.pid = p.pid)
      (father : c.fatherPid = p.fatherPid ∨ c.fatherPid = -1) :
      ∃ p, s.procs x = some p ∧ n.pid = p.pid ∧
        (n.fatherPid = p.fatherPid ∨ n.fatherPid = -1) := by
    cases isNew
    exact ⟨p, isR ▸ record, samePid, father⟩
  have updated {r : ProcRef} {p c : Process} (record : s.procs r = some p)
      (found : Function.update s.procs r (some c) x = some n)
      (samePid : c.pid = p.pid)
      (father : c.fatherPid = p.fatherPid ∨ c.fatherPid = -1) :
      ∃ p, s.procs x = some p ∧ n.pid = p.pid ∧
        (n.fatherPid = p.fatherPid ∨ n.fatherPid = -1) := by
    by_cases isR : x = r
    · rw [isR, Function.update_self] at found
      exact replaced record isR found samePid father
    · rw [Function.update_of_ne isR, before] at found
      exact untouched found
  have steady (isSteady : m.IsSteady) :
      ∃ p, s.procs x = some p ∧ n.pid = p.pid ∧
        (n.fatherPid = p.fatherPid ∨ n.fatherPid = -1) := by
    have same := m.steady isSteady ok applies
    obtain ⟨p, record, context⟩ := same.procs x n found
    exact ⟨p, record, context.pid,
      .inl (same.family x p n record found).fatherPid⟩
  cases m with
  | dispatch k r p old restored =>
      rw [Move.dispatch_procs] at found
      split at found
      · rename_i isR
        exact replaced applies.2.1.2 isR found rfl (.inl rfl)
      · rw [before] at found
        exact replaced before rfl found rfl (.inl rfl)
  | create pid prio p children =>
      obtain ⟨-, onCpu, -⟩ := applies
      rw [Move.create_procs (ok.lt_nextRef onCpu.1).ne, if_neg isOld] at found
      split at found
      · rename_i isRunning
        exact replaced onCpu.1 isRunning found rfl (.inl rfl)
      · exact untouched (before ▸ found)
  | createElect pid prio p children =>
      obtain ⟨-, onCpu, -⟩ := applies
      rw [Move.createElect_procs (ok.lt_nextRef onCpu.1).ne, if_neg isOld]
        at found
      split at found
      · rename_i isRunning
        exact replaced onCpu.1 isRunning found rfl (.inl rfl)
      · exact untouched (before ▸ found)
  | handOver q content message sender r p restored =>
      obtain ⟨-, -, -, next, onCpu, -⟩ := applies
      rw [Move.handOver_procs (ok.running_ne_of_nextOut next onCpu)] at found
      split at found
      · rename_i isR
        exact replaced next.2 isR found rfl (.inl rfl)
      · split at found
        · rename_i isRunning
          exact replaced onCpu.1 isRunning found rfl (.inl rfl)
        · exact untouched (before ▸ found)
  | endProcess pid r p how father =>
      obtain ⟨has, -, -, -, woken⟩ := applies
      cases father with
      | none => exact updated has.2 found rfl (.inl rfl)
      | some father =>
          obtain ⟨f, content⟩ := father
          obtain ⟨distinct, isFather, -⟩ := woken
          rw [Move.endProcess_procs distinct] at found
          split at found
          · rename_i isF
            exact replaced isFather isF found rfl (.inl rfl)
          · split at found
            · rename_i isR
              exact replaced has.2 isR found rfl (.inl rfl)
            · exact untouched (before ▸ found)
  | endFatherless pid r p how =>
      exact updated applies.1.2 found rfl (.inl rfl)
  | orphan r p => exact updated applies.1 found rfl (.inr rfl)
  | finish pid r p => exact updated applies.1.2 found rfl (.inl rfl)
  | reap pid r p caller children =>
      obtain ⟨-, -, has, -, -, distinct, onCpu, -⟩ := applies
      rw [Move.reap_procs distinct] at found
      split at found
      · rename_i isR
        exact replaced has.2 isR found rfl (.inl rfl)
      · split at found
        · rename_i isRunning
          exact replaced onCpu.1 isRunning found rfl (.inl rfl)
        · exact untouched (before ▸ found)
  | _ => exact steady trivial

/-- Only the making of a process enters one in the table. -/
theorem Move.table_before (makes : ¬ m.Creates) {c : Int} {x : ProcRef}
    (isEntry : (m.effect s).processTable c = some x) :
    s.processTable c = some x := by
  have removed {pid : Int}
      (isEntry : Function.update s.processTable pid none c = some x) :
      s.processTable c = some x := by
    by_cases isPid : c = pid
    · rw [isPid, Function.update_self] at isEntry
      cases isEntry
    · rwa [Function.update_of_ne isPid] at isEntry
  cases m with
  | create | createElect => exact absurd trivial makes
  | endProcess pid r p how father => cases father <;> exact isEntry
  | endFatherless | finish | reap => exact removed isEntry
  | resetSem y content count | deleteSem sem y =>
      obtain ⟨_, _, _, released⟩ := s.release_eq y (s.lists (.sem y)).reverse
      simpa [Move.effect, released] using isEntry
  | _ => exact isEntry

/-- Sons are made by their fathers, and change to no other one. -/
theorem KState.Elders.move (elders : s.Elders) (ok : Coherent s)
    (okAfter : Coherent (m.effect s)) (applies : m.Guard s)
    (makes : ¬ m.Creates) : (m.effect s).Elders := by
  rintro child father notIdle ⟨c, n, content, has, hasFather⟩
  have entry := Move.table_before makes has.1
  have entryFather := Move.table_before makes hasFather.1
  obtain ⟨-, -, q, record, -⟩ := ok.procs.table c child entry
  obtain ⟨p, before, -, same | orphan⟩ := Move.father_before ok applies has.2
    (by simp [record])
  · rw [same] at entryFather
    obtain ⟨-, -, f, recordFather, -⟩ := ok.procs.table _ father entryFather
    exact elders child father notIdle
      ⟨c, p, f, ⟨entry, before⟩, ⟨entryFather, recordFather⟩⟩
  · have above := (okAfter.procs.table _ father hasFather.1).1
    omega

/-- A process in the making is younger than its father, and nobody has been
waiting for its pid to come back. -/
theorem KState.Elders.create (elders : s.Elders) (ok : Coherent s)
    (kinship : Kinship s) {t : KState} {pid : Int} {p n c : Process}
    (onCpu : s.OnCpu p) (entry : s.processTable s.currentPid = some s.running)
    (freePid : s.processTable pid = none) (nonneg : 0 ≤ pid)
    (records : ∀ x, t.procs x =
      if x = s.nextRef then some c else if x = s.running then some n
      else s.procs x)
    (table : t.processTable =
      Function.update s.processTable pid (some s.nextRef))
    (isNew : c.fatherPid = s.currentPid)
    (isFather : n.fatherPid = p.fatherPid) : t.Elders := by
  rintro child father notIdle ⟨i, m, content, has, hasFather⟩
  have otherEntry {j : Int} (other : j ≠ pid) :
      t.processTable j = s.processTable j := by
    rw [table, Function.update_of_ne other]
  have notPid : s.currentPid ≠ pid := by
    intro isPid
    rw [isPid, freePid] at entry
    cases entry
  -- the father of an old process is in the table already
  have old {q : Process} (had : s.HasPid i child q)
      (sameFather : m.fatherPid = q.fatherPid) : father < child := by
    have notNew : m.fatherPid ≠ pid := by
      intro isPid
      have isSon : q.fatherPid ≠ -1 := by omega
      obtain ⟨y, z, l, listed, -⟩ := kinship.listed i child q had notIdle isSon
      rw [← sameFather, isPid, KState.HasPid, freePid] at listed
      cases listed.1
    have hadFather : s.processTable q.fatherPid = some father := by
      rw [← sameFather, ← otherEntry notNew]
      exact hasFather.1
    obtain ⟨-, -, z, record, -⟩ := ok.procs.table _ father hadFather
    exact elders child father notIdle ⟨i, q, z, had, hadFather, record⟩
  rcases KState.HasPid.before_create ok onCpu records table has with
    ⟨isPid, rfl⟩ | ⟨had, rfl⟩ | had
  · have isChild : child = s.nextRef := by
      have same := has.1
      rw [isPid, table, Function.update_self, Option.some.injEq] at same
      exact same.symm
    have isRunning : father = s.running := by
      have same := hasFather.1
      rw [isNew, otherEntry notPid, entry, Option.some.injEq] at same
      exact same.symm
    rw [isChild, isRunning]
    exact ok.lt_nextRef onCpu.1
  · exact old had isFather
  · exact old had rfl

end Moves

section Runs

variable {s t : KState} {a : Action}

theorem Settled.elders (settled : Settled s) (kinship : Kinship s)
    (elders : s.Elders) (next : step a s = .next t) : t.Elders := by
  refine settled.keeps next (I := KState.Elders) ?_ elders
  intro u m sound permitted applies kept
  have ok := sound.coherent
  by_cases makes : m.Creates
  · cases m with
    | create pid prio p children =>
        obtain ⟨rfl, -⟩ := permitted
        obtain ⟨-, onCpu, entry, -, nonneg, -, freePid, -⟩ := applies
        exact kept.create ok kinship onCpu entry freePid nonneg
          (Move.create_procs (ok.lt_nextRef onCpu.1).ne) rfl rfl rfl
    | createElect pid prio p children =>
        obtain ⟨rfl, -⟩ := permitted
        obtain ⟨-, onCpu, entry, -, nonneg, -, freePid, -⟩ := applies
        exact kept.create ok kinship onCpu entry freePid nonneg
          (Move.createElect_procs (ok.lt_nextRef onCpu.1).ne) rfl rfl rfl
    | _ => exact absurd makes id
  · exact kept.move ok (sound.move applies).coherent applies makes

/-- Idle has no list of children, so it is never made to wait. -/
theorem Settled.idleWaitsNot (settled : Settled s) (kinship : Kinship s)
    (familial : a.Familial) (idle : s.IdleWaitsNot)
    (next : step a s = .next t) : t.IdleWaitsNot := by
  refine settled.keeps next (I := KState.IdleWaitsNot) ?_ idle
  intro u m sound permitted applies kept n found waiting
  rcases Move.waiting_before sound.coherent applies found waiting with
    ⟨p, record, before, -⟩ | ⟨p, rfl, onCpu, -⟩
  · exact kept p record before
  · obtain ⟨rfl, pid, retvalp, rfl, checked⟩ := permitted
    obtain ⟨children, isChildren, -⟩ := checked familial
    by_cases isIdle : u.running = idleRef
    · have noList := (kinship.idle p (isIdle ▸ onCpu.1)).2.1
      rw [isChildren] at noList
      cases noList
    · change (Move.effect (.awaitChild p) u).procs idleRef = some n at found
      have other : idleRef ≠ u.running := fun same => isIdle same.symm
      simp only [Move.effect, KState.relink_procs,
        Function.update_of_ne other] at found
      exact kept n found waiting

/-- What the runs below keep between two steps. -/
theorem Run.generations {apps : List String}
    (run : Run (fun _ a => a.Familial) (bootState apps) s) :
    s.Elders ∧ s.IdleWaitsNot := by
  induction run with
  | refl =>
      constructor
      · rintro child father notIdle ⟨c, p, content, ⟨-, record⟩, entry, -⟩
        rcases bootState_procs record with ⟨isIdle, -⟩ | ⟨-, rfl⟩
        · exact absurd isIdle notIdle
        · cases entry
      · intro p record
        rcases bootState_procs record with ⟨-, rfl⟩ | ⟨isIdle, -⟩
        · decide
        · cases isIdle
  | step front familial next ih =>
      have settled := front.settled bootState_settled
      have kinship := front.familiesOk.kinship
      exact ⟨settled.elders kinship ih.1 next,
        settled.idleWaitsNot kinship familial ih.2 next⟩

/-- A father in `waitpid` waits for any of its sons. -/
def KState.WaitsFor (s : KState) (father child : ProcRef) : Prop :=
  (∃ p, s.procs father = some p ∧ p.state = .waitingPid) ∧
    s.SonOf child father

/-- Waiting goes from older to younger processes. -/
theorem KState.Elders.lt_of_waitsFor (elders : s.Elders) (ok : Coherent s)
    (kinship : Kinship s) (idle : s.IdleWaitsNot) {father child : ProcRef}
    (waits : s.WaitsFor father child) : father < child := by
  obtain ⟨⟨p, record, waiting⟩, isSon⟩ := waits
  refine elders child father ?_ isSon
  -- the son of a father that waits is not idle, which is its own father
  rintro rfl
  obtain ⟨c, n, content, has, hasFather⟩ := isSon
  rw [(kinship.idle n has.2).2.2, (ok.active_of_hasPid has).1] at hasFather
  have isIdle := has.1.symm.trans hasFather.1
  rw [Option.some.injEq] at isIdle
  exact idle p (isIdle ▸ record) waiting

theorem KState.Elders.lt_of_chain (elders : s.Elders) (ok : Coherent s)
    (kinship : Kinship s) (idle : s.IdleWaitsNot) {father last : ProcRef}
    (chain : Relation.TransGen s.WaitsFor father last) : father < last := by
  induction chain with
  | single waits => exact elders.lt_of_waitsFor ok kinship idle waits
  | tail _ waits ih =>
      exact ih.trans (elders.lt_of_waitsFor ok kinship idle waits)

/-- A father that waits has a living son to wait for. -/
theorem FamiliesOk.awaited (families : FamiliesOk s) (ok : Coherent s)
    {f : ProcRef} {p : Process} (record : s.procs f = some p)
    (waiting : p.state = .waitingPid) :
    ∃ r n, s.WaitsFor f r ∧ s.procs r = some n ∧ n.Living := by
  obtain ⟨⟨c, r, n, has, isSon⟩, noZombie⟩ := families.patient f p record waiting
  have entry := ok.procs.listed f p record (by simp [waiting])
  refine ⟨r, n, ⟨⟨p, record, waiting⟩, c, n, p, has, ?_, record⟩, has.2, ?_⟩
  · rw [isSon]
    exact entry
  · refine ⟨fun zombie => noZombie c ⟨r, n, has, isSon, zombie⟩, ?_⟩
    exact (ok.active_of_hasPid has).2

/-- Below a father that waits there is a living process that does not. -/
theorem FamiliesOk.chain_ends (families : FamiliesOk s) (ok : Coherent s)
    (elders : s.Elders) (idle : s.IdleWaitsNot) (size : Nat) (f : ProcRef)
    (p : Process) (bound : s.nextRef - f ≤ size)
    (record : s.procs f = some p) (waiting : p.state = .waitingPid) :
    ∃ d n, Relation.TransGen s.WaitsFor f d ∧ s.procs d = some n ∧
      n.Living ∧ n.state ≠ .waitingPid := by
  induction size generalizing f p with
  | zero =>
      have room := Nat.sub_pos_of_lt (ok.lt_nextRef record)
      exact absurd bound (Nat.not_le.mpr room)
  | succ size ih =>
      obtain ⟨r, n, waits, isRecord, living⟩ :=
        families.awaited ok record waiting
      by_cases alsoWaits : n.state = .waitingPid
      · have younger := elders.lt_of_waitsFor ok families.kinship idle waits
        have fewer := Nat.sub_lt_sub_left
          (younger.trans (ok.lt_nextRef isRecord)) younger
        obtain ⟨d, m, chain, found⟩ :=
          ih r n (Nat.le_of_lt_succ (fewer.trans_le bound)) isRecord alsoWaits
        exact ⟨d, m, .head waits chain, found⟩
      · exact ⟨r, n, .single waits, isRecord, living, alsoWaits⟩

/-- No circle of processes waits for one another in `waitpid`, and below every
father that waits there is a living process that does not wait for a child. -/
theorem waitpid_has_no_deadlock {apps : List String} {b : KState}
    (booted : Booted apps b) (run : Run (fun _ a => a.Familial) b s) :
    (∀ f, ¬ Relation.TransGen s.WaitsFor f f) ∧
      ∀ f p, s.procs f = some p → p.state = .waitingPid →
        ∃ d n, Relation.TransGen s.WaitsFor f d ∧ s.procs d = some n ∧
          n.Living ∧ n.state ≠ .waitingPid := by
  cases booted_eq booted
  have ok := (run.settled bootState_settled).sound.coherent
  have families := run.familiesOk
  obtain ⟨elders, idle⟩ := run.generations
  constructor
  · intro f circle
    have older := elders.lt_of_chain ok families.kinship idle circle
    exact lt_irrefl f older
  · intro f p record waiting
    exact families.chain_ends ok elders idle _ f p le_rfl record waiting

/-- A grandfather waits for a father, which waits for its child. -/
theorem grandfather_waits_for_child :
    ∃ b s p, Booted ["idle", "autotest", "a", "b"] b ∧
      Run (fun _ a => a.Familial) b s ∧ s.procs 1 = some p ∧
      p.state = .waitingPid ∧ s.prio 2 = 100 ∧
      (∀ f, ¬ Relation.TransGen s.WaitsFor f f) ∧
      ∃ d n, Relation.TransGen s.WaitsFor 1 d ∧ s.procs d = some n ∧
        n.Living ∧ n.state ≠ .waitingPid := by
  obtain ⟨b, s, booted, run, checked⟩ := exists_familialRun
    ["idle", "autotest", "a", "b"]
    (firstTicks ++ [.call (.start "a" 4096 100),
      .call (.waitpid (-1) ⟨0, false⟩), .resume, .call (.start "b" 4096 50),
      .call (.waitpid (-1) ⟨0, false⟩), .resume])
    (fun s => s.prio 2 == 100 &&
      ((s.procs 2).any fun p => p.state == .waitingPid) &&
      (s.procs 1).any fun p => p.state == .waitingPid)
    (by decide) (by decide) (by decide +kernel) (by decide +kernel)
  simp only [Bool.and_eq_true, beq_iff_eq] at checked
  obtain ⟨⟨prio, -⟩, isWaiting⟩ := checked
  obtain ⟨p, record, waits⟩ := (Option.any_eq_true _ _).mp isWaiting
  rw [beq_iff_eq] at waits
  have free := waitpid_has_no_deadlock booted run
  exact ⟨b, s, p, booted, run, record, waits, prio, free.1,
    free.2 1 p record waits⟩

end Runs

end Nebulea
