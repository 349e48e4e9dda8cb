import Nebulea.KernelContexts

/-!
# Fathers, children and `waitpid`

The children of a process that has not ended are in the process table with its
pid as father, and so is the process that a call of `waitpid` waits for.
-/

namespace Nebulea

namespace KState

/-- The process of this pid is a son of `father`. -/
def HasSon (s : KState) (pid father : Int) : Prop :=
  ∃ r p, s.HasPid pid r p ∧ p.fatherPid = father

def HasZombieSon (s : KState) (pid father : Int) : Prop :=
  ∃ r p, s.HasPid pid r p ∧ p.fatherPid = father ∧ p.state = .zombie

/-- The process `r` is in the kernel and will go on with `k`. -/
def Inside (s : KState) (r : ProcRef) (p : Process) (k : Context) : Prop :=
  p.stack = k ∧ (r = s.running → s.mode = .kernel k)

/-- What `waitpid(pid, …)` of process `p` relies on. -/
def Awaits (s : KState) (p : Process) (pid : Int) : Prop :=
  (0 ≤ pid → s.HasSon pid p.pid) ∧
    (p.state ≠ .waitingPid → s.HasZombieSon p.waitedPid p.pid)

/-- The sons of `father` remain so. -/
def SonsKept (s t : KState) (father : Int) : Prop :=
  ∀ pid r p, s.HasPid pid r p → p.fatherPid = father →
    ∃ n, t.HasPid pid r n ∧ n.fatherPid = father ∧
      (p.state = .zombie → n.state = .zombie)

theorem SonsKept.hasSon {s t : KState} {pid father : Int}
    (kept : s.SonsKept t father) (son : s.HasSon pid father) :
    t.HasSon pid father := by
  obtain ⟨r, p, has, isSon⟩ := son
  obtain ⟨n, stays, isSon', -⟩ := kept pid r p has isSon
  exact ⟨r, n, stays, isSon'⟩

theorem SonsKept.hasZombieSon {s t : KState} {pid father : Int}
    (kept : s.SonsKept t father) (son : s.HasZombieSon pid father) :
    t.HasZombieSon pid father := by
  obtain ⟨r, p, has, isSon, zombie⟩ := son
  obtain ⟨n, stays, isSon', zombie'⟩ := kept pid r p has isSon
  exact ⟨r, n, stays, isSon', zombie' zombie⟩

theorem Awaits.keep {s t : KState} {p n : Process} {pid : Int}
    (awaits : s.Awaits p pid) (kept : s.SonsKept t p.pid)
    (samePid : n.pid = p.pid) (sameWaited : n.waitedPid = p.waitedPid)
    (waiting : p.state = .waitingPid → n.state = .waitingPid) :
    t.Awaits n pid := by
  constructor
  · intro given
    rw [samePid]
    exact kept.hasSon (awaits.1 given)
  · intro notWaiting
    rw [samePid, sameWaited]
    exact kept.hasZombieSon (awaits.2 (mt waiting notWaiting))

/-- One record changes and stays in the table. -/
theorem sonsKept_update {s t : KState} {r : ProcRef} {p n : Process}
    (father : Int) (record : s.procs r = some p)
    (procs : t.procs = Function.update s.procs r (some n))
    (table : t.processTable = s.processTable)
    (sameFather : p.fatherPid = father → n.fatherPid = father)
    (zombie : p.state = .zombie → n.state = .zombie) :
    s.SonsKept t father := by
  rintro pid x c ⟨entry, found⟩ isSon
  by_cases isR : x = r
  · subst isR
    rw [record, Option.some.injEq] at found
    subst found
    exact ⟨n, ⟨table ▸ entry, by simp [procs]⟩, sameFather isSon, zombie⟩
  · exact ⟨c, ⟨table ▸ entry, by simp [procs, isR, found]⟩, isSon, id⟩

/-- The record of `pid`, which is not a son of `father`, leaves the table. -/
theorem sonsKept_finish {s t : KState} {pid : Int} {r : ProcRef}
    {p n : Process} (father : Int) (has : s.HasPid pid r p)
    (procs : t.procs = Function.update s.procs r (some n))
    (table : t.processTable = Function.update s.processTable pid none)
    (noSon : p.fatherPid ≠ father) : s.SonsKept t father := by
  rintro pid' x c ⟨entry, found⟩ isSon
  have notR : x ≠ r := by
    rintro rfl
    rw [has.2, Option.some.injEq] at found
    exact noSon (found ▸ isSon)
  have notPid : pid' ≠ pid := by
    rintro rfl
    rw [has.1, Option.some.injEq] at entry
    exact notR entry.symm
  exact ⟨c, ⟨by simp [table, notPid, entry], by simp [procs, notR, found]⟩,
    isSon, id⟩

end KState

theorem Steady.sonsKept {s t : KState} (same : Steady s t) (ok : Coherent s)
    (father : Int) : s.SonsKept t father := by
  rintro pid r p ⟨entry, record⟩ isSon
  have active := (ok.active_of_hasPid ⟨entry, record⟩).2
  obtain ⟨c, found⟩ := same.kept r p record active
  have kin := same.family r p c record found
  exact ⟨c, ⟨same.table ▸ entry, found⟩, kin.fatherPid.trans isSon,
    kin.zombie.mpr⟩

/-- Families are coherent. -/
structure FamilyOk (s : KState) : Prop where
  children : ∀ r p l, s.procs r = some p → p.Living → p.children = some l →
    (l.map Child.pid).Nodup ∧ ∀ c ∈ l, s.HasSon c.pid p.pid
  self : ∀ r p, s.procs r = some p → p.fatherPid = p.pid → p.children = none
  awaits : ∀ r p pid retvalp, s.procs r = some p → p.Living →
    s.Inside r p (.waitpid pid retvalp) → s.Awaits p pid

namespace FamilyOk

variable {s t : KState}

/-- Sons are kept, and so is what a record says about the family. -/
theorem keep (family : FamilyOk s)
    (sons : ∀ x n, t.procs x = some n → n.Living → s.SonsKept t n.pid)
    (records : ∀ x n, t.procs x = some n →
      ∃ p, s.procs x = some p ∧ n.pid = p.pid ∧ n.children = p.children ∧
        (n.fatherPid = n.pid → p.fatherPid = p.pid) ∧
        (n.Living → p.Living ∧ ∀ pid retvalp,
          t.Inside x n (.waitpid pid retvalp) →
            t.Awaits n pid ∨ s.Inside x p (.waitpid pid retvalp) ∧
              n.waitedPid = p.waitedPid ∧
              (p.state = .waitingPid → n.state = .waitingPid))) :
    FamilyOk t := by
  constructor
  · intro x n l found living isList
    obtain ⟨p, record, samePid, sameChildren, -, alive⟩ := records x n found
    have before := family.children x p l record (alive living).1
      (sameChildren ▸ isList)
    refine ⟨before.1, ?_⟩
    intro c member
    have son := before.2 c member
    rw [← samePid] at son
    exact (sons x n found living).hasSon son
  · intro x n found isSelf
    obtain ⟨p, record, -, sameChildren, self, -⟩ := records x n found
    rw [sameChildren]
    exact family.self x p record (self isSelf)
  · intro x n pid retvalp found living inside
    obtain ⟨p, record, samePid, -, -, alive⟩ := records x n found
    obtain ⟨before, awaits⟩ := alive living
    rcases awaits pid retvalp inside with done | ⟨inside', waited, waiting⟩
    · exact done
    · have kept := sons x n found living
      rw [samePid] at kept
      exact (family.awaits x p pid retvalp record before inside').keep kept
        samePid waited waiting

theorem steady (family : FamilyOk s) (same : Steady s t) (ok : Coherent s) :
    FamilyOk t := by
  refine family.keep (fun x n _ _ => same.sonsKept ok n.pid) ?_
  intro x n found
  obtain ⟨p, record, context⟩ := same.procs x n found
  have kin := same.family x p n record found
  refine ⟨p, record, context.pid, kin.children, ?_, ?_⟩
  · intro isSelf
    rw [← kin.fatherPid, isSelf, context.pid]
  · intro living
    refine ⟨context.living living, ?_⟩
    rintro pid retvalp ⟨stack, mode⟩
    refine .inr ⟨⟨context.stack ▸ stack, ?_⟩, kin.waitedPid, kin.waiting⟩
    intro isRunning
    have inKernel := mode (isRunning.trans same.running.symm)
    rcases same.mode with sameMode | leaves
    · exact sameMode ▸ inKernel
    · exact absurd inKernel (leaves _)

/-- A record that is no son of a living process leaves the table. -/
theorem finish (family : FamilyOk s) {pid : Int} {r : ProcRef}
    {p n : Process} (ok : Coherent s) (has : s.HasPid pid r p)
    (procs : t.procs = Function.update s.procs r (some n))
    (table : t.processTable = Function.update s.processTable pid none)
    (running : t.running = s.running) (mode : t.mode = s.mode)
    (fatherless : p.fatherPid = -1) (finished : n.state = .finished)
    (samePid : n.pid = p.pid) (sameFather : n.fatherPid = p.fatherPid)
    (sameChildren : n.children = p.children) : FamilyOk t := by
  have atR {x : ProcRef} {c : Process} (found : t.procs x = some c)
      (isR : x = r) : c = n := by
    rw [procs, isR, Function.update_self, Option.some.injEq] at found
    exact found.symm
  have elsewhere {x : ProcRef} {c : Process} (found : t.procs x = some c)
      (notR : x ≠ r) : s.procs x = some c := by
    rwa [procs, Function.update_of_ne notR] at found
  refine family.keep ?_ ?_
  · intro x c found living
    refine KState.sonsKept_finish c.pid has procs table ?_
    have notR : x ≠ r := by
      intro isR
      rw [atR found isR] at living
      exact living.2 finished
    have nonneg := ok.pid_nonneg (elsewhere found notR) living.2
    omega
  · intro x c found
    by_cases isR : x = r
    · have same := atR found isR
      subst same
      refine ⟨p, isR ▸ has.2, samePid, sameChildren, ?_, ?_⟩
      · rw [samePid, sameFather]
        exact id
      · intro living
        exact absurd finished living.2
    · refine ⟨c, elsewhere found isR, rfl, rfl, id, ?_⟩
      intro living
      refine ⟨living, ?_⟩
      rintro pid retvalp ⟨stack, inKernel⟩
      refine .inr ⟨⟨stack, ?_⟩, rfl, id⟩
      intro isRunning
      exact mode ▸ inKernel (isRunning.trans running.symm)

theorem orphan (family : FamilyOk s) (ok : Coherent s) {r : ProcRef}
    {p : Process} (applies : (Move.orphan r p).Guard s) :
    FamilyOk ((Move.orphan r p).effect s) := by
  obtain ⟨record, active, noFather⟩ := applies
  have atR {c : Process}
      (found : ((Move.orphan r p).effect s).procs r = some c) :
      c = { p with fatherPid := -1 } := by
    simpa [Move.effect] using found.symm
  have elsewhere {x : ProcRef} {c : Process} (notR : x ≠ r)
      (found : ((Move.orphan r p).effect s).procs x = some c) :
      s.procs x = some c := by
    simpa [Move.effect, notR] using found
  refine family.keep ?_ ?_
  · intro x c found living
    refine KState.sonsKept_update c.pid record rfl rfl ?_ id
    intro isSon
    by_cases isR : x = r
    · subst isR
      have same := atR found
      subst same
      exact absurd isSon.symm (noFather x p record living)
    · exact absurd isSon.symm (noFather x c (elsewhere isR found) living)
  · intro x c found
    by_cases isR : x = r
    · subst isR
      have same := atR found
      subst same
      refine ⟨p, record, rfl, rfl, ?_, ?_⟩
      · intro isSelf
        have nonneg := ok.pid_nonneg record active
        dsimp only at isSelf
        omega
      · intro living
        refine ⟨living, ?_⟩
        intro pid retvalp inside
        exact .inr ⟨inside, rfl, id⟩
    · refine ⟨c, elsewhere isR found, rfl, rfl, id, ?_⟩
      intro living
      refine ⟨living, ?_⟩
      intro pid retvalp inside
      exact .inr ⟨inside, rfl, id⟩

/-- The end of a process keeps all sons, itself included. -/
theorem sonsKept_endProcess {pid : Int} {r : ProcRef} {p : Process}
    {how : Ending} {father : Option (ProcRef × Process)} (ok : Coherent s)
    (applies : (Move.endProcess pid r p how father).Guard s) (i : Int) :
    s.SonsKept ((Move.endProcess pid r p how father).effect s) i := by
  obtain ⟨has, -, -, -, woken⟩ := applies
  cases father with
  | none =>
      exact KState.sonsKept_update i has.2 rfl rfl id (fun _ => rfl)
  | some father =>
      obtain ⟨f, father⟩ := father
      obtain ⟨distinct, record, link, -⟩ := woken
      have state : father.state = .waitingPid :=
        (ok.procs.linked f father record).state_of_link link
      rintro pid' x c ⟨entry, found⟩ isSon
      have after := Move.endProcess_procs (s := s) (h := how) (p := p)
        (i := pid) (f := father) distinct x
      by_cases isF : x = f
      · subst isF
        rw [record, Option.some.injEq] at found
        subst found
        rw [if_pos rfl] at after
        exact ⟨_, ⟨entry, after⟩, isSon, by simp [state]⟩
      · rw [if_neg isF] at after
        by_cases isR : x = r
        · subst isR
          rw [has.2, Option.some.injEq] at found
          subst found
          rw [if_pos rfl] at after
          exact ⟨_, ⟨entry, after⟩, isSon, fun _ => rfl⟩
        · rw [if_neg isR, found] at after
          exact ⟨c, ⟨entry, after⟩, isSon, id⟩

theorem endProcess (family : FamilyOk s) {pid : Int} {r : ProcRef}
    {p : Process} {how : Ending} {father : Option (ProcRef × Process)}
    (ok : Coherent s)
    (applies : (Move.endProcess pid r p how father).Guard s) :
    FamilyOk ((Move.endProcess pid r p how father).effect s) := by
  have sons := sonsKept_endProcess ok applies
  refine family.keep (fun x c _ _ => sons c.pid) ?_
  obtain ⟨has, living, -, -, woken⟩ := applies
  intro x c found
  cases father with
  | none =>
      by_cases isR : x = r
      · subst isR
        have same : { p with
            retval := how.retval, state := .zombie, link := none } = c := by
          simpa [Move.effect] using found
        subst same
        refine ⟨p, has.2, rfl, rfl, id, ?_⟩
        intro alive
        exact absurd rfl alive.1
      · refine ⟨c, by simpa [Move.effect, isR] using found, rfl, rfl, id, ?_⟩
        intro alive
        exact ⟨alive, fun _ _ inside => .inr ⟨inside, rfl, id⟩⟩
  | some father =>
      obtain ⟨f, father⟩ := father
      obtain ⟨distinct, record, link, isFather⟩ := woken
      have state : father.state = .waitingPid :=
        (ok.procs.linked f father record).state_of_link link
      have after := (Move.endProcess_procs distinct x).symm.trans found
      split at after
      · rename_i isF
        subst isF
        cases after
        refine ⟨father, record, rfl, rfl, id, ?_⟩
        intro alive
        refine ⟨by simp [Process.Living, state], ?_⟩
        intro pid' retvalp inside
        refine .inl ⟨?_, ?_⟩
        · intro given
          refine (sons _).hasSon ((family.awaits x father pid' retvalp record
            (by simp [Process.Living, state]) inside).1 given)
        · intro _
          refine ⟨r, { p with
            retval := how.retval, state := .zombie, link := none },
            ⟨has.1, ?_⟩, isFather.symm, rfl⟩
          rw [Move.endProcess_procs distinct, if_neg distinct.symm, if_pos rfl]
      · split at after
        · rename_i isR
          subst isR
          cases after
          refine ⟨p, has.2, rfl, rfl, id, ?_⟩
          intro alive
          exact absurd rfl alive.1
        · refine ⟨c, after, rfl, rfl, id, ?_⟩
          intro alive
          exact ⟨alive, fun _ _ inside => .inr ⟨inside, rfl, id⟩⟩

theorem reap (family : FamilyOk s) (ok : Coherent s) (cpu : CpuOk s)
    {pid : Int} {r : ProcRef} {p caller : Process} {children : List Child}
    (applies : (Move.reap pid r p caller children).Guard s) :
    FamilyOk ((Move.reap pid r p caller children).effect s) := by
  obtain ⟨-, -, has, -, isSon, distinct, onCpu, before, isBefore, sub, gone,
    -⟩ := applies
  have records := Move.reap_procs (s := s) (i := pid) (p := p) (c := caller)
    (l := children) distinct
  have callerPid : caller.pid = s.currentPid := by
    obtain ⟨content, record, isPid⟩ := cpu.current
    rw [onCpu.1, Option.some.injEq] at record
    exact record ▸ isPid
  have callerLiving : caller.Living := by simp [Process.Living, onCpu.2]
  have sons (father pid' : Int) (x : ProcRef) (c : Process)
      (has' : s.HasPid pid' x c) (isSon' : c.fatherPid = father)
      (other : pid' ≠ pid) :
      ∃ n, ((Move.reap pid r p caller children).effect s).HasPid pid' x n ∧
        n.fatherPid = father ∧ (c.state = .zombie → n.state = .zombie) := by
    obtain ⟨entry, found⟩ := has'
    have after := records x
    have notR : x ≠ r := by
      rintro rfl
      have first := (ok.active_of_hasPid ⟨entry, found⟩).1
      have second := (ok.active_of_hasPid has).1
      rw [has.2, Option.some.injEq] at found
      subst found
      exact other (first.symm.trans second)
    rw [if_neg notR] at after
    have entry' : ((Move.reap pid r p caller children).effect s).processTable
        pid' = some x := by
      simpa [Move.effect, other] using entry
    by_cases isRunning : x = s.running
    · subst isRunning
      rw [onCpu.1, Option.some.injEq] at found
      subst found
      rw [if_pos rfl] at after
      exact ⟨_, ⟨entry', after⟩, isSon', by simp [onCpu.2]⟩
    · rw [if_neg isRunning, found] at after
      exact ⟨c, ⟨entry', after⟩, isSon', id⟩
  constructor
  · intro x n l found living isList
    have after := (records x).symm.trans found
    split at after
    · cases after
      exact absurd rfl living.2
    · split at after
      · cases after
        cases isList
        have known := family.children s.running caller before onCpu.1
          callerLiving isBefore
        refine ⟨known.1.sublist (sub.map _), ?_⟩
        intro c member
        obtain ⟨x', c', has', isSon'⟩ := known.2 c (sub.subset member)
        obtain ⟨n, stays, isSon'', -⟩ := sons caller.pid c.pid x' c' has'
          isSon' (gone c member)
        exact ⟨x', n, stays, isSon''⟩
      · rename_i notRunning
        have known := family.children x n l after living isList
        refine ⟨known.1, ?_⟩
        intro c member
        obtain ⟨x', c', has', isSon'⟩ := known.2 c member
        have other : c.pid ≠ pid := by
          intro same
          rw [same] at has'
          have sameRef := has'.1.symm.trans has.1
          rw [Option.some.injEq] at sameRef
          subst sameRef
          have sameRecord := has'.2.symm.trans has.2
          rw [Option.some.injEq] at sameRecord
          subst sameRecord
          exact notRunning (ok.procs.eq_of_pid after onCpu.1 living.2
            callerLiving.2 (by rw [callerPid, ← isSon, isSon']))
        obtain ⟨m, stays, isSon'', -⟩ := sons n.pid c.pid x' c' has' isSon'
          other
        exact ⟨x', m, stays, isSon''⟩
  · intro x n found isSelf
    have after := (records x).symm.trans found
    split at after
    · rename_i isR
      cases after
      exact family.self x p (isR ▸ has.2) isSelf
    · split at after
      · cases after
        have noList := family.self s.running caller onCpu.1 isSelf
        rw [isBefore] at noList
        simp at noList
      · exact family.self x n after isSelf
  · intro x n pid' retvalp found living inside
    have after := (records x).symm.trans found
    split at after
    · cases after
      exact absurd rfl living.2
    · have notRunning : x ≠ s.running := by
        intro isRunning
        have inKernel := inside.2 isRunning
        simp [Move.effect] at inKernel
      rw [if_neg notRunning] at after
      have known := family.awaits x n pid' retvalp after living
        ⟨inside.1, fun isRunning => absurd isRunning notRunning⟩
      have kept : s.SonsKept
          ((Move.reap pid r p caller children).effect s) n.pid := by
        intro i x' c has' isSon'
        refine sons n.pid i x' c has' isSon' ?_
        rintro rfl
        have sameRef := has'.1.symm.trans has.1
        rw [Option.some.injEq] at sameRef
        subst sameRef
        have sameRecord := has'.2.symm.trans has.2
        rw [Option.some.injEq] at sameRecord
        subst sameRecord
        exact notRunning (ok.procs.eq_of_pid after onCpu.1 living.2
          callerLiving.2 (by rw [callerPid, ← isSon, isSon']))
      exact known.keep kept rfl rfl id

/-- Sons of all fathers are kept when a process is added. -/
theorem sonsKept_create (ok : Coherent s) {pid : Int} {p n c : Process}
    (onCpu : s.OnCpu p) (freePid : s.processTable pid = none)
    (records : ∀ x, t.procs x =
      if x = s.nextRef then some c else if x = s.running then some n
      else s.procs x)
    (table : t.processTable =
      Function.update s.processTable pid (some s.nextRef))
    (sameFather : n.fatherPid = p.fatherPid) (father : Int) :
    s.SonsKept t father := by
  rintro pid' x content ⟨entry, found⟩ isSon
  have notNew : x ≠ s.nextRef := (ok.lt_nextRef found).ne
  have other : pid' ≠ pid := by
    rintro rfl
    simp [freePid] at entry
  have entry' : t.processTable pid' = some x := by
    simpa [table, other] using entry
  have after := records x
  rw [if_neg notNew] at after
  by_cases isRunning : x = s.running
  · subst isRunning
    rw [onCpu.1, Option.some.injEq] at found
    subst found
    rw [if_pos rfl] at after
    exact ⟨n, ⟨entry', after⟩, sameFather.trans isSon, by simp [onCpu.2]⟩
  · rw [if_neg isRunning, found] at after
    exact ⟨content, ⟨entry', after⟩, isSon, id⟩

/-- A new process is a son of the one on the processor. -/
theorem create (family : FamilyOk s) (ok : Coherent s) (cpu : CpuOk s)
    {pid prio : Int} {p n c : Process} {children : List Child}
    (onCpu : s.OnCpu p) (entry : s.processTable s.currentPid = some s.running)
    (isChildren : p.children = some children)
    (freePid : s.processTable pid = none)
    (records : ∀ x, t.procs x =
      if x = s.nextRef then some c else if x = s.running then some n
      else s.procs x)
    (table : t.processTable =
      Function.update s.processTable pid (some s.nextRef))
    (isNew : c.pid = pid ∧ c.fatherPid = s.currentPid ∧
      c.children = some [] ∧ c.stack = .fresh)
    (isFather : n.pid = p.pid ∧ n.fatherPid = p.fatherPid ∧
      n.children = some (addChild ⟨pid, prio⟩ children))
    (outside : ∀ i retvalp, ¬ t.Inside s.running n (.waitpid i retvalp))
    (others : ∀ x k content, x ≠ s.nextRef → x ≠ s.running →
      t.Inside x content k → s.Inside x content k) : FamilyOk t := by
  have sons := sonsKept_create ok onCpu freePid records table isFather.2.1
  have callerPid : p.pid = s.currentPid := by
    obtain ⟨content, record, isPid⟩ := cpu.current
    rw [onCpu.1, Option.some.injEq] at record
    exact record ▸ isPid
  have callerLiving : p.Living := by simp [Process.Living, onCpu.2]
  constructor
  · intro x content l found living isList
    rw [records] at found
    split at found
    · cases found
      rw [isNew.2.2.1, Option.some.injEq] at isList
      subst isList
      exact ⟨List.nodup_nil, by simp⟩
    · split at found
      · cases found
        rw [isFather.2.2, Option.some.injEq] at isList
        subst isList
        have known := family.children s.running p children onCpu.1
          callerLiving isChildren
        have perm := List.perm_orderedInsert (fun first second : Child =>
          first.priority ≤ second.priority) ⟨pid, prio⟩ children
        constructor
        · refine (perm.map Child.pid).nodup_iff.mpr ?_
          refine List.nodup_cons.mpr ⟨?_, known.1⟩
          intro member
          obtain ⟨child, listed, isPid⟩ := List.mem_map.mp member
          obtain ⟨r, content, has, -⟩ := known.2 child listed
          rw [isPid] at has
          simpa [freePid] using has.1
        · intro child member
          rcases List.mem_cons.mp (perm.mem_iff.mp member) with rfl | listed
          · refine ⟨s.nextRef, c, ⟨by simp [table], by simp [records]⟩, ?_⟩
            rw [isNew.2.1, isFather.1, callerPid]
          · rw [isFather.1]
            exact (sons p.pid).hasSon (known.2 child listed)
      · have known := family.children x content l found living isList
        exact ⟨known.1, fun child member =>
          (sons content.pid).hasSon (known.2 child member)⟩
  · intro x content found isSelf
    rw [records] at found
    split at found
    · cases found
      rw [isNew.1, isNew.2.1] at isSelf
      rw [isSelf, freePid] at entry
      simp at entry
    · split at found
      · cases found
        rw [isFather.1, isFather.2.1] at isSelf
        have noList := family.self s.running p onCpu.1 isSelf
        rw [isChildren] at noList
        simp at noList
      · exact family.self x content found isSelf
  · intro x content i retvalp found living inside
    rw [records] at found
    split at found
    · cases found
      have fresh := inside.1
      rw [isNew.2.2.2] at fresh
      simp at fresh
    · split at found
      · rename_i isRunning
        cases found
        exact absurd (isRunning ▸ inside) (outside i retvalp)
      · rename_i notNew notRunning
        exact (family.awaits x content i retvalp found living
          (others x _ content notNew notRunning inside)).keep
            (sons content.pid) rfl rfl id

theorem dispatch (family : FamilyOk s) (ok : Coherent s)
    {k restored : Context} {r old : ProcRef} {p : Process}
    (applies : (Move.dispatch k r p old restored).Guard s) :
    FamilyOk ((Move.dispatch k r p old restored).effect s) := by
  obtain ⟨-, next, -, -, -, ⟨content, record, left, fits⟩, -⟩ := applies
  have state := ok.activable_of_nextOut next
  have sons (father : Int) : s.SonsKept
      ((Move.dispatch k r p old restored).effect s) father := by
    rintro pid x c ⟨entry, found⟩ isSon
    have after := Move.dispatch_procs (s := s) (k := k) (r := r) (p := p)
      (o := old) (c := restored) x
    by_cases isNew : x = r
    · subst isNew
      rw [next.2, Option.some.injEq] at found
      subst found
      rw [if_pos rfl] at after
      exact ⟨_, ⟨entry, after⟩, isSon, by simp [state]⟩
    · rw [if_neg isNew, found, Option.map_some] at after
      exact ⟨_, ⟨entry, after⟩, isSon, id⟩
  refine family.keep (fun x n _ _ => sons n.pid) ?_
  intro x n found
  rw [Move.dispatch_procs] at found
  split at found
  · rename_i isNew
    subst isNew
    cases found
    refine ⟨p, next.2, rfl, rfl, id, ?_⟩
    intro _
    refine ⟨by simp [Process.Living, state], ?_⟩
    rintro pid retvalp ⟨stack, -⟩
    by_cases isRunning : x = s.running
    · simp only [isRunning, if_true] at stack
      subst stack
      subst isRunning
      rw [next.2, Option.some.injEq] at record
      subst record
      have waiting := fits.1
      simp [state] at waiting
    · simp only [isRunning, if_false] at stack
      exact .inr ⟨⟨stack, fun same => absurd same isRunning⟩, rfl,
        by simp [state]⟩
  · rename_i notNew
    obtain ⟨before, present, rfl⟩ := Option.map_eq_some_iff.mp found
    refine ⟨before, present, rfl, rfl, id, ?_⟩
    intro living
    refine ⟨living, ?_⟩
    rintro pid retvalp ⟨stack, -⟩
    by_cases isRunning : x = s.running
    · simp only [isRunning, if_true] at stack
      subst stack
      subst isRunning
      rw [record, Option.some.injEq] at present
      subst present
      obtain ⟨waiting, awaited⟩ := fits
      refine .inl ⟨?_, ?_⟩
      · intro given
        obtain ⟨r', child, entry, found', isSon⟩ := awaited given
        exact (sons content.pid).hasSon ⟨r', child, ⟨entry, found'⟩, isSon⟩
      · intro notWaiting
        exact absurd waiting notWaiting
    · simp only [isRunning, if_false] at stack
      exact .inr ⟨⟨stack, fun same => absurd same isRunning⟩, rfl, id⟩

theorem handOver (family : FamilyOk s) (ok : Coherent s) {q : QueueRef}
    {content : MessageQueue} {message : Int} {sender p : Process}
    {r : ProcRef} {restored : Context}
    (applies : (Move.handOver q content message sender r p restored).Guard s) :
    FamilyOk
      ((Move.handOver q content message sender r p restored).effect s) := by
  obtain ⟨-, -, -, next, onCpu, -⟩ := applies
  have distinct := ok.running_ne_of_nextOut next onCpu
  have state := ok.inMsgqueue_of_nextOut next
  refine family.keep ?_ ?_
  · rintro _ m - - pid x c ⟨entry, found⟩ isSon
    have after := Move.handOver_procs (s := s) (q := q) (c := content)
      (m := message) (k := restored) (p := p) (n := sender) distinct x
    by_cases isNew : x = r
    · subst isNew
      rw [next.2, Option.some.injEq] at found
      subst found
      rw [if_pos rfl] at after
      exact ⟨_, ⟨entry, after⟩, isSon, by simp [state]⟩
    · rw [if_neg isNew] at after
      by_cases isRunning : x = s.running
      · subst isRunning
        rw [onCpu.1, Option.some.injEq] at found
        subst found
        rw [if_pos rfl] at after
        exact ⟨_, ⟨entry, after⟩, isSon, by simp [onCpu.2]⟩
      · rw [if_neg isRunning, found] at after
        exact ⟨c, ⟨entry, after⟩, isSon, id⟩
  · intro x n found
    rw [Move.handOver_procs distinct] at found
    split at found
    · rename_i isNew
      subst isNew
      cases found
      refine ⟨p, next.2, rfl, rfl, id, ?_⟩
      intro _
      refine ⟨by simp [Process.Living, state], ?_⟩
      rintro pid retvalp ⟨stack, -⟩
      exact .inr ⟨⟨stack, fun same => absurd same.symm distinct⟩, rfl,
        by simp [state]⟩
    · split at found
      · rename_i isRunning
        subst isRunning
        cases found
        refine ⟨sender, onCpu.1, rfl, rfl, id, ?_⟩
        intro _
        refine ⟨by simp [Process.Living, onCpu.2], ?_⟩
        rintro pid retvalp ⟨stack, -⟩
        simp at stack
      · rename_i notNew notRunning
        refine ⟨n, found, rfl, rfl, id, ?_⟩
        intro living
        refine ⟨living, ?_⟩
        rintro pid retvalp ⟨stack, -⟩
        exact .inr ⟨⟨stack, fun same => absurd same notRunning⟩, rfl, id⟩

theorem move (family : FamilyOk s) (ok : Coherent s) (cpu : CpuOk s)
    {m : Move} (applies : m.Guard s) : FamilyOk (m.effect s) := by
  cases m with
  | dispatch k r p old restored => exact family.dispatch ok applies
  | create pid prio p children =>
      obtain ⟨user, onCpu, entry, isChildren, -, -, freePid, -⟩ := applies
      refine family.create ok cpu onCpu entry isChildren freePid
        (Move.create_procs (ok.lt_nextRef onCpu.1).ne) rfl
        ⟨rfl, rfl, rfl, rfl⟩ ⟨rfl, rfl, rfl⟩ ?_ ?_
      · rintro i retvalp ⟨-, inKernel⟩
        have mode := inKernel rfl
        simp [Move.effect, user] at mode
      · intro x k content _ _ inside
        exact inside
  | createElect pid prio p children =>
      obtain ⟨-, onCpu, entry, isChildren, -, -, freePid, -⟩ := applies
      refine family.create ok cpu onCpu entry isChildren freePid
        (Move.createElect_procs (ok.lt_nextRef onCpu.1).ne) rfl
        ⟨rfl, rfl, rfl, rfl⟩ ⟨rfl, rfl, rfl⟩ ?_ ?_
      · rintro i retvalp ⟨stack, -⟩
        simp at stack
      · intro x k content _ notRunning inside
        exact ⟨inside.1, fun same => absurd same notRunning⟩
  | endProcess pid r p how father => exact family.endProcess ok applies
  | endFatherless pid r p how =>
      obtain ⟨has, living, fatherless, -⟩ := applies
      exact family.finish ok has rfl rfl rfl rfl fatherless rfl rfl rfl rfl
  | orphan r p => exact family.orphan ok applies
  | finish pid r p =>
      obtain ⟨has, -, fatherless, -⟩ := applies
      exact family.finish ok has rfl rfl rfl rfl fatherless rfl rfl rfl rfl
  | reap pid r p caller children => exact family.reap ok cpu applies
  | handOver q content message sender r p restored =>
      exact family.handOver ok applies
  | settle | fault | note | tick | yield | sleep | awaitChild | awaitSend
  | awaitReceive | awaitSem | purge | wakeSleeper | reprio | clearSkip
  | refuse | newQueue | flush | deleteQueue | resetQueue | put | take
  | refill | receive | newSem | acquire | post | postWake | clearReset
  | resetSem | deleteSem =>
      refine family.steady (Move.steady ?_ ok applies) ok
      trivial

end FamilyOk

end Nebulea
