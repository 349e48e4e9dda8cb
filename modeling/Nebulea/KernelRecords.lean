import Nebulea.KernelLists

/-!
# Process records, tables and heaps

A record that is not finished is the one its pid designates, and the state of a
record determines the list it is chained in.
-/

namespace Nebulea

namespace KState

/-- The list a record is chained in, given its state. -/
def LinkOk (s : KState) (p : Process) : Prop :=
  match p.state with
  | .elected => p.link = none
  | .asleep => p.link = none
  | .zombie => p.link = none
  | .activable => p.link = some .activable
  | .finished => p.link = some .finished
  | .waitingPid => p.link = some .waitingPid
  | .inMsgqueue =>
      ∃ fid q, s.queueTable fid = some q ∧ p.link = some (.queue q)
  | .inSem =>
      ∃ x, s.semaphoreTable p.waitedSem = some x ∧ p.link = some (.sem x)

theorem LinkOk.congr {s t : KState} {p n : Process} (ok : s.LinkOk p)
    (sameQueues : t.queueTable = s.queueTable)
    (sameSems : t.semaphoreTable = s.semaphoreTable)
    (sameState : n.state = p.state) (sameLink : n.link = p.link)
    (sameSem : n.waitedSem = p.waitedSem) : t.LinkOk n := by
  unfold LinkOk at ok ⊢
  rw [sameState, sameLink, sameSem, sameQueues, sameSems]
  exact ok

theorem LinkOk.link_eq_none {s : KState} {p : Process} (ok : s.LinkOk p)
    (elected : p.state = .elected) : p.link = none := by
  simpa [LinkOk, elected] using ok

/-- Being chained to a semaphore, a queue or another head tells the state. -/
theorem LinkOk.state_of_link {s : KState} {p : Process} {h : Head}
    (ok : s.LinkOk p) (link : p.link = some h) :
    match h with
    | .activable => p.state = .activable
    | .finished => p.state = .finished
    | .waitingPid => p.state = .waitingPid
    | .queue q => p.state = .inMsgqueue ∧ ∃ fid, s.queueTable fid = some q
    | .sem x => p.state = .inSem ∧ s.semaphoreTable p.waitedSem = some x := by
  unfold LinkOk at ok
  rw [link] at ok
  cases state : p.state with
  | elected | asleep | zombie =>
      rw [state] at ok
      exact absurd ok (Option.some_ne_none h)
  | activable | finished | waitingPid =>
      rw [state] at ok
      cases Option.some.inj ok
      rfl
  | inMsgqueue =>
      rw [state] at ok
      obtain ⟨fid, q, entry, same⟩ := ok
      cases Option.some.inj same
      exact ⟨rfl, fid, entry⟩
  | inSem =>
      rw [state] at ok
      obtain ⟨x, entry, same⟩ := ok
      cases Option.some.inj same
      exact ⟨rfl, entry⟩

end KState

/-- The process table and the process records. -/
structure ProcsOk (s : KState) : Prop where
  table : ∀ pid r, s.processTable pid = some r →
    0 ≤ pid ∧ pid < nbProc ∧
      ∃ p, s.procs r = some p ∧ p.pid = pid ∧ p.state ≠ .finished
  listed : ∀ r p, s.procs r = some p → p.state ≠ .finished →
    s.processTable p.pid = some r
  linked : ∀ r p, s.procs r = some p → s.LinkOk p

/-- The tables and heaps of queues and semaphores. -/
structure HeapOk (s : KState) : Prop where
  queueTable : ∀ fid q, s.queueTable fid = some q →
    0 ≤ fid ∧ fid < nbQueue ∧
      ∃ content, s.queues q = some content ∧ content.fid = fid
  semTable : ∀ sem x, s.semaphoreTable sem = some x →
    0 ≤ sem ∧ sem < nbSemaphore ∧
      ∃ content, s.sems x = some content ∧ content.sid = sem
  shorts : ∀ x content, s.sems x = some content →
    -0x8000 ≤ content.count ∧ content.count < 0x8000 ∧
      content.wasDeleted = false
  fresh : ∀ r, s.nextRef ≤ r →
    s.procs r = none ∧ s.queues r = none ∧ s.sems r = none

namespace ProcsOk

variable {s : KState} (ok : ProcsOk s)

include ok

/-- Two records that are not finished and have the same pid are the same. -/
theorem eq_of_pid {r r' : ProcRef} {p p' : Process}
    (record : s.procs r = some p) (record' : s.procs r' = some p')
    (active : p.state ≠ .finished) (active' : p'.state ≠ .finished)
    (same : p.pid = p'.pid) : r = r' := by
  have first := ok.listed r p record active
  have second := ok.listed r' p' record' active'
  rw [same, second] at first
  exact (Option.some.inj first).symm

theorem congr {t : KState} (sameProcs : t.procs = s.procs)
    (sameTable : t.processTable = s.processTable)
    (sameQueues : t.queueTable = s.queueTable)
    (sameSems : t.semaphoreTable = s.semaphoreTable) : ProcsOk t := by
  constructor
  · rw [sameProcs, sameTable]
    exact ok.table
  · rw [sameProcs, sameTable]
    exact ok.listed
  · intro r p record
    rw [sameProcs] at record
    exact (ok.linked r p record).congr sameQueues sameSems rfl rfl rfl

/-- Changing one record in place. -/
theorem update {t : KState} {r : ProcRef} {p n : Process}
    (record : s.procs r = some p)
    (procs : t.procs = Function.update s.procs r (some n))
    (sameTable : t.processTable = s.processTable)
    (sameQueues : t.queueTable = s.queueTable)
    (sameSems : t.semaphoreTable = s.semaphoreTable)
    (samePid : n.pid = p.pid)
    (sameEnd : n.state = .finished ↔ p.state = .finished)
    (linked : s.LinkOk n) : ProcsOk t := by
  constructor
  · intro pid x entry
    rw [sameTable] at entry
    obtain ⟨low, high, content, found, isPid, notFinished⟩ :=
      ok.table pid x entry
    refine ⟨low, high, ?_⟩
    rw [procs]
    by_cases same : x = r
    · subst same
      rw [record, Option.some.injEq] at found
      subst found
      exact ⟨n, by simp, samePid.trans isPid, mt sameEnd.mp notFinished⟩
    · exact ⟨content, by simp [same, found], isPid, notFinished⟩
  · intro x content found notFinished
    rw [procs] at found
    rw [sameTable]
    by_cases same : x = r
    · subst same
      simp only [Function.update_self, Option.some.injEq] at found
      subst found
      rw [samePid]
      exact ok.listed x p record (mt sameEnd.mpr notFinished)
    · rw [Function.update_of_ne same] at found
      exact ok.listed x content found notFinished
  · intro x content found
    rw [procs] at found
    by_cases same : x = r
    · subst same
      simp only [Function.update_self, Option.some.injEq] at found
      subst found
      exact linked.congr sameQueues sameSems rfl rfl rfl
    · rw [Function.update_of_ne same] at found
      exact (ok.linked x content found).congr sameQueues sameSems rfl rfl rfl

/-- A record leaves the table. -/
theorem finish {t : KState} {pid : Int} {r : ProcRef} {p n : Process}
    (has : s.HasPid pid r p)
    (procs : t.procs = Function.update s.procs r (some n))
    (table : t.processTable = Function.update s.processTable pid none)
    (sameQueues : t.queueTable = s.queueTable)
    (sameSems : t.semaphoreTable = s.semaphoreTable)
    (finished : n.state = .finished) (linked : n.link = some .finished) :
    ProcsOk t := by
  obtain ⟨entry, record⟩ := has
  constructor
  · intro other x found
    rw [table] at found
    by_cases same : other = pid
    · subst same
      simp at found
    · rw [Function.update_of_ne same] at found
      obtain ⟨low, high, content, present, isPid, notFinished⟩ :=
        ok.table other x found
      refine ⟨low, high, content, ?_, isPid, notFinished⟩
      have distinct : x ≠ r := by
        rintro rfl
        obtain ⟨-, -, content', present', isPid', -⟩ := ok.table pid x entry
        rw [present, Option.some.injEq] at present'
        subst present'
        exact same (isPid.symm.trans isPid')
      rw [procs, Function.update_of_ne distinct, present]
  · intro x content found notFinished
    rw [procs] at found
    by_cases same : x = r
    · subst same
      simp only [Function.update_self, Option.some.injEq] at found
      subst found
      exact absurd finished notFinished
    · rw [Function.update_of_ne same] at found
      have stays := ok.listed x content found notFinished
      have distinct : content.pid ≠ pid := by
        intro isPid
        rw [isPid, entry] at stays
        exact same (Option.some.inj stays).symm
      rw [table, Function.update_of_ne distinct, stays]
  · intro x content found
    rw [procs] at found
    by_cases same : x = r
    · subst same
      simp only [Function.update_self, Option.some.injEq] at found
      subst found
      simpa [KState.LinkOk, finished] using linked
    · rw [Function.update_of_ne same] at found
      exact (ok.linked x content found).congr sameQueues sameSems rfl rfl rfl

/-- Records may change in all fields but pid, state, link and semaphore. -/
theorem map {t : KState} {change : ProcRef → Process → Process}
    (procs : ∀ x, t.procs x = (s.procs x).map (change x))
    (sameTable : t.processTable = s.processTable)
    (sameQueues : t.queueTable = s.queueTable)
    (sameSems : t.semaphoreTable = s.semaphoreTable)
    (samePid : ∀ x p, (change x p).pid = p.pid)
    (sameState : ∀ x p, (change x p).state = p.state)
    (sameLink : ∀ x p, (change x p).link = p.link)
    (sameSem : ∀ x p, (change x p).waitedSem = p.waitedSem) : ProcsOk t := by
  constructor
  · intro pid x entry
    rw [sameTable] at entry
    obtain ⟨low, high, content, found, isPid, notFinished⟩ :=
      ok.table pid x entry
    refine ⟨low, high, change x content, ?_, ?_, ?_⟩
    · rw [procs, found, Option.map_some]
    · rw [samePid, isPid]
    · rw [sameState]
      exact notFinished
  · intro x content found notFinished
    rw [procs, Option.map_eq_some_iff] at found
    obtain ⟨p, record, rfl⟩ := found
    rw [sameTable, samePid]
    exact ok.listed x p record (sameState x p ▸ notFinished)
  · intro x content found
    rw [procs, Option.map_eq_some_iff] at found
    obtain ⟨p, record, rfl⟩ := found
    exact (ok.linked x p record).congr sameQueues sameSems (sameState x p)
      (sameLink x p) (sameSem x p)

/-- Adding a record at a free address under a free pid. -/
theorem insertFresh {t : KState} {r : ProcRef} {pid : Int} {p : Process}
    (freePid : s.processTable pid = none) (inRange : 0 ≤ pid ∧ pid < nbProc)
    (freeRef : s.procs r = none)
    (procs : t.procs = Function.update s.procs r (some p))
    (table : t.processTable = Function.update s.processTable pid (some r))
    (sameQueues : t.queueTable = s.queueTable)
    (sameSems : t.semaphoreTable = s.semaphoreTable)
    (isPid : p.pid = pid) (active : p.state ≠ .finished)
    (linked : s.LinkOk p) : ProcsOk t := by
  constructor
  · intro other x found
    rw [table] at found
    by_cases same : other = pid
    · subst same
      simp only [Function.update_self, Option.some.injEq] at found
      subst found
      exact ⟨inRange.1, inRange.2, p, by simp [procs], isPid, active⟩
    · rw [Function.update_of_ne same] at found
      obtain ⟨low, high, content, present, isPid', notFinished⟩ :=
        ok.table other x found
      have distinct : x ≠ r := by
        rintro rfl
        simp [freeRef] at present
      exact ⟨low, high, content, by simp [procs, distinct, present], isPid',
        notFinished⟩
  · intro x content found notFinished
    rw [procs] at found
    rw [table]
    by_cases same : x = r
    · subst same
      simp only [Function.update_self, Option.some.injEq] at found
      subst found
      simp [isPid]
    · rw [Function.update_of_ne same] at found
      have stays := ok.listed x content found notFinished
      have distinct : content.pid ≠ pid := by
        intro samePid
        rw [samePid, freePid] at stays
        simp at stays
      rw [Function.update_of_ne distinct, stays]
  · intro x content found
    rw [procs] at found
    by_cases same : x = r
    · subst same
      simp only [Function.update_self, Option.some.injEq] at found
      subst found
      exact linked.congr sameQueues sameSems rfl rfl rfl
    · rw [Function.update_of_ne same] at found
      exact (ok.linked x content found).congr sameQueues sameSems rfl rfl rfl

/-- Queues and semaphores may come, and go when nobody waits for them. -/
theorem retable {t : KState} (sameProcs : t.procs = s.procs)
    (sameTable : t.processTable = s.processTable)
    (queues : ∀ fid q r p, s.procs r = some p → p.link = some (.queue q) →
      s.queueTable fid = some q → t.queueTable fid = some q)
    (sems : ∀ x r p, s.procs r = some p → p.link = some (.sem x) →
      s.semaphoreTable p.waitedSem = some x →
        t.semaphoreTable p.waitedSem = some x) : ProcsOk t := by
  constructor
  · rw [sameProcs, sameTable]
    exact ok.table
  · rw [sameProcs, sameTable]
    exact ok.listed
  · intro r p record
    rw [sameProcs] at record
    have link := ok.linked r p record
    unfold KState.LinkOk at link ⊢
    cases state : p.state <;> simp only [state] at link ⊢ <;>
      first
      | exact link
      | (obtain ⟨fid, q, entry, chained⟩ := link
         exact ⟨fid, q, queues fid q r p record chained entry, chained⟩)
      | (obtain ⟨x, entry, chained⟩ := link
         exact ⟨x, sems x r p record chained entry, chained⟩)

/-- Releasing finished records. -/
theorem purge {keep : Option ProcRef} (lists : ListsOk s) :
    ProcsOk (s.purge keep) := by
  have untouched {r : ProcRef} {p : Process} (record : s.procs r = some p)
      (active : p.state ≠ .finished) :
      (s.purge keep).procs r = some p := by
    have notIn : r ∉ s.lists .finished := by
      intro member
      have link := lists.link_of_mem record member
      exact active ((ok.linked r p record).state_of_link link)
    simp [notIn, record]
  constructor
  · intro pid r entry
    obtain ⟨low, high, p, record, isPid, active⟩ := ok.table pid r entry
    exact ⟨low, high, p, untouched record active, isPid, active⟩
  · intro r p record active
    rw [KState.purge_procs] at record
    split at record
    · rename_i member
      split at record
      · obtain ⟨content, found, rfl⟩ := Option.map_eq_some_iff.mp record
        have link := lists.link_of_mem found member
        exact absurd ((ok.linked r content found).state_of_link link) active
      · simp at record
    · exact ok.listed r p record active
  · intro r p record
    rw [KState.purge_procs] at record
    split at record
    · rename_i member
      split at record
      · obtain ⟨content, found, rfl⟩ := Option.map_eq_some_iff.mp record
        have link := lists.link_of_mem found member
        exact (ok.linked r content found).congr rfl rfl rfl link.symm rfl
      · simp at record
    · exact (ok.linked r p record).congr rfl rfl rfl rfl rfl

end ProcsOk

namespace HeapOk

variable {s : KState} (ok : HeapOk s)

include ok

/-- Process records play no part, except that none is at a free address. -/
theorem frame {t : KState} (sameQueueTable : t.queueTable = s.queueTable)
    (sameQueues : t.queues = s.queues)
    (sameSemTable : t.semaphoreTable = s.semaphoreTable)
    (sameSems : t.sems = s.sems) (sameNext : t.nextRef = s.nextRef)
    (free : ∀ r, s.procs r = none → t.procs r = none) : HeapOk t := by
  constructor
  · rw [sameQueueTable, sameQueues]
    exact ok.queueTable
  · rw [sameSemTable, sameSems]
    exact ok.semTable
  · rw [sameSems]
    exact ok.shorts
  · intro r above
    rw [sameNext] at above
    obtain ⟨procs, queues, sems⟩ := ok.fresh r above
    rw [sameQueues, sameSems]
    exact ⟨free r procs, queues, sems⟩

/-- A semaphore changes its counter and its flag. -/
theorem setSem {x : SemRef} {content : Semaphore} {count : Int}
    {wasReset : Bool} (record : s.sems x = some content)
    (low : -0x8000 ≤ count) (high : count < 0x8000) :
    HeapOk (s.setSem x
      { content with count := count, wasReset := wasReset }) := by
  constructor
  · exact ok.queueTable
  · intro sem y entry
    obtain ⟨first, second, other, found, isSem⟩ := ok.semTable sem y entry
    refine ⟨first, second, ?_⟩
    by_cases same : y = x
    · subst same
      rw [record, Option.some.injEq] at found
      subst found
      exact ⟨_, Function.update_self y _ s.sems, isSem⟩
    · exact ⟨other, by simp [same, found], isSem⟩
  · intro y other found
    by_cases same : y = x
    · subst same
      simp only [KState.setSem_sems, Function.update_self,
        Option.some.injEq] at found
      subst found
      exact ⟨low, high, (ok.shorts y content record).2.2⟩
    · simp only [KState.setSem_sems, Function.update_of_ne same] at found
      exact ok.shorts y other found
  · intro r above
    obtain ⟨procs, queues, sems⟩ := ok.fresh r above
    have distinct : r ≠ x := by
      rintro rfl
      simp [record] at sems
    exact ⟨procs, queues, by simp [distinct, sems]⟩

/-- A queue changes, but not its identifier. -/
theorem setQueue {q : QueueRef} {content content' : MessageQueue}
    (record : s.queues q = some content) (sameFid : content'.fid = content.fid) :
    HeapOk (s.setQueue q content') := by
  constructor
  · intro fid y entry
    obtain ⟨first, second, other, found, isFid⟩ := ok.queueTable fid y entry
    refine ⟨first, second, ?_⟩
    by_cases same : y = q
    · subst same
      rw [record, Option.some.injEq] at found
      subst found
      exact ⟨content', by simp, sameFid.trans isFid⟩
    · exact ⟨other, by simp [same, found], isFid⟩
  · exact ok.semTable
  · exact ok.shorts
  · intro r above
    obtain ⟨procs, queues, sems⟩ := ok.fresh r above
    have distinct : r ≠ q := by
      rintro rfl
      simp [record] at queues
    exact ⟨procs, by simp [distinct, queues], sems⟩

/-- A table names a queue once. -/
theorem queueTable_inj {fid fid' : Int} {q : QueueRef}
    (entry : s.queueTable fid = some q)
    (entry' : s.queueTable fid' = some q) : fid = fid' := by
  obtain ⟨-, -, content, found, isFid⟩ := ok.queueTable fid q entry
  obtain ⟨-, -, content', found', isFid'⟩ := ok.queueTable fid' q entry'
  rw [found, Option.some.injEq] at found'
  subst found'
  exact isFid.symm.trans isFid'

/-- A table names a semaphore once. -/
theorem semTable_inj {sem sem' : Int} {x : SemRef}
    (entry : s.semaphoreTable sem = some x)
    (entry' : s.semaphoreTable sem' = some x) : sem = sem' := by
  obtain ⟨-, -, content, found, isSem⟩ := ok.semTable sem x entry
  obtain ⟨-, -, content', found', isSem'⟩ := ok.semTable sem' x entry'
  rw [found, Option.some.injEq] at found'
  subst found'
  exact isSem.symm.trans isSem'

end HeapOk

end Nebulea
