import Nebulea.KernelRecords

/-!
# Coherence of lists, records and tables

The facts of the two previous modules together, and their preservation by each
of the state changes that the moves are composed of.
-/

namespace Nebulea

theorem short_low (value : Int) : -0x8000 ≤ short value := by
  have bound := Int.le_bmod (x := value) (m := 0x10000) (by decide)
  simpa [short] using bound

theorem short_high (value : Int) : short value < 0x8000 := by
  have bound := Int.bmod_lt (x := value) (m := 0x10000) (by decide)
  simpa [short] using bound

/-- Lists, process records and tables of a kernel state agree. -/
structure Coherent (s : KState) : Prop where
  lists : ListsOk s
  procs : ProcsOk s
  heap : HeapOk s

namespace KState

/-- `t` has the same records, lists and tables as `s`. -/
structure SameData (s t : KState) : Prop where
  procs : t.procs = s.procs
  processTable : t.processTable = s.processTable
  lists : t.lists = s.lists
  queueTable : t.queueTable = s.queueTable
  queues : t.queues = s.queues
  semaphoreTable : t.semaphoreTable = s.semaphoreTable
  sems : t.sems = s.sems
  nextRef : t.nextRef = s.nextRef
  stamp : t.stamp = s.stamp

end KState

namespace Coherent

variable {s t : KState}

theorem frame (ok : Coherent s) (same : s.SameData t) : Coherent t where
  lists := ok.lists.congr same.procs same.lists same.stamp
  procs := ok.procs.congr same.procs same.processTable same.queueTable
    same.semaphoreTable
  heap := ok.heap.frame same.queueTable same.queues same.semaphoreTable
    same.sems same.nextRef (by simp [same.procs])

theorem note (ok : Coherent s) (e : Event) : Coherent (s.note e) :=
  ok.frame ⟨rfl, rfl, rfl, rfl, rfl, rfl, rfl, rfl, rfl⟩

/-- The record of an elected process is in no list. -/
theorem link_of_elected (ok : Coherent s) {r : ProcRef} {p : Process}
    (record : s.procs r = some p) (elected : p.state = .elected) :
    p.link = none :=
  (ok.procs.linked r p record).link_eq_none elected

theorem link_of_nextOut (ok : Coherent s) {h : Head} {r : ProcRef}
    {p : Process} (next : s.NextOut h r p) : p.link = some h :=
  ok.lists.link_of_mem next.2 (List.mem_of_getLast? next.1)

/-- The next process out of a list is not the one on the processor. -/
theorem running_ne_of_nextOut (ok : Coherent s) {h : Head} {r : ProcRef}
    {p current : Process} (next : s.NextOut h r p)
    (onCpu : s.OnCpu current) : s.running ≠ r := by
  rintro rfl
  have link := ok.link_of_nextOut next
  have same := next.2.symm.trans onCpu.1
  rw [Option.some.injEq] at same
  rw [same, ok.link_of_elected onCpu.1 onCpu.2] at link
  simp at link

theorem activable_of_nextOut (ok : Coherent s) {r : ProcRef} {p : Process}
    (next : s.NextOut .activable r p) : p.state = .activable :=
  (ok.procs.linked r p next.2).state_of_link (ok.link_of_nextOut next)

theorem inMsgqueue_of_nextOut (ok : Coherent s) {q : QueueRef} {r : ProcRef}
    {p : Process} (next : s.NextOut (.queue q) r p) :
    p.state = .inMsgqueue :=
  ((ok.procs.linked r p next.2).state_of_link (ok.link_of_nextOut next)).1

theorem inSem_of_nextOut (ok : Coherent s) {x : SemRef} {r : ProcRef}
    {p : Process} (next : s.NextOut (.sem x) r p) : p.state = .inSem :=
  ((ok.procs.linked r p next.2).state_of_link (ok.link_of_nextOut next)).1

theorem active_of_hasPid (ok : Coherent s) {pid : Int} {r : ProcRef}
    {p : Process} (has : s.HasPid pid r p) :
    p.pid = pid ∧ p.state ≠ .finished := by
  obtain ⟨-, -, content, found, isPid, active⟩ := ok.procs.table pid r has.1
  rw [has.2, Option.some.injEq] at found
  subst found
  exact ⟨isPid, active⟩

/-- The pid of a record that is not finished is an index of the table. -/
theorem pid_nonneg (ok : Coherent s) {r : ProcRef} {p : Process}
    (record : s.procs r = some p) (active : p.state ≠ .finished) :
    0 ≤ p.pid :=
  (ok.procs.table p.pid r (ok.procs.listed r p record active)).1

/-- A record gets a new content, and the list that goes with it. -/
theorem relink (ok : Coherent s) {r : ProcRef} {p n : Process}
    {h g : Option Head} (record : s.procs r = some p)
    (isSource : p.link = h) (active : p.state ≠ .finished)
    (samePid : n.pid = p.pid) (active' : n.state ≠ .finished)
    (linked : s.LinkOk { n with link := g }) :
    Coherent (s.relink r n h g) where
  lists := isSource ▸ ok.lists.relink record g
  procs := ok.procs.update record
    (n := { n with
      link := g
      stamp := if g = none then n.stamp else s.stamp })
    rfl rfl rfl rfl samePid (by simp [active, active'])
    (linked.congr rfl rfl rfl rfl rfl)
  heap := by
    refine ok.heap.frame rfl rfl rfl rfl rfl ?_
    intro x free
    have other : x ≠ r := by
      rintro rfl
      simp [record] at free
    simp [other, free]

theorem wake (ok : Coherent s) {r : ProcRef} {p n : Process}
    {h : Option Head} (record : s.procs r = some p)
    (isSource : p.link = h) (active : p.state ≠ .finished)
    (samePid : n.pid = p.pid) : Coherent (s.wake r n h) :=
  ok.relink record isSource active samePid (by simp) rfl

/-- A record changes its state without leaving its list. -/
theorem setState (ok : Coherent s) {r : ProcRef} {p n : Process}
    (record : s.procs r = some p) (samePid : n.pid = p.pid)
    (sameEnd : n.state = .finished ↔ p.state = .finished)
    (sameLink : n.link = p.link) (samePriority : n.priority = p.priority)
    (sameStamp : n.stamp = p.stamp) (linked : s.LinkOk n) :
    Coherent (s.setProc r n) where
  lists := ok.lists.setProc record sameLink samePriority sameStamp
  procs := ok.procs.update record rfl rfl rfl rfl samePid sameEnd linked
  heap := by
    refine ok.heap.frame rfl rfl rfl rfl rfl ?_
    intro x free
    have other : x ≠ r := by
      rintro rfl
      simp [record] at free
    simp [other, free]

/-- A record changes in fields that no list or table depends on. -/
theorem setProc (ok : Coherent s) {r : ProcRef} {p n : Process}
    (record : s.procs r = some p) (samePid : n.pid = p.pid)
    (sameState : n.state = p.state) (sameLink : n.link = p.link)
    (samePriority : n.priority = p.priority)
    (sameStamp : n.stamp = p.stamp) (sameSem : n.waitedSem = p.waitedSem) :
    Coherent (s.setProc r n) :=
  ok.setState record samePid (by rw [sameState]) sameLink samePriority
    sameStamp
    ((ok.procs.linked r p record).congr rfl rfl sameState sameLink sameSem)

/-- Records change in fields that no list or table depends on. -/
theorem map (ok : Coherent s) {change : ProcRef → Process → Process}
    (procs : ∀ x, t.procs x = (s.procs x).map (change x))
    (same : { s with procs := t.procs }.SameData t)
    (sameKeys : ∀ x p, (change x p).pid = p.pid ∧
      (change x p).state = p.state ∧ (change x p).link = p.link ∧
      (change x p).priority = p.priority ∧ (change x p).stamp = p.stamp ∧
      (change x p).waitedSem = p.waitedSem) : Coherent t where
  lists := ok.lists.map procs same.lists same.stamp
    (fun x p => (sameKeys x p).2.2.1) (fun x p => (sameKeys x p).2.2.2.1)
    (fun x p => (sameKeys x p).2.2.2.2.1)
  procs := ok.procs.map procs same.processTable same.queueTable
    same.semaphoreTable (fun x p => (sameKeys x p).1)
    (fun x p => (sameKeys x p).2.1) (fun x p => (sameKeys x p).2.2.1)
    (fun x p => (sameKeys x p).2.2.2.2.2)
  heap := by
    refine ok.heap.frame same.queueTable same.queues same.semaphoreTable
      same.sems same.nextRef ?_
    intro x free
    rw [procs, free]
    rfl

theorem save (ok : Coherent s) (k : Context) (old : ProcRef) :
    Coherent (s.save k old) :=
  ok.map (fun _ => rfl) ⟨rfl, rfl, rfl, rfl, rfl, rfl, rfl, rfl, rfl⟩
    (fun _ _ => ⟨rfl, rfl, rfl, rfl, rfl, rfl⟩)

theorem load (ok : Coherent s) (new : ProcRef) (restored : Context) :
    Coherent (s.load new restored) :=
  ok.map (fun _ => rfl) ⟨rfl, rfl, rfl, rfl, rfl, rfl, rfl, rfl, rfl⟩
    (fun _ _ => ⟨rfl, rfl, rfl, rfl, rfl, rfl⟩)

theorem purge (ok : Coherent s) {keep : Option ProcRef}
    (kept : ∀ r, keep = some r → r ∈ s.lists .finished) :
    Coherent (s.purge keep) where
  lists := ok.lists.purge kept
  procs := ok.procs.purge ok.lists
  heap := by
    refine ok.heap.frame rfl rfl rfl rfl rfl ?_
    intro x free
    rw [KState.purge_procs]
    split
    · split <;> simp [free]
    · exact free

/-- A record leaves the table for the list of finished records. -/
theorem finish (ok : Coherent s) (pid : Int) {r : ProcRef} {p n : Process}
    {h : Option Head} (has : s.HasPid pid r p)
    (isSource : p.link = h) : Coherent (s.finish pid r n h) where
  lists := by
    have moved := isSource ▸ ok.lists.relink
      (n := { n with state := .finished }) has.2 (some .finished)
    exact moved.congr rfl rfl rfl
  procs := ok.procs.finish has
    (n := { n with
      state := .finished
      link := some .finished
      stamp := s.stamp }) rfl rfl rfl rfl rfl rfl
  heap := by
    refine ok.heap.frame rfl rfl rfl rfl rfl ?_
    intro x free
    have other : x ≠ r := by
      rintro rfl
      simp [has.2] at free
    simp [other, free]

theorem setQueue (ok : Coherent s) {q : QueueRef}
    {content c : MessageQueue} (record : s.queues q = some content)
    (sameFid : c.fid = content.fid) :
    Coherent (s.setQueue q c) where
  lists := ok.lists.congr rfl rfl rfl
  procs := ok.procs.congr rfl rfl rfl rfl
  heap := ok.heap.setQueue record sameFid

theorem setSem (ok : Coherent s) {x : SemRef} {content : Semaphore}
    {count : Int} {w : Bool} (record : s.sems x = some content)
    (low : -0x8000 ≤ count) (high : count < 0x8000) :
    Coherent (s.setSem x
      { content with count := count, wasReset := w }) where
  lists := ok.lists.congr rfl rfl rfl
  procs := ok.procs.congr rfl rfl rfl rfl
  heap := ok.heap.setSem record low high

/-- A free address and a free pid receive a record that is in no list. -/
theorem insertFresh (ok : Coherent s) {pid : Int} {p : Process}
    (freePid : s.processTable pid = none)
    (inRange : 0 ≤ pid ∧ pid < nbProc) (isPid : p.pid = pid)
    (elected : p.state = .elected) (unlinked : p.link = none) :
    Coherent { s with
      procs := Function.update s.procs s.nextRef (some p)
      processTable := Function.update s.processTable pid (some s.nextRef)
      nextRef := s.nextRef + 1 } := by
  have free := ok.heap.fresh s.nextRef le_rfl
  constructor
  · exact ok.lists.insertFresh free.1 unlinked rfl rfl rfl
  · refine ok.procs.insertFresh freePid inRange free.1 rfl rfl rfl rfl isPid
      (by simp [elected]) ?_
    simpa [KState.LinkOk, elected] using unlinked
  · constructor
    · exact ok.heap.queueTable
    · exact ok.heap.semTable
    · exact ok.heap.shorts
    · intro r above
      have further : s.nextRef + 1 ≤ r := above
      have distinct : r ≠ s.nextRef := by omega
      simpa [distinct] using ok.heap.fresh r (by omega)

theorem lt_nextRef (ok : Coherent s) {r : ProcRef} {p : Process}
    (record : s.procs r = some p) : r < s.nextRef := by
  by_contra above
  have free := (ok.heap.fresh r (Nat.le_of_not_lt above)).1
  simp [record] at free

theorem adopt (ok : Coherent s) {pid : Int} {p : Process}
    (prio : Int) (children : List Child) (record : s.procs s.running = some p)
    (freePid : s.processTable pid = none) (inRange : 0 ≤ pid ∧ pid < nbProc) :
    Coherent (s.adopt pid prio p children) := by
  have inserted := ok.insertFresh (p := s.created pid prio) freePid inRange
    rfl rfl rfl
  have distinct : s.running ≠ s.nextRef := (ok.lt_nextRef record).ne
  exact inserted.setProc
    (p := p)
    (n := { p with children := some (addChild ⟨pid, 1⟩ children) })
    (by simpa [distinct] using record) rfl rfl rfl rfl rfl rfl

theorem newQueue (ok : Coherent s) {fid capacity : Int}
    (inRange : 0 ≤ fid ∧ fid < nbQueue)
    (freeFid : s.queueTable fid = none) :
    Coherent ((Move.newQueue fid capacity).effect s) := by
  have free := ok.heap.fresh s.nextRef le_rfl
  have unused {r : ProcRef} {p : Process} (record : s.procs r = some p) :
      p.link ≠ some (.queue s.nextRef) := by
    intro link
    obtain ⟨-, fid', entry⟩ := (ok.procs.linked r p record).state_of_link link
    obtain ⟨-, -, content, found, -⟩ := ok.heap.queueTable fid' _ entry
    simp [free.2.1] at found
  have empty : s.lists (.queue s.nextRef) = [] := by
    refine List.eq_nil_iff_forall_not_mem.mpr ?_
    intro r member
    obtain ⟨p, record, link⟩ := (ok.lists.mem r _).mp member
    exact unused record link
  have sameLists : Function.update s.lists (.queue s.nextRef) [] = s.lists := by
    rw [← empty, Function.update_eq_self]
  constructor
  · exact ok.lists.congr rfl sameLists rfl
  · refine ok.procs.retable rfl rfl ?_ ?_
    · intro fid' q r p _ _ entry
      have distinct : fid' ≠ fid := by
        rintro rfl
        simp [freeFid] at entry
      simpa [Move.effect, distinct] using entry
    · intro x r p _ _ entry
      exact entry
  · constructor
    · intro fid' q entry
      by_cases same : fid' = fid
      · subst same
        simp only [Move.effect, Function.update_self, Option.some.injEq]
          at entry
        subst entry
        exact ⟨inRange.1, inRange.2, _, Function.update_self .., rfl⟩
      · simp only [Move.effect, Function.update_of_ne same] at entry
        obtain ⟨low, high, content, found, isFid⟩ :=
          ok.heap.queueTable fid' q entry
        have distinct : q ≠ s.nextRef := by
          rintro rfl
          simp [free.2.1] at found
        exact ⟨low, high, content, by simp [Move.effect, distinct, found],
          isFid⟩
    · exact ok.heap.semTable
    · exact ok.heap.shorts
    · intro r above
      have further : s.nextRef + 1 ≤ r := above
      have distinct : r ≠ s.nextRef := by omega
      simpa [Move.effect, distinct] using ok.heap.fresh r (by omega)

theorem newSem (ok : Coherent s) {sem count : Int}
    (inRange : 0 ≤ sem ∧ sem < nbSemaphore)
    (freeSem : s.semaphoreTable sem = none)
    (bounds : 0 ≤ count ∧ count ≤ semaphoreMaxSize) :
    Coherent ((Move.newSem sem count).effect s) := by
  have free := ok.heap.fresh s.nextRef le_rfl
  have unused {r : ProcRef} {p : Process} (record : s.procs r = some p) :
      p.link ≠ some (.sem s.nextRef) := by
    intro link
    obtain ⟨-, entry⟩ := (ok.procs.linked r p record).state_of_link link
    obtain ⟨-, -, content, found, -⟩ := ok.heap.semTable _ _ entry
    simp [free.2.2] at found
  have empty : s.lists (.sem s.nextRef) = [] := by
    refine List.eq_nil_iff_forall_not_mem.mpr ?_
    intro r member
    obtain ⟨p, record, link⟩ := (ok.lists.mem r _).mp member
    exact unused record link
  have sameLists : Function.update s.lists (.sem s.nextRef) [] = s.lists := by
    rw [← empty, Function.update_eq_self]
  constructor
  · exact ok.lists.congr rfl sameLists rfl
  · refine ok.procs.retable rfl rfl (fun _ _ _ _ _ _ entry => entry) ?_
    intro x r p _ _ entry
    have distinct : p.waitedSem ≠ sem := by
      rintro rfl
      simp [freeSem] at entry
    simpa [Move.effect, distinct] using entry
  · constructor
    · exact ok.heap.queueTable
    · intro sem' x entry
      by_cases same : sem' = sem
      · subst same
        simp only [Move.effect, Function.update_self, Option.some.injEq]
          at entry
        subst entry
        exact ⟨inRange.1, inRange.2, _, Function.update_self .., rfl⟩
      · simp only [Move.effect, Function.update_of_ne same] at entry
        obtain ⟨low, high, content, found, isSem⟩ :=
          ok.heap.semTable sem' x entry
        have distinct : x ≠ s.nextRef := by
          rintro rfl
          simp [free.2.2] at found
        exact ⟨low, high, content, by simp [Move.effect, distinct, found],
          isSem⟩
    · intro x content found
      by_cases same : x = s.nextRef
      · subst same
        simp only [Move.effect, Function.update_self, Option.some.injEq]
          at found
        subst found
        have low := bounds.1
        have high := bounds.2
        unfold semaphoreMaxSize at high
        refine ⟨?_, ?_, rfl⟩ <;> dsimp only <;> omega
      · simp only [Move.effect, Function.update_of_ne same] at found
        exact ok.heap.shorts x content found
    · intro r above
      have further : s.nextRef + 1 ≤ r := above
      have distinct : r ≠ s.nextRef := by omega
      simpa [Move.effect, distinct] using ok.heap.fresh r (by omega)

/-- A queue that nobody waits for disappears. -/
theorem deleteQueue (ok : Coherent s) {fid : Int} {q : QueueRef}
    (entry : s.queueTable fid = some q) (empty : s.lists (.queue q) = []) :
    Coherent ((Move.deleteQueue fid q).effect s) := by
  constructor
  · exact ok.lists.congr rfl rfl rfl
  · refine ok.procs.retable rfl rfl ?_ (fun _ _ _ _ _ entry => entry)
    intro fid' q' r p record link found
    have distinct : fid' ≠ fid := by
      rintro rfl
      rw [entry, Option.some.injEq] at found
      subst found
      have member := ok.lists.mem_of_link record link
      simp [empty] at member
    simpa [Move.effect, distinct] using found
  · constructor
    · intro fid' q' found
      by_cases same : fid' = fid
      · subst same
        simp [Move.effect] at found
      · simp only [Move.effect, Function.update_of_ne same] at found
        obtain ⟨low, high, content, present, isFid⟩ :=
          ok.heap.queueTable fid' q' found
        have distinct : q' ≠ q := by
          rintro rfl
          exact same (ok.heap.queueTable_inj found entry)
        exact ⟨low, high, content, by simp [Move.effect, distinct, present],
          isFid⟩
    · exact ok.heap.semTable
    · exact ok.heap.shorts
    · intro r above
      obtain ⟨procs, queues, sems⟩ := ok.heap.fresh r above
      refine ⟨procs, ?_, sems⟩
      by_cases same : r = q
      · simp [Move.effect, same]
      · simp [Move.effect, same, queues]

/-- A semaphore that nobody waits for leaves the table. -/
theorem forgetSem (ok : Coherent s) (sem : Int) (x : SemRef)
    (entry : s.semaphoreTable sem = some x) (empty : s.lists (.sem x) = []) :
    Coherent { s with
      semaphoreTable := Function.update s.semaphoreTable sem none } := by
  constructor
  · exact ok.lists.congr rfl rfl rfl
  · refine ok.procs.retable rfl rfl (fun _ _ _ _ _ _ entry => entry) ?_
    intro y r p record link found
    have distinct : p.waitedSem ≠ sem := by
      intro same
      rw [same, entry, Option.some.injEq] at found
      subst found
      have member := ok.lists.mem_of_link record link
      simp [empty] at member
    simpa [distinct] using found
  · constructor
    · exact ok.heap.queueTable
    · intro sem' y found
      by_cases same : sem' = sem
      · subst same
        simp at found
      · simp only [Function.update_of_ne same] at found
        exact ok.heap.semTable sem' y found
    · exact ok.heap.shorts
    · exact ok.heap.fresh

/-- The counter of a killed process's semaphore stays a short. -/
theorem giveBack (ok : Coherent s) (p : Process) : Coherent (s.giveBack p) := by
  have unchanged : Coherent { s with sems := s.sems } := ok
  unfold KState.giveBack
  split
  · split
    · split
      · rename_i x _ content record
        exact ok.setSem record (short_low _) (short_high _)
      · exact unchanged
    · exact unchanged
  · exact unchanged

/-- The record a process of a list has. -/
theorem record_of_mem (ok : Coherent s) {h : Head} {r : ProcRef}
    (member : r ∈ s.lists h) :
    ∃ p, s.procs r = some p ∧ p.link = some h :=
  (ok.lists.mem r h).mp member

end Coherent

/-! ## Waking all processes of a semaphore -/

namespace KState

variable {s : KState} {x : SemRef}

theorem release_cons {r : ProcRef} {p : Process} (record : s.procs r = some p)
    (others : List ProcRef) :
    s.release x (r :: others) =
      (s.wake r p (some (.sem x))).release x others := by
  simp only [release, record]

theorem release_missing {r : ProcRef} (missing : s.procs r = none)
    (others : List ProcRef) :
    s.release x (r :: others) = s.release x others := by
  simp only [release, missing]

/-- Waking processes changes records and lists only. -/
theorem release_eq (s : KState) (x : SemRef) (refs : List ProcRef) :
    ∃ procs lists stamp, s.release x refs =
      { s with procs := procs, lists := lists, stamp := stamp } := by
  induction refs generalizing s with
  | nil => exact ⟨_, _, _, rfl⟩
  | cons r others ih =>
      cases record : s.procs r with
      | none =>
          rw [release_missing record]
          exact ih s
      | some p =>
          rw [release_cons record]
          obtain ⟨procs, lists, stamp, same⟩ := ih (s.wake r p (some (.sem x)))
          exact ⟨procs, lists, stamp, same⟩

@[simp]
theorem release_sems (refs : List ProcRef) :
    (s.release x refs).sems = s.sems := by
  obtain ⟨_, _, _, same⟩ := s.release_eq x refs
  rw [same]

@[simp]
theorem release_semaphoreTable (refs : List ProcRef) :
    (s.release x refs).semaphoreTable = s.semaphoreTable := by
  obtain ⟨_, _, _, same⟩ := s.release_eq x refs
  rw [same]

@[simp]
theorem release_trace (refs : List ProcRef) :
    (s.release x refs).trace = s.trace := by
  obtain ⟨_, _, _, same⟩ := s.release_eq x refs
  rw [same]

/-- What the wake-up of one process of a semaphore keeps, the wake-up of
several keeps. -/
theorem release_keeps {I : KState → Prop}
    (wake : ∀ t r p, I t → t.procs r = some p →
      p.link = some (.sem x) → I (t.wake r p (some (.sem x))))
    (refs : List ProcRef) (distinct : refs.Nodup)
    (records : ∀ r ∈ refs, ∃ p, s.procs r = some p ∧ p.link = some (.sem x))
    (start : I s) : I (s.release x refs) := by
  induction refs generalizing s with
  | nil => exact start
  | cons r others ih =>
      obtain ⟨p, record, link⟩ := records r List.mem_cons_self
      rw [List.nodup_cons] at distinct
      rw [release_cons record]
      refine ih distinct.2 ?_ (wake s r p start record link)
      intro r' member
      obtain ⟨n, record', link'⟩ := records r' (List.mem_cons_of_mem r member)
      have other : r' ≠ r := by
        rintro rfl
        exact distinct.1 member
      exact ⟨n, by simp [other, record'], link'⟩

theorem release_lists_sem (refs : List ProcRef) (distinct : refs.Nodup)
    (records : ∀ r ∈ refs, ∃ p, s.procs r = some p) :
    (s.release x refs).lists (.sem x) = (s.lists (.sem x)).diff refs := by
  induction refs generalizing s with
  | nil => rfl
  | cons r others ih =>
      obtain ⟨p, record⟩ := records r List.mem_cons_self
      rw [List.nodup_cons] at distinct
      rw [release_cons record]
      refine (ih distinct.2 ?_).trans ?_
      · intro r' member
        obtain ⟨n, record'⟩ := records r' (List.mem_cons_of_mem r member)
        have other : r' ≠ r := by
          rintro rfl
          exact distinct.1 member
        exact ⟨n, by simp [other, record']⟩
      · simp [relinkLists]

theorem records_of_sem (ok : Coherent s) :
    ∀ r ∈ (s.lists (.sem x)).reverse,
      ∃ p, s.procs r = some p ∧ p.link = some (.sem x) := by
  intro r member
  exact ok.record_of_mem (List.mem_reverse.mp member)

/-- `release_keeps` for all the processes of a semaphore. -/
theorem releaseAll_keeps {I : KState → Prop} (ok : Coherent s)
    (wake : ∀ t r p, I t → t.procs r = some p →
      p.link = some (.sem x) → I (t.wake r p (some (.sem x))))
    (start : I s) :
    I (s.release x (s.lists (.sem x)).reverse) :=
  release_keeps wake _ (List.nodup_reverse.mpr (ok.lists.nodup _))
    (records_of_sem ok) start

theorem releaseAll_lists_sem (ok : Coherent s) :
    (s.release x (s.lists (.sem x)).reverse).lists (.sem x) = [] := by
  have distinct := ok.lists.nodup (.sem x)
  rw [release_lists_sem _ (List.nodup_reverse.mpr distinct)]
  · refine List.eq_nil_iff_forall_not_mem.mpr ?_
    intro r member
    rw [distinct.mem_sdiff_iff, List.mem_reverse] at member
    exact member.2 member.1
  · intro r member
    obtain ⟨p, record, -⟩ := records_of_sem ok r member
    exact ⟨p, record⟩

end KState

end Nebulea
