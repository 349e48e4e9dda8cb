import Mathlib.Data.List.Induction
import Nebulea.KernelPrograms

/-!
# The scheduler performs moves

`__scheduler` releases finished records, wakes sleepers and dispatches the
activable process of highest priority.  The rules below say so in the terms of
the moves, together with the ways in which the code may stop.
-/

namespace Nebulea

open ExceptState StampedPriority

namespace KState

/-- Two finished records have the current pid, or one has that is not the one
`__free_finished_process` sets aside. -/
def Crowded (s : KState) : Prop :=
  ∃ x ∈ s.lists .finished, s.findPid .finished s.currentPid ≠ some x ∧
    ∃ p, s.procs x = some p ∧ p.pid = s.currentPid

/-- No activable process has a higher priority than the running one. -/
def Top (s : KState) : Prop :=
  ∀ r ∈ s.lists .activable, s.prio r ≤ s.prio s.running

/-- Only records of the current pid are left in the list of finished ones. -/
def Purged (s : KState) : Prop :=
  ∀ x ∈ s.lists .finished, ∀ p, s.procs x = some p → p.pid = s.currentPid

/-- A process about to be switched to has no saved registers. -/
def Unsaved (s : KState) : Prop :=
  ∃ r p old, s.procs r = some p ∧ p.state ≠ .finished ∧ p.registers = none ∧
    r ≠ old ∧ (old = s.running ∨ s.OldProcess old ∧ s.Purged)

/-- The running process has given up being elected and goes on with `k`. -/
structure Leaving (s : KState) (k : Context) : Prop where
  outside : ∀ c, s.mode ≠ .kernel c
  fits : ∃ p, s.procs s.running = some p ∧ p.state ≠ .elected ∧ s.Fits p k

end KState

/-- How a stretch of kernel code that does not complete stops. -/
def Stops (allowed : Move → KState → Prop) (s : KState) :
    Fault → KState → Prop
  | .page, t =>
      Moves allowed s (Move.fault.effect t) ∧ (∃ u, allowed .fault u) ∧
        ∃ p, t.OnCpu p
  | .panic text, _ => text = "Trying to free the current process" →
      ∃ t, Moves allowed s t ∧ t.Crowded
  | .assertion text, _ => text ≠ "queue != NULL"
  | .lostContext, _ => ∃ t, Moves allowed s t ∧ t.Unsaved
  | .noActivable, t =>
      Moves allowed s t ∧ t.Purged ∧ t.lists .activable = [] ∧
        ∃ p, t.procs t.running = some p ∧ p.state ≠ .elected
  | _, _ => True

/-- A page fault stops the code where it is. -/
theorem Moves.stops {allowed : Move → KState → Prop} {s t : KState}
    {p : Process} (path : Moves allowed s t) (may : allowed .fault t)
    (heard : ¬ t.Skipping) (onCpu : t.OnCpu p) : Stops allowed s .page t :=
  ⟨path.move .fault may heard, ⟨t, may⟩, p, onCpu⟩

/-- What `__scheduler` leaves alone: queues, semaphores and the processes that
wait for something other than the processor. -/
structure KState.SameWaiters (s t : KState) : Prop where
  lists : ∀ h, h ≠ .activable → h ≠ .finished → t.lists h = s.lists h
  queues : t.queues = s.queues
  sems : t.sems = s.sems

/-- The moves of a process that yields and those of `__scheduler`. -/
def Move.Serves : Move → Prop
  | .yield _ | .purge _ | .wakeSleeper _ _ | .dispatch _ _ _ _ _ => True
  | _ => False

/-- `u` is reached by moves from `s`, where `__scheduler` was called in `t` and
dispatched. -/
structure Scheduled (allowed : Move → KState → Prop) (s t u : KState) :
    Prop where
  path : Moves allowed s u
  onCpu : ∃ p, u.OnCpu p
  inKernel : ∃ k, u.mode = .kernel k
  top : u.Top
  waiters : t.SameWaiters u
  later : Moves (fun m _ => m.Serves) t u

/-! ## Releasing finished records -/

section Free

variable {s : KState} {post : Unit → KState → Prop}
variable {fault : Fault → KState → Prop}

theorem purge_none_of_nil (empty : s.lists .finished = []) :
    s.purge none = s := by
  have lists : Function.update s.lists .finished [] = s.lists := by
    rw [← empty, Function.update_eq_self]
  simp [KState.purge, empty, lists]

/-- The loop of `__free_finished_process`. -/
theorem wp_freeAll {refs : List ProcRef} (isList : s.lists .finished = refs)
    (distinct : refs.Nodup)
    (records : ∀ x ∈ refs, ∃ p, s.procs x = some p)
    (freed : (∀ x ∈ refs, ∀ p, s.procs x = some p → p.pid ≠ s.currentPid) →
      post () (s.purge none))
    (panics : ∀ t x p, x ∈ refs → s.procs x = some p →
      p.pid = s.currentPid →
        fault (.panic "Trying to free the current process") t) :
    wp (drain .finished freeProcess refs.length) post fault s := by
  induction refs using List.reverseRecOn generalizing s with
  | nil =>
      have done := freed (by simp)
      rw [purge_none_of_nil isList] at done
      exact done
  | append_singleton refs r ih =>
      obtain ⟨p, record⟩ := records r (by simp)
      have next : s.NextOut .finished r p :=
        ⟨by simp [isList], record⟩
      have notIn : r ∉ refs := by
        intro member
        rw [List.nodup_append] at distinct
        exact distinct.2.2 r member r (by simp) rfl
      have rest : (refs ++ [r]).erase r = refs := by
        rw [List.erase_append_right _ notIn]
        simp
      have after : (s.relink r p (some .finished) none).procs r =
          some { p with link := none } := by
        simp
      rw [List.length_append, List.length_singleton, drain, wp_bind,
        wp_queueOut (isList ▸ distinct) next]
      simp only [wp_bind]
      rw [freeProcess, wp_bind, wp_derefProc after, wp_bind, wp_get, wp_ite]
      split
      · rename_i isCurrent
        rw [wp_throw]
        exact panics _ r p (by simp) record isCurrent
      · rename_i notCurrent
        rw [wp_modify]
        refine ih ?_ ?_ ?_ ?_ ?_
        · simp [KState.relinkLists, isList, rest]
        · rw [List.nodup_append] at distinct
          exact distinct.1
        · intro x member
          have other : x ≠ r := by
            rintro rfl
            exact notIn member
          obtain ⟨content, found⟩ := records x (by simp [member])
          exact ⟨content, by simp [other, found]⟩
        · intro others
          have purged : KState.purge { s.relink r p (some .finished) none with
              procs := Function.update
                (s.relink r p (some .finished) none).procs r none } none =
              s.purge none := by
            apply KState.ext <;> try rfl
            · funext x
              by_cases isR : x = r <;>
                simp [isR, KState.relinkLists, isList, rest]
            · funext h
              by_cases isFinished : h = .finished <;>
                simp [isFinished, KState.relinkLists]
          rw [purged]
          refine freed ?_
          intro x member content found
          rcases List.mem_append.mp member with earlier | isLast
          · have other : x ≠ r := by
              rintro rfl
              exact notIn earlier
            exact others x earlier content (by simp [other, found])
          · obtain rfl := List.mem_singleton.mp isLast
            rw [record, Option.some.injEq] at found
            exact found ▸ notCurrent
        · intro t x content member found isCurrent
          have other : x ≠ r := by
            rintro rfl
            exact notIn member
          exact panics t x content (by simp [member])
            (by simpa [other] using found) isCurrent

/-- `__free_finished_process`. -/
theorem wp_freeFinishedProcess (ok : Coherent s)
    (freed : ∀ keep, (Move.purge keep).Guard s → post () (s.purge keep))
    (panics : s.Crowded → ∀ t,
      fault (.panic "Trying to free the current process") t) :
    wp freeFinishedProcess post fault s := by
  have distinct := ok.lists.nodup .finished
  have records : ∀ x ∈ s.lists .finished, ∃ p, s.procs x = some p := by
    intro x member
    obtain ⟨p, record, -⟩ := ok.record_of_mem member
    exact ⟨p, record⟩
  rw [freeFinishedProcess, wp_bind, wp_get]
  cases kept : s.findPid .finished s.currentPid with
  | none =>
      simp only []
      rw [freeAll, wp_bind, wp_get]
      refine wp_freeAll rfl distinct records ?_ ?_
      · intro others
        exact freed none ⟨kept.symm, fun x member _ => others x member⟩
      · intro t x p member record isCurrent
        exact panics ⟨x, member, by simp [kept], p, record, isCurrent⟩ t
  | some current =>
      have member := List.mem_of_find?_eq_some kept
      obtain ⟨p, record, link⟩ := ok.record_of_mem member
      simp only [freeAll, wp_bind, wp_queueDel record link, wp_get]
      have lists : (s.relink current p (some .finished) none).lists .finished =
          (s.lists .finished).erase current := by
        simp [KState.relinkLists]
      have inside {x : ProcRef}
          (listed : x ∈ (s.relink current p (some .finished) none).lists
            .finished) : x ≠ current ∧ x ∈ s.lists .finished := by
        rw [lists] at listed
        exact (List.Nodup.mem_erase_iff distinct).mp listed
      refine wp_freeAll rfl ?_ ?_ ?_ ?_
      · rw [lists]
        exact distinct.erase current
      · intro x listed
        obtain ⟨other, wasIn⟩ := inside listed
        obtain ⟨content, found⟩ := records x wasIn
        exact ⟨content, by simp [other, found]⟩
      · intro others
        have notIn : current ∉
            (s.relink current p (some .finished) none).lists .finished := by
          intro listed
          exact (inside listed).1 rfl
        have atCurrent :
            ((s.relink current p (some .finished) none).purge none).procs
              current = some { p with link := none } := by
          rw [KState.purge_procs, if_neg notIn]
          simp
        rw [wp_queueAdd atCurrent rfl]
        have purged : ((s.relink current p (some .finished) none).purge
            none).relink current { p with link := none } none
              (some .finished) = s.purge (some current) := by
          apply KState.ext <;> try rfl
          · funext x
            by_cases isCurrent : x = current
            · subst isCurrent
              simp [member, record]
            · have sameMember : x ∈ (s.lists .finished).erase current ↔
                  x ∈ s.lists .finished :=
                List.mem_erase_of_ne isCurrent
              have distinctSome : current ≠ x := fun same =>
                isCurrent same.symm
              simp [isCurrent, KState.relinkLists, sameMember, distinctSome]
          · funext h
            by_cases isFinished : h = .finished <;>
              simp [isFinished, KState.relinkLists]
        rw [purged]
        refine freed (some current) ⟨kept.symm, ?_⟩
        intro x listed other content found
        have notCurrent : x ≠ current := by
          rintro rfl
          exact other rfl
        refine others x ?_ content (by simp [notCurrent, found])
        rw [lists]
        exact (List.mem_erase_of_ne notCurrent).mpr listed
      · intro t x content listed found isCurrent
        obtain ⟨other, wasIn⟩ := inside listed
        have present : s.procs x = some content := by
          simpa [other] using found
        refine panics ⟨x, wasIn, ?_, content, present, isCurrent⟩ t
        rw [kept]
        simpa using fun same : current = x => other same.symm

end Free

/-! ## Waking sleepers -/

namespace KState

variable {s t : KState} {k : Context}

/-- What `Fits` says beyond the running record is kept by steady moves. -/
theorem Fits.steady {p : Process} (fits : s.Fits p k) (same : Steady s t)
    (ok : Coherent s) (queues : t.queues = s.queues) : t.Fits p k := by
  cases k with
  | psend r q =>
      obtain ⟨isRunning, state, link, full⟩ := fits
      exact ⟨isRunning.trans same.running.symm, state, link, queues ▸ full⟩
  | preceive r q message =>
      obtain ⟨isRunning, state, link, empty⟩ := fits
      exact ⟨isRunning.trans same.running.symm, state, link, queues ▸ empty⟩
  | waitpid pid retvalp =>
      obtain ⟨state, awaited⟩ := fits
      refine ⟨state, ?_⟩
      intro given
      obtain ⟨r, child, entry, found, isSon⟩ := awaited given
      obtain ⟨n, has, isSon', -⟩ :=
        same.sonsKept ok p.pid pid r child ⟨entry, found⟩ isSon
      exact ⟨r, n, has.1, has.2, isSon'⟩
  | wait x => exact fits
  | returning value => exact fits
  | interrupted => exact fits
  | exiting => exact fits
  | fresh => exact fits
  | start p => exact fits
  | handedOver => exact fits

/-- A finished process leaves for good. -/
theorem Fits.of_finished {p n : Process} (fits : s.Fits p k)
    (finished : p.state = .finished) (finished' : n.state = .finished) :
    t.Fits n k := by
  cases k with
  | returning value => exact .inr (.inr (.inr finished'))
  | exiting => exact .inr finished'
  | fresh | start p | handedOver => exact absurd fits id
  | interrupted =>
      have state : p.state = .activable := fits
      simp [finished] at state
  | waitpid pid retvalp =>
      have state := fits.1
      simp [finished] at state
  | psend r q =>
      have state := fits.2.1
      simp [finished] at state
  | preceive r q message =>
      have state := fits.2.1
      simp [finished] at state
  | wait x =>
      have state := fits.1
      simp [finished] at state

/-- A process that slept and was woken up at once fits as well. -/
theorem Fits.of_asleep {p n : Process} (fits : s.Fits p k)
    (asleep : p.state = .asleep) (woken : n.state = .activable) :
    t.Fits n k := by
  cases k with
  | returning value => exact .inl woken
  | exiting =>
      rcases fits with state | state <;> simp [asleep] at state
  | fresh | start p | handedOver => exact absurd fits id
  | interrupted =>
      have state : p.state = .activable := fits
      simp [asleep] at state
  | waitpid pid retvalp =>
      have state := fits.1
      simp [asleep] at state
  | psend r q =>
      have state := fits.2.1
      simp [asleep] at state
  | preceive r q message =>
      have state := fits.2.1
      simp [asleep] at state
  | wait x =>
      have state := fits.1
      simp [asleep] at state

theorem Leaving.purge (leaving : s.Leaving k) (ok : Coherent s)
    (cpu : CpuOk s) {keep : Option ProcRef}
    (applies : (Move.purge keep).Guard s) : (s.purge keep).Leaving k := by
  refine ⟨leaving.outside, ?_⟩
  obtain ⟨p, record, left, fits⟩ := leaving.fits
  obtain ⟨n, after, -⟩ := (cpu.purge applies.2).current
  by_cases finished : s.running ∈ s.lists .finished
  · have state : p.state = .finished :=
      (ok.procs.linked _ p record).state_of_link
        (ok.lists.link_of_mem record finished)
    obtain ⟨before, found, context⟩ :=
      (Steady.purge ok keep).procs s.running n after
    have kin := (Steady.purge ok keep).family s.running before n found after
    rw [record, Option.some.injEq] at found
    subst found
    have state' := kin.finished.mpr state
    exact ⟨n, after, by simp [state'], fits.of_finished state state'⟩
  · have same : (s.purge keep).procs s.running = some p := by
      simp [finished, record]
    exact ⟨p, same, left, fits.steady (Steady.purge ok keep) ok rfl⟩

theorem Leaving.wakeSleeper (leaving : s.Leaving k) (ok : Coherent s)
    {r : ProcRef} {p : Process} (applies : (Move.wakeSleeper r p).Guard s) :
    (s.wake r p none).Leaving k := by
  refine ⟨leaving.outside, ?_⟩
  have steady : Steady s (s.wake r p none) :=
    Move.steady (m := .wakeSleeper r p) trivial ok applies
  obtain ⟨record, asleep, -⟩ := applies
  obtain ⟨current, onCpu, left, fits⟩ := leaving.fits
  by_cases isRunning : r = s.running
  · subst isRunning
    rw [onCpu, Option.some.injEq] at record
    subst record
    exact ⟨_, Function.update_self .., by simp, fits.of_asleep asleep rfl⟩
  · have other : s.running ≠ r := fun same => isRunning same.symm
    have same : (s.wake r p none).procs s.running = some current := by
      simp [other, onCpu]
    exact ⟨current, same, left, fits.steady steady ok rfl⟩

theorem Purged.purge {keep : Option ProcRef} (ok : Coherent s)
    (applies : (Move.purge keep).Guard s) : (s.purge keep).Purged := by
  intro x member n found
  rw [purge_lists, Function.update_self, Option.mem_toList] at member
  subst member
  have isPid := List.find?_some applies.1.symm
  have listed := List.mem_of_find?_eq_some applies.1.symm
  obtain ⟨p, record, -⟩ := ok.record_of_mem listed
  have same : { p with link := some .finished, stamp := s.stamp } = n := by
    simpa [listed, record] using found
  rw [← same]
  simpa [record] using isPid

theorem Purged.wakeSleeper (purged : s.Purged) (ok : Coherent s)
    {r : ProcRef} {p : Process} (record : s.procs r = some p) :
    (s.wake r p none).Purged := by
  intro x member n found
  have listed : x ∈ s.lists .finished := by
    simpa [relinkLists] using member
  obtain ⟨content, present, link⟩ := ok.record_of_mem listed
  have isPid := purged x listed content present
  by_cases isR : x = r
  · subst isR
    rw [record, Option.some.injEq] at present
    subst present
    simp only [wake_procs, Function.update_self, Option.some.injEq] at found
    subst found
    exact isPid
  · have same : content = n := by simpa [isR, present] using found
    exact same ▸ isPid

end KState

section Scheduler

variable {allowed : Move → KState → Prop} {s t u : KState} {k : Context}

/-- What the loop of `__wakeup_process` keeps. -/
structure Rescheduling (allowed : Move → KState → Prop) (s t : KState)
    (k : Context) (u : KState) : Prop where
  path : Moves allowed s u
  mode : u.mode = s.mode
  leaving : u.Leaving k
  purged : u.Purged
  waiters : t.SameWaiters u
  later : Moves (fun m _ => m.Serves) t u

/-- Only processes of the pids still to be visited sleep past their date. -/
def PunctualBut (u : KState) (rest : List Nat) : Prop :=
  ∀ r p, u.procs r = some p → p.state = .asleep →
    u.timeCount < p.wakeupDate ∨ p.pid.toNat ∈ rest

theorem punctualBut_start (ok : Coherent u) :
    PunctualBut u (List.range nbProc) := by
  intro r p record asleep
  right
  have entry := ok.procs.listed r p record (by simp [asleep])
  obtain ⟨nonneg, small, -⟩ := ok.procs.table _ r entry
  rw [List.mem_range]
  omega

theorem PunctualBut.wakeSleeper {pid : Nat} {rest : List Nat}
    (late : PunctualBut u (pid :: rest)) (ok : Coherent u) {r : ProcRef}
    {p : Process} (has : u.HasPid pid r p) :
    PunctualBut (u.wake r p none) rest := by
  intro x n found asleep
  by_cases isR : x = r
  · subst isR
    simp only [KState.wake_procs, Function.update_self,
      Option.some.injEq] at found
    simp [← found] at asleep
  · have record : u.procs x = some n := by simpa [isR] using found
    rcases late x n record asleep with early | member
    · exact .inl early
    · right
      refine (List.mem_cons.mp member).resolve_left ?_
      intro isPid
      have entry := ok.procs.listed x n record (by simp [asleep])
      have nonneg := (ok.procs.table _ x entry).1
      have samePid : n.pid = pid := by omega
      have sameRef := (samePid ▸ entry).symm.trans has.1
      rw [Option.some.injEq] at sameRef
      exact isR sameRef

theorem PunctualBut.pass {pid : Nat} {rest : List Nat}
    (late : PunctualBut u (pid :: rest)) (ok : Coherent u)
    (early : ∀ r p, u.HasPid pid r p → p.state = .asleep →
      u.timeCount < p.wakeupDate) : PunctualBut u rest := by
  intro x n record asleep
  rcases late x n record asleep with inTime | member
  · exact .inl inTime
  · rcases List.mem_cons.mp member with isPid | later
    · left
      have entry := ok.procs.listed x n record (by simp [asleep])
      have nonneg := (ok.procs.table _ x entry).1
      have samePid : n.pid = pid := by omega
      exact early x n ⟨samePid ▸ entry, record⟩ asleep
    · exact .inr later

theorem wp_wakeupOne {fault : Fault → KState → Prop} (sound : Sound s)
    (plain : Allows allowed s)
    (ready : Rescheduling allowed s t k u) {pid : Nat} {rest : List Nat}
    (late : PunctualBut u (pid :: rest)) :
    wp (wakeupOne pid)
      (fun _ v => Rescheduling allowed s t k v ∧ PunctualBut v rest) fault
      u := by
  have ok := (sound.moves ready.path).coherent
  rw [wakeupOne, wp_bind, wp_get]
  cases entry : u.processTable pid with
  | none =>
      refine ⟨ready, late.pass ok ?_⟩
      rintro r p ⟨isEntry, -⟩
      simp [entry] at isEntry
  | some r =>
      obtain ⟨-, -, p, record, -⟩ := ok.procs.table pid r entry
      simp only [wp_bind, wp_derefProc record, wp_ite]
      split
      · rename_i due
        have unlinked : p.link = none := by
          simpa [KState.LinkOk, due.1] using ok.procs.linked r p record
        obtain ⟨current, onCpu, left, -⟩ := ready.leaving.fits
        have applies : (Move.wakeSleeper r p).Guard u :=
          ⟨record, due.1, due.2, current, onCpu, left⟩
        rw [wp_activate record unlinked]
        refine ⟨⟨ready.path.move (.wakeSleeper r p)
          (plain _ _ trivial False.elim) applies, ready.mode,
          ready.leaving.wakeSleeper ok applies,
          ready.purged.wakeSleeper ok record,
          ⟨?_, ready.waiters.queues, ready.waiters.sems⟩,
          ready.later.move (.wakeSleeper r p) trivial applies⟩,
          late.wakeSleeper ok ⟨entry, record⟩⟩
        intro h notActivable notFinished
        rw [← ready.waiters.lists h notActivable notFinished]
        simp [KState.relinkLists, notActivable]
      · rename_i notDue
        refine ⟨ready, late.pass ok ?_⟩
        rintro x n ⟨isEntry, found⟩ asleep
        rw [entry, Option.some.injEq] at isEntry
        subst isEntry
        rw [record, Option.some.injEq] at found
        subst found
        exact not_le.mp fun due => notDue ⟨asleep, due⟩

/-- `old_process` exists. -/
theorem oldProcess_exists (ok : Coherent s) (cpu : CpuOk s) :
    ∃ old content, s.OldProcess old ∧ s.procs old = some content := by
  cases last : (s.lists .finished).getLast? with
  | some old =>
      obtain ⟨p, record, -⟩ := ok.record_of_mem (List.mem_of_getLast? last)
      exact ⟨old, p, .inl last, record⟩
  | none =>
      have empty := List.getLast?_eq_none_iff.mp last
      obtain ⟨p, record, isPid⟩ := cpu.current
      have active : p.state ≠ .finished := by
        intro finished
        have link : p.link = some .finished := by
          simpa [KState.LinkOk, finished] using ok.procs.linked _ p record
        have member := ok.lists.mem_of_link record link
        simp [empty] at member
      have listed := ok.procs.listed _ p record active
      rw [isPid] at listed
      exact ⟨s.running, p, .inr ⟨empty, listed⟩, record⟩

theorem wp_oldProcess {fault : Fault → KState → Prop}
    {post : ProcRef → KState → Prop} {old : ProcRef}
    (isOld : s.OldProcess old) (lists : t.lists .finished = s.lists .finished)
    (table : t.processTable = s.processTable)
    (currentPid : t.currentPid = s.currentPid) :
    wp oldProcess post fault t = post old t := by
  rw [oldProcess, wp_bind, wp_get, lists]
  rcases isOld with last | ⟨empty, listed⟩
  · rw [last, wp_pure]
  · rw [empty]
    exact wp_entry (by rw [table, currentPid, listed])

/-- After a dispatch the running process has the highest priority. -/
theorem top_dispatch (ok : Coherent s) {r old : ProcRef} {p : Process}
    {restored : Context} (next : s.NextOut .activable r p) :
    ((Move.dispatch k r p old restored).effect s).Top := by
  have samePrio (x : ProcRef) :
      ((Move.dispatch k r p old restored).effect s).prio x = s.prio x := by
    unfold KState.prio
    rw [Move.dispatch_procs]
    by_cases isNew : x = r
    · simp [isNew, next.2]
    · rw [if_neg isNew]
      cases s.procs x <;> rfl
  intro x member
  have listed : x ∈ s.lists .activable := by
    have inErased : x ∈ (s.lists .activable).erase r := by
      simpa [Move.effect, KState.relinkLists] using member
    exact List.mem_of_mem_erase inErased
  rw [samePrio, samePrio]
  exact (ok.lists.ordered .activable).priority_le_last next.1 listed

/-- `__scheduler` ends by dispatching a process of highest priority. -/
theorem wp_scheduler (sound : Sound s)
    (plain : Allows allowed s) (path : Moves allowed s t)
    (mode : t.mode = s.mode) (leaving : t.Leaving k)
    (mayDispatch : ∀ u r p old restored, u.mode = s.mode →
      allowed (.dispatch k r p old restored) u) :
    wp (scheduler k) (fun _ => Scheduled allowed s t) (Stops allowed s) t := by
  have soundT := sound.moves path
  rw [scheduler, wp_bind]
  refine wp_freeFinishedProcess soundT.coherent ?_ ?_
  swap
  · intro crowded _ _
    exact ⟨t, path, crowded⟩
  intro keep applies
  have waiters : t.SameWaiters (t.purge keep) := by
    refine ⟨?_, rfl, rfl⟩
    intro h _ notFinished
    simp [notFinished]
  have ready : Rescheduling allowed s t k (t.purge keep) :=
    ⟨path.move (.purge keep) (plain _ _ trivial False.elim) applies, mode,
      leaving.purge soundT.coherent soundT.cpu applies,
      .purge soundT.coherent applies, waiters,
      .single (.purge keep) trivial applies⟩
  rw [wp_bind]
  refine wp_forM (fun rest u => Rescheduling allowed s t k u ∧
    PunctualBut u rest) ?_ ?_ _
    ⟨ready, punctualBut_start (sound.moves ready.path).coherent⟩
  · rintro i rest u ⟨loop, late⟩
    exact wp_wakeupOne sound plain loop late
  rintro u ⟨ready, late⟩
  have punctual : u.Punctual := by
    intro r p record asleep
    exact (late r p record asleep).resolve_right (List.not_mem_nil)
  have soundU := sound.moves ready.path
  have ok := soundU.coherent
  cases last : (u.lists .activable).getLast? with
  | none =>
      have empty := List.getLast?_eq_none_iff.mp last
      obtain ⟨current, onCpu, left, -⟩ := ready.leaving.fits
      rw [wp_bind, wp_queueOut_nil empty]
      exact ⟨ready.path, ready.purged, empty, current, onCpu, left⟩
  | some r =>
      obtain ⟨p, record, link⟩ := ok.record_of_mem (List.mem_of_getLast? last)
      have next : u.NextOut .activable r p := ⟨last, record⟩
      obtain ⟨current, onCpu, left, fits⟩ := ready.leaving.fits
      obtain ⟨old, content, isOld, wasOld⟩ := oldProcess_exists ok soundU.cpu
      have taken : (u.relink r p (some .activable) none).procs r =
          some { p with link := none } := by
        simp
      have electing : (u.relink r p (some .activable) none).setProc r
          { p with link := none, state := .elected } =
          u.relink r { p with state := .elected } (some .activable) none :=
        KState.relink_setProc rfl
      have lists : (u.relink r { p with state := .elected } (some .activable)
          none).lists .finished = u.lists .finished := by
        simp [KState.relinkLists]
      have present {x : ProcRef} {c : Process} (found : u.procs x = some c) :
          ∃ n, (u.relink r { p with state := .elected } (some .activable)
            none).procs x = some n := by
        by_cases isNew : x = r
        · exact ⟨_, by rw [isNew]; exact Function.update_self ..⟩
        · exact ⟨c, by simp [isNew, found]⟩
      obtain ⟨onCpu', isOnCpu⟩ := present onCpu
      obtain ⟨content', isContent⟩ := present wasOld
      rw [wp_bind, wp_queueOut (ok.lists.nodup _) next]
      simp only [wp_bind, wp_modifyProc _ taken, electing]
      have elected : (u.relink r { p with state := .elected }
          (some .activable) none).procs r =
          some { p with state := .elected, link := none } := by
        simp
      rw [wp_oldProcess isOld lists rfl rfl]
      simp only [wp_bind, wp_derefProc elected, wp_modify, wp_get, wp_emit]
      have state : p.state = .activable :=
        (ok.procs.linked r p record).state_of_link link
      refine wp_virtualCtxSw isOnCpu isContent elected ?_ ?_
      · intro lost
        have other : r ≠ old := by
          intro same
          simp [same] at lost
        rw [if_neg other] at lost
        exact ⟨u, ready.path, r, p, old, record, by simp [state], lost, other,
          .inr ⟨isOld, ready.purged⟩⟩
      intro restored restores
      have applies : (Move.dispatch k r p old restored).Guard u :=
        ⟨ready.leaving.outside, next, isOld,
          ⟨content, wasOld⟩, ready.purged, ⟨current, onCpu, left, fits⟩,
          restores, punctual⟩
      have dispatched := ready.path.move (.dispatch k r p old restored)
        (mayDispatch _ _ _ _ _ ready.mode) applies
      rw [lists]
      refine ⟨dispatched, ?_, ⟨restored, rfl⟩, top_dispatch ok next,
        ⟨?_, ready.waiters.queues, ready.waiters.sems⟩,
        ready.later.move (.dispatch k r p old restored) trivial applies⟩
      swap
      · intro h notActivable notFinished
        rw [← ready.waiters.lists h notActivable notFinished]
        simp [KState.relinkLists, notActivable]
      have atNew := Move.dispatch_procs (s := u) (k := k) (r := r) (p := p)
        (o := old) (c := restored) r
      rw [if_pos rfl] at atNew
      exact ⟨_, atNew, rfl⟩

end Scheduler

end Nebulea
