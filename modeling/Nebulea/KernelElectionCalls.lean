import Nebulea.KernelElections

/-!
# Elections in the calls of the kernel

Every kernel entry either returns without `__scheduler` having switched
processes, or calls it last.  So an entry leaves the places of all waiting
processes as they are and elects, if at all, the process that was first in
line.
-/

namespace Nebulea

open ExceptState

/-- The code leaves places alone, and any election made is the right one. -/
def Fair (b : KState) (code : KM Unit) : Prop :=
  ∀ u, Continues b u → wp code (fun _ => Elects b)
    (fun failure t => failure = .page → Elects b t) u

section Fair

variable {b : KState}

theorem Fair.of_keeps {code : KM Unit} (keeps : Keeps (Continues b) code) :
    Fair b code := by
  intro u follows
  exact wp_mono (keeps u follows) (fun _ _ kept => kept.elects)
    fun _ _ kept _ => kept.elects

theorem Fair.bind {α : Type} {first : KM α} {second : α → KM Unit}
    (before : Keeps (Continues b) first) (after : ∀ value, Fair b (second value)) :
    Fair b (first >>= second) := by
  intro u follows
  rw [wp_bind]
  exact wp_mono (before u follows) (fun value v kept => after value v kept)
    fun _ _ kept _ => kept.elects

theorem Fair.ret (value : Int) : Fair b (ret value) :=
  Fair.of_keeps (keeps_return value)

theorem Fair.throw (failure : Fault) :
    Fair b (MonadExcept.throw failure) :=
  Fair.of_keeps (Keeps.throw failure)

theorem fair_scheduler (k : Context) : Fair b (scheduler k) :=
  fun _ follows => follows.schedules k

theorem fair_reschedule (k : Context) : Fair b (reschedule k) := by
  apply Fair.bind Keeps.get
  intro s
  apply Fair.bind (keeps_entry _)
  intro current
  exact Fair.bind (keeps_makeActivable current) fun _ => fair_scheduler k

/-! ### Processes -/

theorem keeps_switch (k : Context) (old new : ProcRef) :
    Keeps (Continues b) (virtualCtxSw k old new) := by
  apply Keeps.bind Keeps.get
  intro s
  refine Keeps.bind (keeps_setProc _ fun _ => rfl) fun _ => ?_
  refine Keeps.bind (keeps_setProc _ fun _ => rfl) fun _ => ?_
  apply Keeps.bind (keeps_derefProc new)
  intro p
  cases p.registers with
  | none => exact Keeps.throw _
  | some restored =>
      refine Keeps.bind (keeps_setProc _ fun _ => rfl) fun _ => ?_
      exact keeps_data fun _ => rfl

theorem keeps_awakeFather (pid : Int) :
    Keeps (Continues b) (awakeFather pid) := by
  apply Keeps.bind (keeps_entry pid)
  intro r
  apply Keeps.bind (keeps_derefProc r)
  intro child
  apply Keeps.bind Keeps.get
  intro s
  cases s.findPid .waitingPid child.fatherPid with
  | none => exact Keeps.pure _
  | some father =>
      apply Keeps.bind (keeps_unchain father)
      intro _
      refine Keeps.bind (keeps_setProc father fun _ => rfl) fun _ => ?_
      exact keeps_makeActivable father

theorem keeps_finishFatherless (pid : Int) :
    Keeps (Continues b) (finishFatherless pid) := by
  apply Keeps.bind (keeps_entry pid)
  intro r
  refine Keeps.bind (keeps_setProc r fun _ => rfl) fun _ => ?_
  apply Keeps.bind (keeps_chain r _)
  intro _
  exact keeps_data fun _ => rfl

theorem keeps_removeFromChildren (pid fatherPid : Int) :
    Keeps (Continues b) (removeFromChildren pid fatherPid) := by
  unfold removeFromChildren
  split
  · exact Keeps.pure _
  · apply Keeps.bind (keeps_entry fatherPid)
    intro father
    apply Keeps.bind (keeps_derefProc father)
    intro p
    cases p.children with
    | none => exact Keeps.throw _
    | some children =>
        simp only []
        cases children.find? fun child => child.pid == pid with
        | none => exact Keeps.pure _
        | some child => exact keeps_setProc father fun _ => rfl

theorem keeps_finishZombie (pid : Int) (retvalp : UserPtr) :
    Keeps (Continues b) (finishZombie pid retvalp) := by
  apply Keeps.bind Keeps.get
  intro s
  apply Keeps.bind (keeps_note rfl)
  intro _
  have rest (_ : PUnit) : Keeps (Continues b)
      (do removeFromChildren pid s.currentPid; finishFatherless pid) :=
    Keeps.bind (keeps_removeFromChildren _ _) fun _ =>
      keeps_finishFatherless pid
  simp only []
  split
  · split
    · exact Keeps.throw _
    · apply Keeps.bind (keeps_entry pid)
      intro r
      apply Keeps.bind (keeps_derefProc r)
      intro p
      exact Keeps.bind (keeps_storeUser _ _) rest
  · exact rest ⟨⟩

theorem keeps_orphan (child : Child) : Keeps (Continues b) (orphan child) := by
  apply Keeps.bind (keeps_entry _)
  intro r
  refine Keeps.bind (keeps_setProc r fun _ => rfl) fun _ => ?_
  apply Keeps.bind (keeps_derefProc r)
  intro p
  split
  · exact keeps_finishFatherless _
  · exact Keeps.pure _

theorem fair_processEnd (pid : Int) (k : Context) {after : KM Unit}
    (ends : Keeps (Continues b) after) : Fair b (processEnd pid k after) := by
  apply Fair.bind (keeps_entry pid)
  intro ending
  apply Fair.bind (keeps_derefProc ending)
  intro p
  have last (_ : PUnit) : Fair b (do
      if pid = (← get).currentPid then scheduler k else after) := by
    apply Fair.bind Keeps.get
    intro s
    split
    · exact fair_scheduler k
    · exact Fair.of_keeps ends
  have father (orphans : KM PUnit) (keeps : Keeps (Continues b) orphans) :
      Fair b (do
        if p.fatherPid ≠ -1 then do
          modifyProc ending fun p => { p with state := .zombie }
          awakeFather pid
        else
          finishFatherless pid
        orphans
        if pid = (← get).currentPid then scheduler k else after) := by
    have rest (_ : PUnit) := Fair.bind keeps last
    simp only []
    split
    · refine Fair.bind (keeps_setProc ending fun _ => rfl) fun _ => ?_
      exact Fair.bind (keeps_awakeFather pid) rest
    · exact Fair.bind (keeps_finishFatherless pid) rest
  cases p.children with
  | none => exact father _ (Keeps.throw _)
  | some children =>
      exact father _ (Keeps.forM (fun child => keeps_orphan child) _)

theorem continues_startTail (r : ProcRef) :
    Keeps (Continues b) (startTail r) := by
  refine Keeps.bind (keeps_setProc r fun _ => rfl) fun _ => ?_
  apply Keeps.bind (keeps_derefProc r)
  intro p
  exact keeps_return _

/-- The end of `start`: the new process gets the processor or waits for it. -/
theorem keeps_startChoice (s : KState) (pid prio : Int) (r : ProcRef) :
    Keeps (Continues b) (do
      if 0 ≤ s.currentPid then do
        let old ← entry s.currentPid
        let current ← derefProc old
        if prio > current.priority then do
          activate old
          modifyProc r fun p => { p with state := .elected }
          modify fun s => { s with currentPid := pid }
          virtualCtxSw (.start r) old r
        else do
          activate r
          startTail r
      else do
        activate r
        startTail r) := by
  have waits : Keeps (Continues b) (do activate r; startTail r) :=
    Keeps.bind (keeps_makeActivable r) fun _ => continues_startTail r
  split
  · apply Keeps.bind (keeps_entry _)
    intro old
    apply Keeps.bind (keeps_derefProc old)
    intro current
    split
    · apply Keeps.bind (keeps_makeActivable old)
      intro _
      refine Keeps.bind (keeps_setProc r fun _ => rfl) fun _ => ?_
      refine Keeps.bind ?_ fun _ => keeps_switch _ old r
      exact keeps_data fun _ => rfl
    · exact waits
  · exact waits

theorem keeps_start (name : String) (ssize : Nat) (prio : Int) :
    Keeps (Continues b) (start name ssize prio) := by
  intro u follows
  have choice (_ : PUnit) :=
    keeps_startChoice (b := b) u (getFreePid u) prio u.nextRef
  rw [start, wp_bind, wp_get]
  simp only []
  split
  · exact keeps_return _ u follows
  split
  · exact follows
  split
  · exact keeps_return _ u follows
  rw [wp_bind, wp_modify]
  refine (?_ : Keeps (Continues b) _) _
    (follows.create rfl rfl rfl rfl rfl rfl)
  split
  · apply Keeps.bind (keeps_entry _)
    intro father
    apply Keeps.bind (keeps_derefProc father)
    intro p
    cases p.children with
    | none => exact Keeps.bind (Keeps.throw _) choice
    | some children =>
        exact Keeps.bind (keeps_setProc father fun _ => rfl) choice
  · exact choice ⟨⟩

/-- `chprio` writes a priority while the record is in no list. -/
theorem fair_chprio (pid newprio : Int) : Fair b (chprio pid newprio) := by
  apply Fair.bind Keeps.get
  intro s
  split
  · exact Fair.ret _
  apply Fair.bind (keeps_entry pid)
  intro r u follows
  rw [wp_bind]
  refine wp_derefProc_of (fun _ => follows.elects) ?_
  intro p record
  have again (_ : Unit) : Fair b (reschedule (.returning p.priority)) :=
    fair_reschedule _
  simp only []
  split
  · exact Fair.ret _ u follows
  split
  · rename_i linked
    obtain ⟨h, link⟩ := Option.ne_none_iff_exists'.mp linked
    rw [wp_bind, wp_get]
    cases getQueue u p with
    | none => exact fun isPage => absurd isPage (by simp)
    | some queue =>
        have unchained : (u.relink r p (some h) none).procs r =
            some { p with link := none } := by
          simp
        simp only []
        rw [wp_bind, wp_queueDel record link, wp_bind,
          wp_modifyProc _ unchained, KState.relink_setProc rfl, wp_bind]
        have changed := follows.relink record none
          (n := { p with link := none, priority := newprio })
        rw [link] at changed
        exact wp_mono (keeps_chain r queue _ changed)
          (fun _ v chained => again ⟨⟩ v chained) fun _ _ kept _ => kept.elects
  · rename_i linked
    have link : p.link = none := not_not.mp linked
    rw [wp_bind, wp_modifyProc _ record]
    exact again ⟨⟩ _ (follows.assign record link link)

theorem fair_waitClock (wakeup : Nat) : Fair b (waitClock wakeup) := by
  apply Fair.bind Keeps.get
  intro s
  apply Fair.bind (keeps_entry _)
  intro current
  refine Fair.bind (keeps_setProc current fun _ => rfl) fun _ => ?_
  exact fair_scheduler _

theorem fair_exit (retval : Int) : Fair b (exit retval) := by
  apply Fair.bind Keeps.get
  intro s
  apply Fair.bind (keeps_entry _)
  intro current
  refine Fair.bind (keeps_setProc current fun _ => rfl) fun _ => ?_
  apply Fair.bind (keeps_note rfl)
  intro _
  exact fair_processEnd _ _ (Keeps.throw _)

theorem fair_kill (pid : Int) : Fair b (kill pid) := by
  apply Fair.bind Keeps.get
  intro s
  split
  · exact Fair.ret _
  apply Fair.bind (keeps_entry pid)
  intro r
  apply Fair.bind (keeps_derefProc r)
  intro p
  split
  · exact Fair.ret _
  have rest (_ : PUnit) : Fair b (do
      modifyProc r fun p => { p with retval := 0 }
      emit (.killed r)
      processEnd pid (.returning 0) (Nebulea.ret 0)) := by
    refine Fair.bind (keeps_setProc r fun _ => rfl) fun _ => ?_
    apply Fair.bind (keeps_note rfl)
    intro _
    exact fair_processEnd _ _ (keeps_return 0)
  simp only []
  split
  · apply Fair.bind (keeps_unchain r)
    intro _
    split
    · apply Fair.bind Keeps.get
      intro s
      cases s.semaphoreTable p.waitedSem with
      | none => exact Fair.bind (Keeps.throw _) rest
      | some x => exact Fair.bind (keeps_setSem x _) rest
    · exact rest ⟨⟩
  · exact rest ⟨⟩

theorem keeps_firstZombie (children : List Child) :
    Keeps (Continues b) (firstZombie children) := by
  induction children with
  | nil => exact Keeps.pure _
  | cons child others ih =>
      apply Keeps.bind (keeps_entry _)
      intro r
      apply Keeps.bind (keeps_derefProc r)
      intro p
      split
      · exact Keeps.pure _
      · exact ih

theorem fair_awaitChild (pid : Int) (retvalp : UserPtr) :
    Fair b (awaitChild pid retvalp) := by
  apply Fair.bind Keeps.get
  intro s
  apply Fair.bind (keeps_entry _)
  intro current
  refine Fair.bind (keeps_setProc current fun _ => rfl) fun _ => ?_
  exact Fair.bind (keeps_chain current _) fun _ => fair_scheduler _

theorem fair_waitpid (pid : Int) (retvalp : UserPtr) :
    Fair b (waitpid pid retvalp) := by
  unfold waitpid
  split
  · exact Fair.ret _
  split
  · exact Fair.ret _
  split
  · apply Fair.bind Keeps.get
    intro s
    apply Fair.bind (keeps_entry _)
    intro r
    apply Fair.bind (keeps_derefProc r)
    intro p
    cases p.children with
    | none => exact Fair.throw _
    | some children =>
        simp only []
        split
        · exact Fair.ret _
        apply Fair.bind (keeps_firstZombie children)
        intro found
        cases found with
        | none => exact fair_awaitChild pid retvalp
        | some child =>
            exact Fair.bind (keeps_finishZombie _ _) fun _ => Fair.ret _
  · apply Fair.bind Keeps.get
    intro s
    cases s.processTable pid with
    | none => exact Fair.ret _
    | some r =>
        apply Fair.bind (keeps_derefProc r)
        intro p
        apply Fair.bind Keeps.get
        intro s
        split
        · exact Fair.ret _
        split
        · exact Fair.bind (keeps_finishZombie _ _) fun _ => Fair.ret _
        · exact fair_awaitChild pid retvalp

theorem keeps_waitpidTail (pid : Int) (retvalp : UserPtr) :
    Keeps (Continues b) (waitpidTail pid retvalp) := by
  unfold waitpidTail
  split
  · apply Keeps.bind Keeps.get
    intro s
    apply Keeps.bind (keeps_entry _)
    intro r
    apply Keeps.bind (keeps_derefProc r)
    intro p
    exact Keeps.bind (keeps_finishZombie _ _) fun _ => keeps_return _
  · exact Keeps.bind (keeps_finishZombie _ _) fun _ => keeps_return _

theorem fair_ticPIT : Fair b ticPIT := by
  refine Fair.bind (keeps_data fun _ => rfl) fun _ => ?_
  apply Fair.bind Keeps.get
  intro s
  simp only []
  split
  · apply Fair.bind (keeps_entry _)
    intro old
    apply Fair.bind (keeps_derefProc old)
    intro p
    split
    · exact Fair.bind (keeps_makeActivable old) fun _ => fair_scheduler _
    · exact fair_scheduler _
  · exact Fair.of_keeps (keeps_data fun _ => rfl)

/-! ### Message queues -/

theorem fair_pcreate (count : Int) : Fair b (pcreate count) := by
  intro u follows
  rw [pcreate, wp_bind, wp_get]
  simp only []
  split
  · exact Fair.ret _ u follows
  · rw [wp_bind, wp_modify, wp_ret]
    exact ⟨follows.places, .inl follows.quiet⟩

theorem keeps_flushAll (q : QueueRef) : Keeps (Continues b) (flushAll q) := by
  apply Keeps.bind Keeps.get
  intro s
  refine keeps_drainOut _ (fun r => ?_) _
  refine Keeps.bind (keeps_setProc r fun _ => rfl) fun _ => ?_
  exact keeps_chain r _

theorem fair_pdelete (fid : Int) : Fair b (pdelete fid) := by
  apply Fair.bind Keeps.get
  intro s
  cases queueOf s fid with
  | none => exact Fair.ret _
  | some q =>
      apply Fair.bind (keeps_flushAll q)
      intro _
      exact Fair.bind (keeps_data fun _ => rfl) fun _ => fair_reschedule _

theorem fair_preset (fid : Int) : Fair b (preset fid) := by
  apply Fair.bind Keeps.get
  intro s
  cases queueOf s fid with
  | none => exact Fair.ret _
  | some q =>
      apply Fair.bind (keeps_flushAll q)
      intro _
      exact Fair.bind (keeps_setQueue q _) fun _ => fair_reschedule _

theorem fair_psend (fid message : Int) : Fair b (psend fid message) := by
  apply Fair.bind Keeps.get
  intro s
  cases queueOf s fid with
  | none => exact Fair.ret _
  | some q =>
      apply Fair.bind Keeps.get
      intro s
      apply Fair.bind (keeps_entry _)
      intro p
      refine Fair.bind (keeps_setProc p fun _ => rfl) fun _ => ?_
      refine Fair.bind (keeps_note rfl) fun _ => ?_
      apply Fair.bind (keeps_derefQueue q)
      intro content
      apply Fair.bind Keeps.get
      intro s
      split
      · apply Fair.bind (keeps_setQueue q _)
        intro _
        refine Fair.bind (keeps_note rfl) fun _ => ?_
        apply Fair.bind (keeps_out _)
        intro next
        cases next with
        | none => exact Fair.throw _
        | some new =>
            apply Fair.bind (keeps_makeActivable p)
            intro _
            refine Fair.bind (keeps_setProc new fun _ => rfl) fun _ => ?_
            apply Fair.bind (keeps_derefProc new)
            intro receiver
            refine Fair.bind (keeps_data fun _ => rfl) fun _ => ?_
            exact Fair.of_keeps (keeps_switch _ p new)
      · split
        · refine Fair.bind (keeps_setProc p fun _ => rfl) fun _ => ?_
          exact Fair.bind (keeps_chain p _) fun _ => fair_scheduler _
        · apply Fair.bind (keeps_setQueue q _)
          intro _
          exact Fair.bind (keeps_note rfl) fun _ => Fair.ret _

theorem keeps_psendTail (p : ProcRef) : Keeps (Continues b) (psendTail p) := by
  apply Keeps.bind (keeps_derefProc p)
  intro content
  split
  · refine Keeps.bind (keeps_setProc p fun _ => rfl) fun _ => ?_
    exact keeps_return _
  · exact keeps_return _

theorem fair_preceive (fid : Int) (message : UserPtr) :
    Fair b (preceive fid message) := by
  apply Fair.bind Keeps.get
  intro s
  cases queueOf s fid with
  | none => exact Fair.ret _
  | some q =>
      apply Fair.bind Keeps.get
      intro s
      apply Fair.bind (keeps_entry _)
      intro p
      apply Fair.bind (keeps_derefQueue q)
      intro content
      split
      · apply Fair.bind (keeps_storeThrough _ _)
        intro _
        refine Fair.bind (keeps_note rfl) fun _ => ?_
        apply Fair.bind Keeps.get
        intro s
        split
        · apply Fair.bind (keeps_out _)
          intro next
          cases next with
          | none => exact Fair.throw _
          | some sender =>
              apply Fair.bind (keeps_derefProc sender)
              intro blocked
              apply Fair.bind (keeps_setQueue q _)
              intro _
              refine Fair.bind (keeps_note rfl) fun _ => ?_
              apply Fair.bind (keeps_makeActivable sender)
              intro _
              exact fair_reschedule _
        · exact Fair.bind (keeps_setQueue q _) fun _ => Fair.ret _
      · refine Fair.bind (keeps_setProc p fun _ => rfl) fun _ => ?_
        exact Fair.bind (keeps_chain p _) fun _ => fair_scheduler _

theorem keeps_preceiveTail (p : ProcRef) (q : QueueRef) (message : UserPtr) :
    Keeps (Continues b) (preceiveTail p q message) := by
  apply Keeps.bind (keeps_derefProc p)
  intro receiver
  split
  · refine Keeps.bind (keeps_setProc p fun _ => rfl) fun _ => ?_
    exact keeps_return _
  · apply Keeps.bind (keeps_derefQueue q)
    intro content
    apply Keeps.bind (keeps_storeThrough _ _)
    intro _
    refine Keeps.bind (keeps_note rfl) fun _ => ?_
    exact Keeps.bind (keeps_setQueue q _) fun _ => keeps_return _

theorem keeps_pcount (fid : Int) (count : UserPtr) :
    Keeps (Continues b) (pcount fid count) := by
  apply Keeps.bind Keeps.get
  intro s
  cases queueOf s fid with
  | none => exact keeps_return _
  | some q =>
      apply Keeps.bind (keeps_derefQueue q)
      intro content
      apply Keeps.bind Keeps.get
      intro s
      exact Keeps.bind (keeps_storeThrough _ _) fun _ => keeps_return _

/-! ### Semaphores -/

theorem fair_screate (count : Int) : Fair b (screate count) := by
  intro u follows
  rw [screate, wp_bind, wp_get]
  simp only []
  split
  · exact Fair.ret _ u follows
  · rw [wp_bind, wp_modify, wp_ret]
    exact ⟨follows.places, .inl follows.quiet⟩

theorem keeps_releaseAll (x : SemRef) :
    Keeps (Continues b) (releaseAll x) := by
  apply Keeps.bind Keeps.get
  intro s
  exact keeps_drainOut _ keeps_makeActivable _

theorem keeps_nbWaitingProc2 (sem : Int) :
    Keeps (Continues b) (nbWaitingProc2 sem) := by
  apply Keeps.bind Keeps.get
  intro s
  cases s.semaphoreTable sem with
  | none => exact Keeps.throw _
  | some x => exact Keeps.pure _

theorem fair_sdelete (sem : Int) : Fair b (sdelete sem) := by
  apply Fair.bind Keeps.get
  intro s
  cases semOf s sem with
  | none => exact Fair.ret _
  | some x =>
      apply Fair.bind (keeps_releaseAll x)
      intro _
      refine Fair.bind (keeps_data fun _ => rfl) fun _ => ?_
      apply Fair.bind (keeps_nbWaitingProc2 sem)
      intro waiting
      simp only []
      split
      · exact Fair.bind (keeps_data fun _ => rfl) fun _ => fair_reschedule _
      · exact Fair.bind (keeps_setSem x _) fun _ => fair_reschedule _

theorem keeps_increment (x : SemRef) :
    Keeps (Continues b) (increment x) := by
  apply Keeps.bind (keeps_setSem x _)
  intro _
  exact keeps_note rfl

theorem keeps_wakeWaiter (x : SemRef) :
    Keeps (Continues b) (wakeWaiter x) := by
  apply Keeps.bind (keeps_out _)
  intro next
  cases next with
  | none => exact Keeps.throw _
  | some p =>
      refine Keeps.bind (keeps_note rfl) fun _ => ?_
      exact keeps_makeActivable p

theorem fair_signal (sem : Int) : Fair b (signal sem) := by
  apply Fair.bind Keeps.get
  intro s
  cases semOf s sem with
  | none => exact Fair.ret _
  | some x =>
      apply Fair.bind (keeps_derefSem x)
      intro content
      split
      · exact Fair.ret _
      apply Fair.bind (keeps_increment x)
      intro _
      apply Fair.bind (keeps_derefSem x)
      intro content
      split
      · apply Fair.bind (keeps_setSem x _)
        intro _
        exact Fair.bind (keeps_wakeWaiter x) fun _ => fair_reschedule _
      · exact Fair.ret _

theorem keeps_signalLoop (x : SemRef) (turns : Nat) :
    Keeps (Continues b) (signalLoop x turns) := by
  induction turns with
  | zero => exact Keeps.pure _
  | succ turns ih =>
      refine Keeps.bind ?_ fun _ => ih
      apply Keeps.bind (keeps_increment x)
      intro _
      apply Keeps.bind (keeps_derefSem x)
      intro content
      split
      · exact keeps_wakeWaiter x
      · exact Keeps.pure _

theorem fair_signaln (sem count : Int) : Fair b (signaln sem count) := by
  apply Fair.bind Keeps.get
  intro s
  cases semOf s sem with
  | none => exact Fair.ret _
  | some x =>
      simp only []
      split
      · exact Fair.ret _
      apply Fair.bind (keeps_derefSem x)
      intro content
      split
      · exact Fair.ret _
      apply Fair.bind (keeps_setSem x _)
      intro _
      exact Fair.bind (keeps_signalLoop x _) fun _ => fair_reschedule _

theorem keeps_tryWait (sem : Int) : Keeps (Continues b) (tryWait sem) := by
  apply Keeps.bind Keeps.get
  intro s
  cases semOf s sem with
  | none => exact keeps_return _
  | some x =>
      apply Keeps.bind (keeps_derefSem x)
      intro content
      split
      · exact keeps_return _
      split
      · apply Keeps.bind (keeps_setSem x _)
        intro _
        apply Keeps.bind Keeps.get
        intro s
        exact Keeps.bind (keeps_note rfl) fun _ => keeps_return _
      · exact keeps_return _

theorem fair_wait (sem : Int) : Fair b (wait sem) := by
  apply Fair.bind Keeps.get
  intro s
  cases semOf s sem with
  | none => exact Fair.ret _
  | some x =>
      apply Fair.bind (keeps_derefSem x)
      intro content
      split
      · exact Fair.ret _
      apply Fair.bind (keeps_setSem x _)
      intro _
      apply Fair.bind (keeps_derefSem x)
      intro content
      split
      · apply Fair.bind Keeps.get
        intro s
        apply Fair.bind (keeps_entry _)
        intro current
        refine Fair.bind (keeps_setProc current fun _ => rfl) fun _ => ?_
        exact Fair.bind (keeps_chain current _) fun _ => fair_scheduler _
      · apply Fair.bind Keeps.get
        intro s
        exact Fair.bind (keeps_note rfl) fun _ => Fair.ret _

theorem keeps_waitTail (x : SemRef) : Keeps (Continues b) (waitTail x) := by
  apply Keeps.bind (keeps_derefSem x)
  intro content
  split
  · exact Keeps.bind (keeps_data fun _ => rfl) fun _ => keeps_return _
  split
  · exact keeps_return _
  · exact keeps_return _

theorem fair_sreset (sem count : Int) : Fair b (sreset sem count) := by
  apply Fair.bind Keeps.get
  intro s
  cases semOf s sem with
  | none => exact Fair.ret _
  | some x =>
      simp only []
      split
      · exact Fair.ret _
      apply Fair.bind (keeps_releaseAll x)
      intro _
      apply Fair.bind (keeps_setSem x _)
      intro _
      exact Fair.bind (keeps_note rfl) fun _ => fair_reschedule _

end Fair

/-! ### Every kernel entry -/

section Entries

variable {b : KState}

theorem keeps_clockSettings (quartz ticks : UserPtr) :
    Keeps (Continues b) (clockSettings quartz ticks) := by
  apply Keeps.bind (keeps_storeUser quartz _)
  intro _
  exact Keeps.bind (keeps_storeUser ticks _) fun _ => keeps_return _

theorem fair_syscall (c : Syscall) : Fair b (syscall c) := by
  cases c with
  | start name ssize prio => exact Fair.of_keeps (keeps_start name ssize prio)
  | getpid => exact Fair.bind Keeps.get fun s => Fair.ret _
  | getprio pid =>
      apply Fair.bind Keeps.get
      intro s
      split
      · exact Fair.ret _
      apply Fair.bind (keeps_entry pid)
      intro r
      apply Fair.bind (keeps_derefProc r)
      intro p
      split
      · exact Fair.ret _
      · exact Fair.ret _
  | chprio pid newprio => exact fair_chprio pid newprio
  | kill pid => exact fair_kill pid
  | waitpid pid retvalp => exact fair_waitpid pid retvalp
  | exit retval => exact fair_exit retval
  | scount sem =>
      apply Fair.bind Keeps.get
      intro s
      cases semOf s sem with
      | none => exact Fair.ret _
      | some x => exact Fair.bind (keeps_derefSem x) fun _ => Fair.ret _
  | screate count => exact fair_screate _
  | sdelete sem => exact fair_sdelete sem
  | signal sem => exact fair_signal sem
  | signaln sem count => exact fair_signaln sem _
  | sreset sem count => exact fair_sreset sem _
  | tryWait sem => exact Fair.of_keeps (keeps_tryWait sem)
  | wait sem => exact fair_wait sem
  | pcount fid count => exact Fair.of_keeps (keeps_pcount fid count)
  | pcreate count => exact fair_pcreate count
  | pdelete fid => exact fair_pdelete fid
  | preceive fid message => exact fair_preceive fid message
  | preset fid => exact fair_preset fid
  | psend fid message => exact fair_psend fid message
  | clockSettings quartz ticks =>
      exact Fair.of_keeps (keeps_clockSettings quartz ticks)
  | currentClock => exact Fair.bind Keeps.get fun s => Fair.ret _
  | waitClock wakeup => exact fair_waitClock wakeup
  | other result => exact Fair.ret _
  | unknown => exact Fair.throw _

theorem keeps_resume (k : Context) : Keeps (Continues b) (resume k) := by
  cases k with
  | fresh | interrupted => exact keeps_data fun _ => rfl
  | returning value => exact keeps_return value
  | exiting => exact Keeps.throw _
  | start p => exact continues_startTail p
  | waitpid pid retvalp => exact keeps_waitpidTail pid retvalp
  | handedOver => exact keeps_return 0
  | psend p q => exact keeps_psendTail p
  | preceive p q message => exact keeps_preceiveTail p q message
  | wait x => exact keeps_waitTail x

theorem fair_kernelEntry {mode : Mode} {a : Action} {code : KM Unit}
    (isEntry : kernelEntry mode a = some code) : Fair b code := by
  cases mode with
  | user =>
      cases a with
      | call c =>
          cases isEntry
          exact fair_syscall c
      | tick =>
          cases isEntry
          exact fair_ticPIT
      | resume => cases isEntry
  | kernel k =>
      cases a with
      | resume =>
          cases isEntry
          exact Fair.of_keeps (keeps_resume k)
      | call | tick => cases isEntry
  | pageFault =>
      cases a with
      | resume =>
          cases isEntry
          exact fair_exit 0
      | call | tick => cases isEntry

/-- No step disturbs the places of waiting processes, and a step in which
`__scheduler` switches processes elects the one that was first in line. -/
theorem Settled.elects {t : KState} {a : Action} (settled : Settled b)
    (next : step a b = .next t) : Elects b t := by
  unfold step at next
  cases isEntry : kernelEntry b.mode a with
  | none =>
      rw [isEntry] at next
      cases next
  | some code =>
      have rule := fair_kernelEntry isEntry b (Continues.start settled)
      rw [isEntry] at next
      simp only [] at next
      cases outcome : code b with
      | ok value u =>
          rw [outcome] at next
          cases next
          have done := wp_ok rule outcome
          exact done
      | error failure u =>
          have stopped := wp_error rule outcome
          rw [outcome] at next
          cases failure with
          | page =>
              cases next
              have done := stopped rfl
              refine ⟨done.places, done.elected.imp_right fun elected => ?_⟩
              exact ⟨elected.before, elected.listed⟩
          | panic | assertion | useAfterFree | lostContext | noActivable
          | nullHead | endlessLoop => cases next

end Entries

end Nebulea
