import Nebulea.ExceptStateWp
import Nebulea.KernelSound

/-!
# Weakest preconditions of the kernel's building blocks

Each rule gives the state a block of `queue.h` or a field assignment leads to,
in the terms of the moves: unchaining, assigning and chaining a record compose
to one `relink`.
-/

namespace Nebulea

open ExceptState StampedPriority

namespace KState

variable {s : KState} {r : ProcRef} {p n : Process} {h g : Option Head}

theorem relink_none_none (unlinked : p.link = none) :
    s.relink r p none none = s.setProc r p := by
  cases p
  subst unlinked
  rfl

theorem remove_eq (h : Head) : s.remove r p h = s.relink r p (some h) none := by
  simp [remove, relink, relinkLists]

theorem setProc_eq_self (record : s.procs r = some p) :
    s.setProc r p = s := by
  simp only [setProc, ← record, Function.update_eq_self]

theorem insert_eq (record : s.procs r = some p) (h : Head) :
    s.insert r p h = s.relink r p none (some h) := by
  simp [insert, relink, relinkLists, setProc_eq_self record]

@[simp]
theorem setProc_setProc : (s.setProc r p).setProc r n = s.setProc r n := by
  simp [setProc]

/-- Chaining a record after it was unchained. -/
theorem relinkLists_relinkLists {t : KState}
    (samePrio : (t.setProc r n).prio = (s.setProc r n).prio)
    (unchained : t.lists = s.relinkLists r p h none) :
    t.relinkLists r n none g = s.relinkLists r n h g := by
  cases g with
  | none => exact unchained
  | some g =>
      simp only [relinkLists]
      rw [samePrio, unchained]
      rfl

@[simp]
theorem setProc_relink :
    (s.setProc r p).relink r n none g = s.relink r n none g := by
  have lists : (s.setProc r p).relinkLists r n none g =
      s.relinkLists r n none g := by
    refine relinkLists_relinkLists (p := p) ?_ rfl
    rw [setProc_setProc]
  simp only [relink, setProc, Function.update_idem] at lists ⊢
  rw [lists]

/-- Only the list it goes to decides the link of a record. -/
theorem relink_link (link : Option Head) :
    s.relink r { p with link := link } h g = s.relink r p h g := by
  have lists : s.relinkLists r { p with link := link } h g =
      s.relinkLists r p h g := by
    cases g with
    | none => rfl
    | some g =>
        have samePrio : (s.setProc r { p with link := link }).prio =
            (s.setProc r p).prio := by
          funext x
          by_cases same : x = r <;> simp [prio, same]
        simp only [relinkLists]
        rw [samePrio]
  simp only [relink]
  rw [lists]

theorem relink_setProc (unlinked : n.link = none) :
    (s.relink r p h none).setProc r n = s.relink r n h none := by
  cases n
  subst unlinked
  simp [relink, setProc, relinkLists]

@[simp]
theorem relink_relink :
    (s.relink r p h none).relink r n none g = s.relink r n h g := by
  have lists : (s.relink r p h none).relinkLists r n none g =
      s.relinkLists r n h g := by
    refine relinkLists_relinkLists (p := p) ?_ rfl
    funext x
    by_cases same : x = r <;> simp [prio, same]
  simp only [relink, Function.update_idem, if_true] at lists ⊢
  rw [lists]

end KState

section Rules

variable {s : KState} {fault : Fault → KState → Prop}
variable {r : ProcRef} {p : Process}

theorem wp_derefProc {post : Process → KState → Prop}
    (record : s.procs r = some p) :
    wp (derefProc r) post fault s = post p s := by
  rw [derefProc, wp_bind, wp_get, record, wp_pure]

/-- `p->…` either finds the record or ends the run. -/
theorem wp_derefProc_of {post : Process → KState → Prop}
    (freed : fault .useAfterFree s)
    (found : ∀ p, s.procs r = some p → post p s) :
    wp (derefProc r) post fault s := by
  rw [derefProc, wp_bind, wp_get]
  cases record : s.procs r with
  | none => exact freed
  | some p => exact found p record

theorem wp_derefQueue {post : MessageQueue → KState → Prop} {q : QueueRef}
    {content : MessageQueue} (record : s.queues q = some content) :
    wp (derefQueue q) post fault s = post content s := by
  rw [derefQueue, wp_bind, wp_get, record, wp_pure]

theorem wp_derefQueue_of {post : MessageQueue → KState → Prop}
    {q : QueueRef} (freed : fault .useAfterFree s)
    (found : ∀ content, s.queues q = some content → post content s) :
    wp (derefQueue q) post fault s := by
  rw [derefQueue, wp_bind, wp_get]
  cases record : s.queues q with
  | none => exact freed
  | some content => exact found content record

theorem wp_derefSem {post : Semaphore → KState → Prop} {x : SemRef}
    {content : Semaphore} (record : s.sems x = some content) :
    wp (derefSem x) post fault s = post content s := by
  rw [derefSem, wp_bind, wp_get, record, wp_pure]

theorem wp_entry {post : ProcRef → KState → Prop} {pid : Int}
    (listed : s.processTable pid = some r) :
    wp (entry pid) post fault s = post r s := by
  rw [entry, wp_bind, wp_get, listed, wp_pure]

variable {post : Unit → KState → Prop}

theorem wp_modifyProc (change : Process → Process)
    (record : s.procs r = some p) :
    wp (modifyProc r change) post fault s = post () (s.setProc r (change p)) := by
  rw [modifyProc, wp_bind, wp_derefProc record, wp_modify]

/-- An assignment that changes nothing. -/
theorem wp_modifyProc_same (change : Process → Process)
    (record : s.procs r = some p) (same : change p = p) :
    wp (modifyProc r change) post fault s = post () s := by
  rw [wp_modifyProc change record, same, KState.setProc_eq_self record]

theorem wp_modifyQueue {q : QueueRef} {content : MessageQueue}
    (change : MessageQueue → MessageQueue)
    (record : s.queues q = some content) :
    wp (modifyQueue q change) post fault s =
      post () (s.setQueue q (change content)) := by
  rw [modifyQueue, wp_bind, wp_derefQueue record, wp_modify]

theorem wp_modifySem {x : SemRef} {content : Semaphore}
    (change : Semaphore → Semaphore) (record : s.sems x = some content) :
    wp (modifySem x change) post fault s =
      post () (s.setSem x (change content)) := by
  rw [modifySem, wp_bind, wp_derefSem record, wp_modify]

@[simp]
theorem wp_emit (e : Event) :
    wp (emit e) post fault s = post () (s.note e) := by
  rw [emit, wp_modify]

@[simp]
theorem wp_ret (value : Int) :
    wp (ret value) post fault s =
      post () { s with mode := .user, eax := value } := by
  rw [ret, wp_modify]

theorem wp_storeUser (pointer : UserPtr) (value : Int) :
    wp (storeUser pointer value) post fault s =
      if pointer.faults then fault .page s
      else post () (s.note (.store pointer.addr value)) := by
  rw [storeUser, wp_ite, wp_throw, wp_emit]

theorem wp_queueAdd (record : s.procs r = some p) (unlinked : p.link = none)
    (h : Head) :
    wp (queueAdd r h) post fault s =
      post () (s.relink r p none (some h)) := by
  rw [queueAdd, wp_bind, wp_derefProc record, wp_ite, if_pos unlinked,
    wp_modify, KState.insert_eq record]

theorem wp_queueDel {h : Head} (record : s.procs r = some p)
    (link : p.link = some h) :
    wp (queueDel r) post fault s = post () (s.relink r p (some h) none) := by
  rw [queueDel, wp_bind, wp_derefProc record]
  simp only [link]
  rw [wp_modify, KState.remove_eq]

theorem wp_queueOut {post : Option ProcRef → KState → Prop} {h : Head}
    (distinct : (s.lists h).Nodup) (next : s.NextOut h r p) :
    wp (queueOut h) post fault s =
      post (some r) (s.relink r p (some h) none) := by
  have last : (s.lists h).dropLast = (s.lists h).erase r :=
    dropLast_eq_erase distinct next.1
  rw [queueOut, wp_bind, wp_get, next.1]
  simp only [wp_bind, wp_derefProc next.2, wp_modify, wp_pure]
  rw [← KState.remove_eq, KState.remove, ← last]

theorem wp_queueOut_nil {post : Option ProcRef → KState → Prop} {h : Head}
    (empty : s.lists h = []) :
    wp (queueOut h) post fault s = post none s := by
  rw [queueOut, wp_bind, wp_get, empty]
  rfl

/-- Loop rule for `while (!queue_empty(h)) …`. -/
theorem wp_drain {h : Head} {body : ProcRef → KM Unit}
    {post : Unit → KState → Prop} (loop : KState → Prop)
    (listed : ∀ t, loop t → (t.lists h).Nodup ∧
      ∀ r ∈ t.lists h, ∃ p, t.procs r = some p)
    (turn : ∀ t r p, loop t → t.NextOut h r p →
      wp (body r) (fun _ u => loop u ∧ u.lists h = (t.lists h).erase r) fault
        (t.relink r p (some h) none))
    (done : ∀ t, loop t → t.lists h = [] → post () t) (start : loop s) :
    wp (drain h body (s.lists h).length) post fault s := by
  generalize size : (s.lists h).length = fuel
  induction fuel generalizing s with
  | zero => exact done s start (List.length_eq_zero_iff.mp size)
  | succ fuel ih =>
      obtain ⟨distinct, records⟩ := listed s start
      obtain ⟨r, last⟩ : ∃ r, (s.lists h).getLast? = some r := by
        cases isLast : (s.lists h).getLast? with
        | some r => exact ⟨r, rfl⟩
        | none =>
            rw [List.getLast?_eq_none_iff.mp isLast] at size
            simp at size
      have member := List.mem_of_getLast? last
      obtain ⟨p, record⟩ := records r member
      have next : s.NextOut h r p := ⟨last, record⟩
      rw [drain, wp_bind, wp_queueOut distinct next]
      simp only [wp_bind]
      refine wp_mono (turn s r p start next) ?_ (fun _ _ faulted => faulted)
      rintro _ u ⟨kept, rest⟩
      refine ih kept ?_
      rw [rest, List.length_erase_of_mem member, size]
      rfl

/-- `p->state = ACTIVABLE; queue_add(p, &activable_list, …)`. -/
theorem wp_activate (record : s.procs r = some p)
    (unlinked : p.link = none) :
    wp (activate r) post fault s = post () (s.wake r p none) := by
  have updated : (s.setProc r { p with state := .activable }).procs r =
      some { p with state := .activable } := by
    simp
  rw [activate, wp_bind, wp_modifyProc _ record, wp_queueAdd updated unlinked,
    KState.setProc_relink]
  rfl

/-- `virtual_ctx_sw` saves, and restores unless the registers are gone. -/
theorem wp_virtualCtxSw {k : Context} {old new : ProcRef}
    {current content : Process} (onCpu : s.procs s.running = some current)
    (wasOld : s.procs old = some content) (record : s.procs new = some p)
    (lost : (if new = old then some k else p.registers) = none →
      fault .lostContext (s.save k old))
    (switched : ∀ restored,
      (if new = old then some k else p.registers) = some restored →
        post () ((s.save k old).load new restored)) :
    wp (virtualCtxSw k old new) post fault s := by
  have saved : ∀ c, (s.setProc s.running
        { current with stack := k }).procs old = some c →
      (s.setProc s.running { current with stack := k }).setProc old
        { c with registers := some k } = s.save k old := by
    intro c isC
    have procs : Function.update (Function.update s.procs s.running
          (some { current with stack := k })) old
            (some { c with registers := some k }) = (s.save k old).procs := by
      funext x
      by_cases isOld : x = old
      · subst isOld
        by_cases isRunning : x = s.running
        · subst isRunning
          rw [onCpu, Option.some.injEq] at wasOld
          subst wasOld
          have same : { current with stack := k } = c := by simpa using isC
          simp [← same, onCpu]
        · have same : content = c := by simpa [isRunning, wasOld] using isC
          simp [isRunning, ← same, wasOld]
      · by_cases isRunning : x = s.running
        · subst isRunning
          simp [isOld, onCpu]
        · cases found : s.procs x <;> simp [isOld, isRunning, found]
    simp only [KState.setProc, procs]
    rfl
  have oldExists : ∃ c, (s.setProc s.running
      { current with stack := k }).procs old = some c := by
    by_cases isRunning : old = s.running
    · exact ⟨_, by rw [isRunning]; exact Function.update_self ..⟩
    · exact ⟨content, by simp [isRunning, wasOld]⟩
  obtain ⟨c, isC⟩ := oldExists
  have atNew : (s.save k old).procs new = some { p with
      stack := if new = s.running then k else p.stack
      registers := if new = old then some k else p.registers } := by
    simp [record]
  rw [virtualCtxSw, wp_bind, wp_get, wp_bind, wp_modifyProc _ onCpu, wp_bind,
    wp_modifyProc _ isC, saved c isC, wp_bind, wp_derefProc atNew]
  cases registers : (if new = old then some k else p.registers) with
  | none => exact lost registers
  | some restored =>
      simp only [wp_bind, wp_modifyProc _ atNew, wp_modify]
      have loaded : Function.update (s.save k old).procs new (some { p with
          stack := if new = s.running then k else p.stack
          registers := none }) = ((s.save k old).load new restored).procs := by
        funext x
        by_cases isNew : x = new
        · subst isNew
          simp [record]
        · cases found : s.procs x <;> simp [isNew, found]
      simp only [KState.setProc, loaded]
      exact switched restored registers

end Rules

end Nebulea
