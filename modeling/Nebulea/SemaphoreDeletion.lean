import Nebulea.SemaphoreRuns

/-!
# Deleting a semaphore

`sdelete` empties the waiting list and clears the entry of the table, and then
counts the waiting processes through the entry it has just cleared.  The access
through the null pointer faults, so the call never returns: its caller ends,
the record is neither marked nor freed, and the processes that were blocked
return from `wait` as if they had been given a unit.
-/

namespace Nebulea

open ExceptState

section Deletion

variable {s t u : KState} {x : SemRef}

/-- Records of semaphores are never released. -/
theorem Move.sems_effect {m : Move} (kept : s.sems x ≠ none) :
    (m.effect s).sems x ≠ none := by
  have updated (y : SemRef) (content : Semaphore) :
      Function.update s.sems y (some content) x ≠ none := by
    by_cases same : x = y
    · subst same
      simp
    · rwa [Function.update_of_ne same]
  have given (p : Process) : (s.giveBack p).sems x ≠ none := by
    unfold KState.giveBack
    split
    · split
      · split
        · exact updated _ _
        · exact kept
      · exact kept
    · exact kept
  cases m with
  | endProcess pid r p how father =>
      cases father with
      | none => exact given p
      | some pair => exact given p
  | endFatherless pid r p how => exact given p
  | awaitSem p sem y content => exact updated y _
  | newSem sem count => exact updated s.nextRef _
  | acquire y content => exact updated y _
  | post y content => exact updated y _
  | postWake y content r p clear => exact updated y _
  | clearReset y content => exact updated y _
  | resetSem y content count =>
      simp only [Move.effect, KState.note_sems, KState.setSem_sems,
        KState.release_sems]
      exact updated y _
  | deleteSem sem y =>
      simpa [Move.effect] using kept
  | _ => exact kept

/-- No run frees a semaphore or marks it as deleted. -/
theorem Run.sem_kept {meets : KState → Action → Prop} (run : Run meets s t)
    (settled : Settled s) (kept : s.sems x ≠ none) :
    ∃ content, t.sems x = some content ∧ content.wasDeleted = false := by
  have still : t.sems x ≠ none := by
    refine run.keeps settled (I := fun u => u.sems x ≠ none) ?_ kept
    exact fun _ _ _ _ _ _ _ _ _ _ before => Move.sems_effect before
  obtain ⟨content, record⟩ := Option.ne_none_iff_exists'.mp still
  exact ⟨content, record,
    ((run.settled settled).sound.coherent.heap.shorts x content record).2.2⟩

/-- The processes of a semaphore are activable once they have been released. -/
theorem mem_activable_of_release (ok : Coherent s) {r : ProcRef}
    (member : r ∈ s.lists (.sem x)) :
    r ∈ (s.release x (s.lists (.sem x)).reverse).lists .activable := by
  have somewhere : r ∈ (s.release x (s.lists (.sem x)).reverse).lists
        (.sem x) ∨
      r ∈ (s.release x (s.lists (.sem x)).reverse).lists .activable := by
    refine KState.releaseAll_keeps (I := fun v => r ∈ v.lists (.sem x) ∨
      r ∈ v.lists .activable) ok ?_ (.inl member)
    intro v w p waits _ _
    by_cases isWoken : r = w
    · subst isWoken
      right
      simp [KState.relinkLists]
    · rcases waits with blocked | woken
      · left
        simpa [KState.relinkLists] using
          (List.mem_erase_of_ne isWoken).mpr blocked
      · right
        simp [KState.relinkLists, woken]
  rw [KState.releaseAll_lists_sem ok] at somewhere
  exact somewhere.resolve_left (List.not_mem_nil)

/-- `sdelete` on an existing semaphore ends in a page fault. -/
theorem step_sdelete (settled : Settled s) (user : s.mode = .user)
    {sem : Int} (designates : semOf s sem = some x) :
    step (.call (.sdelete sem)) s =
      .next { (Move.deleteSem sem x).effect s with mode := .pageFault } := by
  have ok := settled.sound.coherent
  have rule : wp (syscall (.sdelete sem)) (fun _ _ => False)
      (fun failure v => failure = .page ∧
        v = (Move.deleteSem sem x).effect s) s := by
    rw [syscall, sdelete, wp_bind, wp_get, designates]
    simp only [wp_bind]
    refine wp_releaseAll ok ?_
    rw [wp_bind, wp_modify, wp_bind, nbWaitingProc2, wp_bind, wp_get]
    simp only [Function.update_self, wp_throw]
    exact ⟨trivial, rfl⟩
  unfold step
  rw [user]
  simp only [kernelEntry]
  unfold wp at rule
  cases outcome : syscall (.sdelete sem) s with
  | ok value v =>
      rw [outcome] at rule
      exact absurd rule id
  | error failure v =>
      rw [outcome] at rule
      obtain ⟨rfl, rfl⟩ := rule
      rfl

/-- A process that goes on after having been blocked on a semaphore never
learns that it was deleted. -/
theorem step_resume_wait (settled : Settled u) {v : KState}
    (mode : u.mode = .kernel (.wait x)) (next : step .resume u = .next v) :
    v.mode = .user ∧ (v.eax = 0 ∨ v.eax = -4) := by
  refine post_of_resume (fun _ v =>
    v.mode = .user ∧ (v.eax = 0 ∨ v.eax = -4)) mode next ?_
  rw [resume, waitTail, wp_bind, derefSem, wp_bind, wp_get]
  cases record : u.sems x with
  | none => simp
  | some content =>
      have notDeleted :=
        (settled.sound.coherent.heap.shorts x content record).2.2
      simp only [wp_pure, notDeleted, Bool.false_eq_true, if_false, wp_ite,
        wp_ret]
      split
      · exact ⟨trivial, .inr trivial⟩
      · exact ⟨trivial, .inl trivial⟩

/-- Whatever the state and the waiters are, `sdelete` on an existing semaphore
faults on the cleared entry instead of returning 0; its waiters become
activable, but none of them ever returns -3, and the record stays allocated and
unmarked in every run that follows. -/
theorem sdelete_faults {sem : Int} (reached : Reachable s)
    (user : s.mode = .user) (designates : semOf s sem = some x) :
    ∃ t, step (.call (.sdelete sem)) s = .next t ∧ t.mode = .pageFault ∧
      t.semaphoreTable sem = none ∧
      (∀ r ∈ s.lists (.sem x), r ∈ t.lists .activable) ∧
      ∀ u, Run (fun _ _ => True) t u →
        (∃ content, u.sems x = some content ∧ content.wasDeleted = false) ∧
        ∀ v, u.mode = .kernel (.wait x) → step .resume u = .next v →
          v.mode = .user ∧ (v.eax = 0 ∨ v.eax = -4) := by
  have settled := reached.settled
  have ok := settled.sound.coherent
  have next := step_sdelete settled user designates
  obtain ⟨-, -, -, content, -, record⟩ := exists_of_semOf ok designates
  have kept : s.sems x ≠ none := by simp [record]
  refine ⟨_, next, rfl, ?_, ?_, ?_⟩
  · simp [Move.effect]
  · intro r member
    exact mem_activable_of_release ok member
  · intro u run
    have settledU := run.settled (settled.after next)
    refine ⟨run.sem_kept (settled.after next) ?_, ?_⟩
    · exact Move.sems_effect (m := .deleteSem sem x) kept
    · intro v mode resumed
      exact step_resume_wait settledU mode resumed

/-- `a` waits for a semaphore of the first process. -/
def deletionRun : List Action :=
  firstTicks ++ [.call (.screate 0), .call (.start "a" 4096 200), .resume,
    .call (.wait 0), .resume]

/-- The deletion of a semaphore with one waiter. -/
theorem sdelete_with_waiter :
    ∃ s t, Reachable s ∧ s.lists (.sem 2) = [3] ∧
      step (.call (.sdelete 0)) s = .next t ∧ t.mode = .pageFault ∧
      3 ∈ t.lists .activable ∧ ∀ u, Run (fun _ _ => True) t u →
        ∃ content, u.sems 2 = some content := by
  obtain ⟨s, -, reached, checked⟩ := exists_of_runActions
    ["idle", "autotest", "a"] deletionRun
    (fun s => s.mode == .user && semOf s 0 == some 2 &&
      s.lists (.sem 2) == [3])
    (by decide) (by decide) (by decide +kernel)
  simp only [Bool.and_eq_true, beq_iff_eq] at checked
  obtain ⟨⟨user, designates⟩, waiting⟩ := checked
  obtain ⟨t, next, faults, -, woken, later⟩ :=
    sdelete_faults reached user designates
  refine ⟨s, t, reached, waiting, next, faults, woken 3 (by simp [waiting]), ?_⟩
  intro u run
  obtain ⟨⟨content, record, -⟩, -⟩ := later u run
  exact ⟨content, record⟩

/-- The caller of `sdelete` ends without having got a result, and the waiter
returns 0 instead of -3. -/
theorem sdelete_kills_caller :
    ∃ s t u, Reachable s ∧ s.mode = .user ∧ s.running = 1 ∧
      semOf s 0 = some 2 ∧ s.lists (.sem 2) = [3] ∧
      step (.call (.sdelete 0)) s = .next t ∧
      runActions [.resume, .resume] t = some u ∧
      (u.procs 1).map Process.state = some .finished ∧ u.running = 3 ∧
      u.mode = .user ∧ u.eax = 0 ∧ u.sems 2 ≠ none := by
  obtain ⟨u, performed, -, checked⟩ := exists_of_runActions
    ["idle", "autotest", "a"]
    ((deletionRun ++ [.call (.sdelete 0)]) ++ [.resume, .resume])
    (fun u => (u.procs 1).map Process.state == some .finished &&
      u.running == 3 && u.mode == .user && u.eax == 0 && (u.sems 2).isSome)
    (by decide) (by decide) (by decide +kernel)
  simp only [Bool.and_eq_true, beq_iff_eq] at checked
  obtain ⟨⟨⟨⟨ended, running⟩, user⟩, result⟩, kept⟩ := checked
  rw [runActions_append, Option.bind_eq_some_iff] at performed
  obtain ⟨t, toT, resumes⟩ := performed
  rw [runActions_append, Option.bind_eq_some_iff] at toT
  obtain ⟨s, toS, deletes⟩ := toT
  have before := check_of_runActions toS
    (fun s => s.mode == .user && s.running == 1 && semOf s 0 == some 2 &&
      s.lists (.sem 2) == [3]) (by decide +kernel)
  simp only [Bool.and_eq_true, beq_iff_eq] at before
  obtain ⟨⟨⟨inUser, caller⟩, designates⟩, waiting⟩ := before
  exact ⟨s, t, u, reachable_of_runActions (by decide) (by decide) toS, inUser,
    caller, designates, waiting, step_of_runActions deletes, resumes, ended,
    running, user, result, Option.isSome_iff_ne_none.mp kept⟩

end Deletion

end Nebulea
