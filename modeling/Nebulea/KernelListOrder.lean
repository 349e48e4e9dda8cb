import Nebulea.SemaphoreRuns

/-!
# Order of service

`queue_add` sorts by the priority a process has when it is inserted, and
`chprio` takes a process out of its list to change that priority.  So every
list stays sorted in every state that kernel code goes through, and `queue_out`
serves the highest priority first and equal priorities in the order of their
insertion.
-/

namespace Nebulea

open ExceptState StampedPriority

/-- The states that the kernel code of one step goes through: those between
its moves, those that differ from them in counters and buffers only, and those
inside the loop that wakes up all the processes of a semaphore. -/
inductive Passes (s : KState) (a : Action) : KState → Prop
  | move {u : KState} (path : Moves (Move.By s a) s u) : Passes s a u
  | data {u v : KState} (front : Passes s a u) (procs : v.procs = u.procs)
      (lists : v.lists = u.lists) (stamp : v.stamp = u.stamp) : Passes s a v
  | turn {u : KState} {x : SemRef} {r : ProcRef} {p : Process}
      (front : Passes s a u) (next : u.NextOut (.sem x) r p) :
      Passes s a (u.wake r p (some (.sem x)))

theorem Passes.listsOk {s u : KState} {a : Action} (settled : Settled s)
    (passes : Passes s a u) : ListsOk u := by
  induction passes with
  | move path => exact (settled.sound.moves path).coherent.lists
  | data _ procs lists stamp ih => exact ih.congr procs lists stamp
  | turn _ next ih =>
      rename_i u x r p _
      have member := List.mem_of_getLast? next.1
      have link : p.link = some (.sem x) := ih.link_of_mem next.2 member
      have relinked := ih.relink (n := { p with state := .activable }) next.2
        (some .activable)
      exact link ▸ relinked

namespace KState

/-- The list is sorted by the current priorities of the processes it holds. -/
def Sorted (s : KState) (h : Head) : Prop :=
  (s.lists h).Pairwise fun first second => s.prio first ≤ s.prio second

/-- `r` is the process of `h` that has to be served first: no process of the
list has a higher priority, and those of the same priority were inserted after
it. -/
def ServedFirst (s : KState) (h : Head) (r : ProcRef) : Prop :=
  r ∈ s.lists h ∧ ∀ x ∈ s.lists h, x ≠ r →
    s.prio x < s.prio r ∨ s.prio x = s.prio r ∧ s.stampOf r < s.stampOf x

end KState

section Lists

variable {s t : KState}

theorem ListsOk.sorted (ok : ListsOk s) (h : Head) : s.Sorted h := by
  refine (ok.ordered h).imp ?_
  rintro first second (lower | ⟨same, -⟩)
  · exact lower.le
  · exact same.le

/-- The last element of a list is served first. -/
theorem ListsOk.first_of_last (ok : ListsOk s) {h : Head} {r : ProcRef}
    (last : (s.lists h).getLast? = some r) : s.ServedFirst h r := by
  refine ⟨List.mem_of_getLast? last, ?_⟩
  intro other member distinct
  exact ((ok.ordered h).before_last last member).resolve_left distinct

/-- What `queue_out` takes out. -/
theorem ListsOk.servedFirst (ok : ListsOk s) {h : Head} {r : ProcRef}
    (out : queueOut h s = .ok (some r) t) : s.ServedFirst h r := by
  have rule : wp (queueOut h)
      (fun result _ => ∀ x, result = some x → s.ServedFirst h x)
      (fun _ _ => True) s := by
    cases last : (s.lists h).getLast? with
    | none =>
        rw [wp_queueOut_nil (List.getLast?_eq_none_iff.mp last)]
        intro x isSome
        cases isSome
    | some x =>
        have member := List.mem_of_getLast? last
        obtain ⟨p, record, -⟩ := (ok.mem x h).mp member
        rw [wp_queueOut (ok.nodup h) ⟨last, record⟩]
        intro y isSome
        cases isSome
        exact ok.first_of_last last
  exact wp_ok rule out r rfl

/-- `queue_add` numbers its element after all those of the list. -/
theorem ListsOk.inserted_last (ok : ListsOk s) {h : Head} {r : ProcRef}
    (added : queueAdd r h s = .ok () t) :
    r ∈ t.lists h ∧ ∀ x ∈ t.lists h, x ≠ r →
      t.stampOf x = s.stampOf x ∧ t.stampOf x < t.stampOf r := by
  have rule : wp (queueAdd r h)
      (fun _ u => ∃ p, s.procs r = some p ∧ p.link = none ∧
        u = s.relink r p none (some h)) (fun _ _ => True) s := by
    rw [queueAdd, wp_bind]
    refine wp_derefProc_of trivial ?_
    intro p record
    rw [wp_ite]
    split
    · rename_i unlinked
      rw [wp_modify, KState.insert_eq record]
      exact ⟨p, record, unlinked, rfl⟩
    · trivial
  obtain ⟨p, record, unlinked, rfl⟩ := wp_ok rule added
  have after := ok.relink (n := p) record (some h)
  rw [unlinked] at after
  constructor
  · exact (after.mem r h).mpr ⟨_, Function.update_self .., rfl⟩
  · intro x member distinct
    obtain ⟨content, found, link⟩ := (after.mem x h).mp member
    have record' : s.procs x = some content := by
      simpa [distinct] using found
    have older := ok.stamped x content record' (by simp [link])
    rw [KState.stampOf_eq found, KState.stampOf_eq record']
    exact ⟨rfl, by simpa [KState.stampOf] using older⟩

end Lists

/-- In every state that a step of any run goes through, every list is sorted,
`queue_out` takes out a process of highest priority, the one inserted first
among equals, and `queue_add` makes its element the last one inserted. -/
theorem lists_serve_in_order {s u : KState} {a : Action}
    (reached : Reachable s) (passes : Passes s a u) (h : Head) :
    u.Sorted h ∧
      (∀ r t, queueOut h u = .ok (some r) t → u.ServedFirst h r) ∧
      ∀ r t, queueAdd r h u = .ok () t → r ∈ t.lists h ∧
        ∀ x ∈ t.lists h, x ≠ r →
          t.stampOf x = u.stampOf x ∧ t.stampOf x < t.stampOf r := by
  have ok := passes.listsOk reached.settled
  exact ⟨ok.sorted h, fun _ _ out => ok.servedFirst out,
    fun _ _ added => ok.inserted_last added⟩

/-- Two processes of one priority wait for a semaphore after a third. -/
def threeWaiters : List Action :=
  firstTicks ++ [.call (.screate 0), .call (.start "a" 4096 50),
    .call (.start "b" 4096 50), .call (.start "c" 4096 40),
    .call (.waitClock 1000), .resume, .call (.wait 0), .resume,
    .call (.wait 0), .resume, .call (.wait 0), .resume]

/-- `a` and `b` are blocked in this order above `c`, and `queue_out` does not
take out the younger or the lower one. -/
theorem three_waiters_in_order :
    ∃ s, Reachable s ∧ s.lists (.sem 2) = [5, 4, 3] ∧
      s.prio 5 = 40 ∧ s.prio 4 = 50 ∧ s.prio 3 = 50 ∧ s.Sorted (.sem 2) ∧
      ∀ r t, queueOut (.sem 2) s = .ok (some r) t → s.ServedFirst (.sem 2) r := by
  obtain ⟨s, -, reached, checked⟩ := exists_of_runActions
    ["idle", "autotest", "a", "b", "c"] threeWaiters
    (fun s => s.lists (.sem 2) == [5, 4, 3] && s.prio 5 == 40 &&
      s.prio 4 == 50 && s.prio 3 == 50)
    (by decide) (by decide) (by decide +kernel)
  simp only [Bool.and_eq_true, beq_iff_eq] at checked
  obtain ⟨⟨⟨list, low⟩, second⟩, first⟩ := checked
  have ordered := lists_serve_in_order (a := .tick) reached (.move (.refl s))
    (.sem 2)
  exact ⟨s, reached, list, low, second, first, ordered.1, ordered.2.1⟩

end Nebulea
