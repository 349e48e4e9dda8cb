import Nebulea.KernelRuns

/-!
# Lists, states and tables in every run

The consistency of the kernel's data structures, as it holds in every state of
every run: each process is in the list its state says and in no other, one
process is elected, and `__get_queue` finds the list of a process.
-/

namespace Nebulea

namespace KState

/-- The list a process belongs to, according to its state. -/
def Place (s : KState) (p : Process) (place : Option Head) : Prop :=
  match p.state with
  | .elected | .asleep | .zombie => place = none
  | .activable => place = some .activable
  | .waitingPid => place = some .waitingPid
  | .finished => place = some .finished
  | .inMsgqueue =>
      ∃ fid q content, s.queueTable fid = some q ∧
        s.queues q = some content ∧ place = some (.queue q)
  | .inSem =>
      ∃ x content, s.semaphoreTable p.waitedSem = some x ∧
        s.sems x = some content ∧ place = some (.sem x)

/-- The data structures of the kernel agree with each other. -/
structure Consistent (s : KState) : Prop where
  /-- `process_table[i]` is null or has pid `i`. -/
  table : ∀ i r, s.processTable i = some r →
    ∃ p, s.procs r = some p ∧ p.pid = i
  /-- One process is elected, and it is the one of the current pid. -/
  elected : ∃ r p, s.processTable s.currentPid = some r ∧
    s.procs r = some p ∧ p.state = .elected ∧
      ∀ r' p', s.procs r' = some p' → p'.state = .elected → r' = r
  /-- A process is in the list its state says, which its link names, once, and
  in no other list. -/
  placed : ∀ r p, s.procs r = some p → s.Place p p.link ∧
    ∀ h, (s.lists h).count r = if p.link = some h then 1 else 0
  /-- `__get_queue` returns the list that contains a process of the table. -/
  found : ∀ i r p h, s.HasPid i r p → r ∈ s.lists h → getQueue s p = some h

end KState

theorem Settled.consistent {s : KState} (settled : Settled s) :
    s.Consistent := by
  have ok := settled.sound.coherent
  constructor
  · intro i r listed
    obtain ⟨-, -, p, record, isPid, -⟩ := ok.procs.table i r listed
    exact ⟨p, record, isPid⟩
  · obtain ⟨p, onCpu⟩ := settled.onCpu
    exact ⟨s.running, p, (settled.sound.hasPid_current onCpu).1, onCpu.1,
      onCpu.2, settled.sound.cpu.elected⟩
  · intro r p record
    have linked := ok.procs.linked r p record
    constructor
    · unfold KState.LinkOk at linked
      unfold KState.Place
      cases state : p.state with
      | inMsgqueue =>
          rw [state] at linked
          obtain ⟨fid, q, entry, link⟩ := linked
          obtain ⟨-, -, content, isQueue, -⟩ := ok.heap.queueTable fid q entry
          exact ⟨fid, q, content, entry, isQueue, link⟩
      | inSem =>
          rw [state] at linked
          obtain ⟨x, entry, link⟩ := linked
          obtain ⟨-, -, content, isSem, -⟩ := ok.heap.semTable _ x entry
          exact ⟨x, content, entry, isSem, link⟩
      | elected | activable | asleep | zombie | finished | waitingPid =>
          rw [state] at linked
          exact linked
    · intro h
      split
      · rename_i link
        exact List.count_eq_one_of_mem (ok.lists.nodup h)
          (ok.lists.mem_of_link record link)
      · rename_i notLink
        refine List.count_eq_zero_of_not_mem ?_
        intro member
        exact notLink (ok.lists.link_of_mem record member)
  · intro i r p h has member
    exact ok.getQueue_eq has.2 (ok.active_of_hasPid has).2
      (ok.lists.link_of_mem has.2 member)

/-- Every reachable state is consistent, and the assertion of `chprio` does not
fail in it. -/
theorem reachable_consistent {s : KState} (reached : Reachable s) :
    s.Consistent ∧
      ∀ a t, step a s ≠ .stopped (.assertion "queue != NULL") t := by
  have settled := reached.settled
  obtain ⟨p, onCpu⟩ := settled.onCpu
  refine ⟨settled.consistent, ?_⟩
  intro a t stopped
  exact step_stopped settled.sound onCpu stopped rfl

/-- The state left by `kernel_start` is one of them. -/
theorem bootState_consistent :
    Reachable (bootState ["idle", "autotest"]) ∧
      (bootState ["idle", "autotest"]).Consistent := by
  have reached : Reachable (bootState ["idle", "autotest"]) :=
    ⟨_, _, booted_bootState (by decide) (by decide), .refl⟩
  exact ⟨reached, (reachable_consistent reached).1⟩

end Nebulea
