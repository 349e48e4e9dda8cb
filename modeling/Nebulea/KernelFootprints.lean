import Nebulea.ExceptStateWp
import Nebulea.KernelStep

/-!
# What kernel code leaves alone

Many facts about a kernel state are decided neither by records nor by the lists
processes are chained in.  The code of `queue.h` and most of the scheduler
keeps every such fact.  In particular it does not change the kernel
stack the processor is on, so the context that a call leaves there when it
blocks is the one the call passes to `__scheduler`.
-/

namespace Nebulea

open ExceptState

/-- A fact that records, lists, stamps and further events do not decide. -/
def OffRecord (fact : KState → Prop) : Prop :=
  ∀ s procs lists queues stamp since, fact s →
    fact { s with
      procs := procs
      lists := lists
      queues := queues
      stamp := stamp
      trace := since ++ s.trace }

/-- A fact that the processor does not decide. -/
def OffProcessor (fact : KState → Prop) : Prop :=
  ∀ s pid running mode eax, fact s →
    fact { s with
      currentPid := pid
      running := running
      mode := mode
      eax := eax }

section Footprints

variable {fact : KState → Prop}

theorem keeps_derefProc (r : ProcRef) : Keeps fact (derefProc r) := by
  apply Keeps.bind Keeps.get
  intro s
  cases s.procs r with
  | none => exact Keeps.throw _
  | some p => exact Keeps.pure _

theorem keeps_derefQueue (q : QueueRef) : Keeps fact (derefQueue q) := by
  apply Keeps.bind Keeps.get
  intro s
  cases s.queues q with
  | none => exact Keeps.throw _
  | some content => exact Keeps.pure _

theorem keeps_entry (pid : Int) : Keeps fact (entry pid) := by
  apply Keeps.bind Keeps.get
  intro s
  cases s.processTable pid with
  | none => exact Keeps.throw _
  | some r => exact Keeps.pure _

theorem keeps_oldProcess : Keeps fact oldProcess := by
  apply Keeps.bind Keeps.get
  intro s
  cases (s.lists .finished).getLast? with
  | none => exact keeps_entry _
  | some r => exact Keeps.pure _

theorem keeps_modifyProc (off : OffRecord fact) (r : ProcRef)
    (change : Process → Process) : Keeps fact (modifyProc r change) := by
  apply Keeps.bind (keeps_derefProc r)
  intro p
  exact Keeps.modify fun s holds => off s _ s.lists s.queues s.stamp [] holds

theorem keeps_modifyQueue (off : OffRecord fact) (q : QueueRef)
    (change : MessageQueue → MessageQueue) :
    Keeps fact (modifyQueue q change) := by
  apply Keeps.bind (keeps_derefQueue q)
  intro content
  exact Keeps.modify fun s holds =>
    off s s.procs s.lists _ s.stamp [] holds

theorem keeps_emit (off : OffRecord fact) (e : Event) :
    Keeps fact (emit e) :=
  Keeps.modify fun s holds => off s s.procs s.lists s.queues s.stamp [e] holds

theorem keeps_storeMessage (off : OffRecord fact) (message : UserPtr)
    (value : Int) : Keeps fact (storeMessage message value) := by
  unfold storeMessage storeUser
  split
  · split
    · exact Keeps.throw _
    · exact keeps_emit off _
  · exact Keeps.pure _

theorem keeps_queueAdd (off : OffRecord fact) (r : ProcRef) (h : Head) :
    Keeps fact (queueAdd r h) := by
  apply Keeps.bind (keeps_derefProc r)
  intro p
  split
  · exact Keeps.modify fun s holds => off s _ _ s.queues _ [] holds
  · exact Keeps.throw _

theorem keeps_activate (off : OffRecord fact) (r : ProcRef) :
    Keeps fact (activate r) :=
  Keeps.bind (keeps_modifyProc off r _) fun _ => keeps_queueAdd off r _

theorem keeps_queueDel (off : OffRecord fact) (r : ProcRef) :
    Keeps fact (queueDel r) := by
  apply Keeps.bind (keeps_derefProc r)
  intro p
  cases p.link with
  | none => exact Keeps.throw _
  | some h => exact Keeps.modify fun s holds => off s _ _ s.queues s.stamp [] holds

theorem keeps_queueOut (off : OffRecord fact) (h : Head) :
    Keeps fact (queueOut h) := by
  apply Keeps.bind Keeps.get
  intro s
  cases (s.lists h).getLast? with
  | none => exact Keeps.pure _
  | some r =>
      apply Keeps.bind (keeps_derefProc r)
      intro p
      apply Keeps.bind (Keeps.modify fun s holds => off s _ _ s.queues s.stamp [] holds)
      intro _
      exact Keeps.pure _

theorem keeps_drain (off : OffRecord fact) (h : Head)
    {body : ProcRef → KM Unit} (turn : ∀ r, Keeps fact (body r))
    (fuel : Nat) : Keeps fact (drain h body fuel) := by
  induction fuel with
  | zero => exact Keeps.pure _
  | succ fuel ih =>
      apply Keeps.bind (keeps_queueOut off h)
      intro next
      cases next with
      | none => exact Keeps.pure _
      | some r => exact Keeps.bind (turn r) fun _ => ih

theorem keeps_freeProcess (off : OffRecord fact) (r : ProcRef) :
    Keeps fact (freeProcess r) := by
  apply Keeps.bind (keeps_derefProc r)
  intro p
  apply Keeps.bind Keeps.get
  intro s
  split
  · exact Keeps.throw _
  · exact Keeps.modify fun s holds => off s _ s.lists s.queues s.stamp [] holds

theorem keeps_freeAll (off : OffRecord fact) : Keeps fact freeAll :=
  Keeps.bind Keeps.get fun _ =>
    keeps_drain off _ (keeps_freeProcess off) _

theorem keeps_freeFinishedProcess (off : OffRecord fact) :
    Keeps fact freeFinishedProcess := by
  apply Keeps.bind Keeps.get
  intro s
  cases s.findPid .finished s.currentPid with
  | none => exact keeps_freeAll off
  | some current =>
      apply Keeps.bind (keeps_queueDel off current)
      intro _
      exact Keeps.bind (keeps_freeAll off) fun _ => keeps_queueAdd off _ _

theorem keeps_wakeupOne (off : OffRecord fact) (pid : Int) :
    Keeps fact (wakeupOne pid) := by
  apply Keeps.bind Keeps.get
  intro s
  cases s.processTable pid with
  | none => exact Keeps.pure _
  | some r =>
      apply Keeps.bind (keeps_derefProc r)
      intro p
      split
      · exact keeps_activate off r
      · exact Keeps.pure _

theorem keeps_wakeupProcess (off : OffRecord fact) :
    Keeps fact wakeupProcess :=
  Keeps.forM (fun pid : Nat => keeps_wakeupOne off pid) _

/-! ### The processor -/

variable (off : OffRecord fact) (offCpu : OffProcessor fact)

include offCpu in
theorem keeps_ret (value : Int) : Keeps fact (ret value) :=
  Keeps.modify fun s holds => offCpu s s.currentPid s.running .user value holds

include off offCpu

theorem keeps_virtualCtxSw (k : Context) (old new : ProcRef) :
    Keeps fact (virtualCtxSw k old new) := by
  apply Keeps.bind Keeps.get
  intro s
  apply Keeps.bind (keeps_modifyProc off _ _)
  intro _
  apply Keeps.bind (keeps_modifyProc off _ _)
  intro _
  apply Keeps.bind (keeps_derefProc new)
  intro p
  cases p.registers with
  | none => exact Keeps.throw _
  | some restored =>
      apply Keeps.bind (keeps_modifyProc off _ _)
      intro _
      exact Keeps.modify fun t holds =>
        offCpu t t.currentPid new (.kernel restored) t.eax holds

theorem keeps_scheduler (k : Context) : Keeps fact (scheduler k) := by
  apply Keeps.bind (keeps_freeFinishedProcess off)
  intro _
  apply Keeps.bind (keeps_wakeupProcess off)
  intro _
  apply Keeps.bind (keeps_queueOut off _)
  intro next
  cases next with
  | none => exact Keeps.throw _
  | some new =>
      apply Keeps.bind (keeps_modifyProc off _ _)
      intro _
      apply Keeps.bind keeps_oldProcess
      intro old
      apply Keeps.bind (keeps_derefProc new)
      intro p
      refine Keeps.bind (Keeps.modify ?_) fun _ => ?_
      · exact fun t holds => offCpu t p.pid t.running t.mode t.eax holds
      apply Keeps.bind Keeps.get
      intro t
      apply Keeps.bind (keeps_emit off _)
      intro _
      exact keeps_virtualCtxSw off offCpu k old new

end Footprints

/-! ## What a call that blocks leaves on the kernel stack -/

section Parking

/-- The code ends in user mode, or in the kernel with a context of this kind on
the stack of the process that ran it. -/
def Parks (kind : Context → Prop) (code : KM Unit) : Prop :=
  ∀ s, wp code
    (fun _ t => t.mode = .user ∨
      ∀ p, t.procs s.running = some p → kind p.stack)
    (fun _ _ => True) s

variable {kind : Context → Prop} {k : Context}

theorem offRecord_running (r : ProcRef) :
    OffRecord fun s => s.running = r :=
  fun _ _ _ _ _ _ same => same

/-- The code before a call that blocks leaves the processor where it is. -/
theorem Parks.bind {α : Type} {first : KM α} {second : α → KM Unit}
    (before : ∀ r, Keeps (fun s => s.running = r) first)
    (after : ∀ value, Parks kind (second value)) :
    Parks kind (first >>= second) := by
  intro s
  rw [wp_bind]
  refine wp_mono (before s.running s rfl) ?_ (fun _ _ _ => trivial)
  intro value t same
  have parks := after value t
  rwa [show t.running = s.running from same] at parks

theorem Parks.ret (value : Int) : Parks kind (ret value) :=
  fun _ => .inl rfl

theorem Parks.throw (failure : Fault) :
    Parks kind (MonadExcept.throw failure) :=
  fun _ => trivial

/-- Registers do not decide what is on a kernel stack. -/
theorem keeps_registers (r x : ProcRef) (registers : Option Context) :
    Keeps (fun s => ∀ p, s.procs r = some p → kind p.stack)
      (modifyProc x fun p => { p with registers := registers }) := by
  intro s onStack
  rw [modifyProc, wp_bind, derefProc, wp_bind, wp_get]
  cases record : s.procs x with
  | none => exact onStack
  | some p =>
      rw [wp_pure, wp_modify]
      intro n found
      by_cases isX : r = x
      · subst isX
        simp only [KState.setProc_procs, Function.update_self,
          Option.some.injEq] at found
        rw [← found]
        exact onStack p record
      · rw [KState.setProc_procs, Function.update_of_ne isX] at found
        exact onStack n found

theorem parks_virtualCtxSw (is : kind k) (old new : ProcRef) :
    Parks kind (virtualCtxSw k old new) := by
  intro s
  rw [virtualCtxSw, wp_bind, wp_get, wp_bind, modifyProc, wp_bind, derefProc,
    wp_bind, wp_get]
  cases record : s.procs s.running with
  | none => trivial
  | some p =>
      rw [wp_pure, wp_modify]
      have start : ∀ n, (s.setProc s.running
          { p with stack := k }).procs s.running = some n → kind n.stack := by
        intro n found
        simp only [KState.setProc_procs, Function.update_self,
          Option.some.injEq] at found
        rw [← found]
        exact is
      refine wp_mono (Keeps.bind (keeps_registers _ old _) (fun _ =>
        Keeps.bind (keeps_derefProc new) ?_) _ start)
        (fun _ _ onStack => .inr onStack) (fun _ _ _ => trivial)
      intro p
      cases p.registers with
      | none => exact Keeps.throw _
      | some restored =>
          apply Keeps.bind (keeps_registers _ new _)
          intro _
          exact Keeps.modify fun _ onStack => onStack

theorem parks_scheduler (is : kind k) : Parks kind (scheduler k) := by
  apply Parks.bind fun r => keeps_freeFinishedProcess (offRecord_running r)
  intro _
  apply Parks.bind fun r => keeps_wakeupProcess (offRecord_running r)
  intro _
  apply Parks.bind fun r => keeps_queueOut (offRecord_running r) _
  intro next
  cases next with
  | none => exact Parks.throw _
  | some new =>
      apply Parks.bind fun r => keeps_modifyProc (offRecord_running r) _ _
      intro _
      apply Parks.bind fun _ => keeps_oldProcess
      intro old
      apply Parks.bind fun _ => keeps_derefProc new
      intro p
      refine Parks.bind (fun _ => Keeps.modify ?_) fun _ => ?_
      · exact fun _ same => same
      apply Parks.bind fun _ => Keeps.get
      intro s
      refine Parks.bind (fun _ => Keeps.modify ?_) fun _ => ?_
      · exact fun _ same => same
      exact parks_virtualCtxSw is old new

theorem parks_reschedule (is : kind k) : Parks kind (reschedule k) := by
  apply Parks.bind fun _ => Keeps.get
  intro s
  apply Parks.bind fun _ => keeps_entry _
  intro current
  apply Parks.bind fun r => keeps_activate (offRecord_running r) current
  intro _
  exact parks_scheduler is

/-- What `psend` leaves on the kernel stack. -/
def Context.Sends : Context → Prop
  | .psend _ _ | .handedOver => True
  | _ => False

/-- What `preceive` with this pointer leaves on the kernel stack. -/
def Context.Receives (pointer : UserPtr) : Context → Prop
  | .preceive _ _ message => message = pointer
  | .returning _ => True
  | _ => False

theorem parks_psend (fid message : Int) :
    Parks Context.Sends (psend fid message) := by
  apply Parks.bind fun _ => Keeps.get
  intro s
  cases queueOf s fid with
  | none => exact Parks.ret _
  | some q =>
      apply Parks.bind fun _ => Keeps.get
      intro s
      apply Parks.bind fun _ => keeps_entry _
      intro p
      apply Parks.bind fun r => keeps_modifyProc (offRecord_running r) p _
      intro _
      apply Parks.bind fun r => keeps_emit (offRecord_running r) _
      intro _
      apply Parks.bind fun _ => keeps_derefQueue q
      intro content
      apply Parks.bind fun _ => Keeps.get
      intro s
      split
      · apply Parks.bind fun r => keeps_modifyQueue (offRecord_running r) q _
        intro _
        apply Parks.bind fun r => keeps_emit (offRecord_running r) _
        intro _
        apply Parks.bind fun r => keeps_queueOut (offRecord_running r) _
        intro next
        cases next with
        | none => exact Parks.throw _
        | some new =>
            apply Parks.bind fun r => keeps_activate (offRecord_running r) p
            intro _
            apply Parks.bind fun r => keeps_modifyProc (offRecord_running r) new _
            intro _
            apply Parks.bind fun _ => keeps_derefProc new
            intro receiver
            refine Parks.bind (fun _ => Keeps.modify ?_) fun _ => ?_
            · exact fun _ same => same
            exact parks_virtualCtxSw trivial p new
      · split
        · apply Parks.bind fun r => keeps_modifyProc (offRecord_running r) p _
          intro _
          apply Parks.bind fun r => keeps_queueAdd (offRecord_running r) p _
          intro _
          exact parks_scheduler trivial
        · apply Parks.bind fun r => keeps_modifyQueue (offRecord_running r) q _
          intro _
          apply Parks.bind fun r => keeps_emit (offRecord_running r) _
          intro _
          exact Parks.ret 0

theorem parks_preceive (fid : Int) (message : UserPtr) :
    Parks (Context.Receives message) (preceive fid message) := by
  apply Parks.bind fun _ => Keeps.get
  intro s
  cases queueOf s fid with
  | none => exact Parks.ret _
  | some q =>
      apply Parks.bind fun _ => Keeps.get
      intro s
      apply Parks.bind fun _ => keeps_entry _
      intro p
      apply Parks.bind fun _ => keeps_derefQueue q
      intro content
      split
      · apply Parks.bind fun r => keeps_storeMessage (offRecord_running r) _ _
        intro _
        apply Parks.bind fun r => keeps_emit (offRecord_running r) _
        intro _
        apply Parks.bind fun _ => Keeps.get
        intro s
        split
        · apply Parks.bind fun r => keeps_queueOut (offRecord_running r) _
          intro next
          cases next with
          | none => exact Parks.throw _
          | some sender =>
              apply Parks.bind fun _ => keeps_derefProc sender
              intro blocked
              apply Parks.bind fun r => keeps_modifyQueue (offRecord_running r) q _
              intro _
              apply Parks.bind fun r => keeps_emit (offRecord_running r) _
              intro _
              apply Parks.bind fun r => keeps_activate (offRecord_running r) sender
              intro _
              exact parks_reschedule trivial
        · apply Parks.bind fun r => keeps_modifyQueue (offRecord_running r) q _
          intro _
          exact Parks.ret 0
      · apply Parks.bind fun r => keeps_modifyProc (offRecord_running r) p _
        intro _
        apply Parks.bind fun r => keeps_queueAdd (offRecord_running r) p _
        intro _
        exact parks_scheduler rfl

/-- The same for a step. -/
theorem Parks.after_step {kind : Context → Prop} {c : Syscall} {s t : KState}
    (parks : Parks kind (syscall c)) (next : step (.call c) s = .next t)
    (inKernel : ∃ k, t.mode = .kernel k) {p : Process}
    (record : t.procs s.running = some p) : kind p.stack := by
  obtain ⟨k, inKernel⟩ := inKernel
  have rule := parks s
  unfold step at next
  unfold wp at rule
  cases mode : s.mode with
  | user =>
      rw [mode] at next
      simp only [kernelEntry] at next
      cases outcome : syscall c s with
      | ok value u =>
          rw [outcome] at next rule
          cases next
          rcases rule with user | onStack
          · cases user.symm.trans inKernel
          · exact onStack p record
      | error failure u =>
          rw [outcome] at next
          cases failure with
          | page =>
              cases next
              cases inKernel
          | panic | assertion | useAfterFree | lostContext | noActivable
          | nullHead | endlessLoop => cases next
  | kernel _ =>
      rw [mode] at next
      cases next
  | pageFault =>
      rw [mode] at next
      cases next

end Parking

end Nebulea
