import Nebulea.KernelEvents
import Nebulea.SemaphoreRuns

/-!
# Stores through pointer arguments

The kernel image, its heap and the descriptor tables lie below `0x4000000`.
`waitpid` refuses a pointer into this region, `pcount`, `preceive` and
`clock_settings` do not look at theirs.  This module says exactly which kernel
entries store into the region.
-/

namespace Nebulea

open ExceptState

/-- A store through this pointer changes memory of the kernel. -/
def UserPtr.InKernel (pointer : UserPtr) : Prop :=
  pointer.addr < 0x4000000 ∧ pointer.faults = false

/-- The entries that store below `0x4000000`: calls and continuations that use
an unchecked pointer, on the paths on which they get to the store. -/
def Action.StoresLow (s : KState) : Action → Prop
  | .call (.pcount fid count) =>
      queueOf s fid ≠ none ∧ count.addr ≠ 0 ∧ count.InKernel
  | .call (.preceive fid message) =>
      (∃ q content, queueOf s fid = some q ∧ s.queues q = some content ∧
        0 < content.nbMsg) ∧ message.addr ≠ 0 ∧ message.InKernel
  | .call (.clockSettings quartz ticks) =>
      quartz.faults = false ∧ (quartz.addr < 0x4000000 ∨ ticks.InKernel)
  | .resume =>
      ∃ q message p, s.mode = .kernel (.preceive s.running q message) ∧
        s.procs s.running = some p ∧ p.skipMessage = false ∧
        message.addr ≠ 0 ∧ message.InKernel
  | _ => False

/-- No store since `s` went below `0x4000000`. -/
def KernelSpared (s t : KState) : Prop :=
  ∃ since, t.trace = since ++ s.trace ∧
    ∀ addr value, .store addr value ∈ since → 0x4000000 ≤ addr

section Stores

variable {s t : KState} {a : Action}

theorem Move.eq_note_of_store {m : Move} {addr : Nat} {value : Int}
    (recorded : .store addr value ∈ m.events s) :
    m = .note (.store addr value) := by
  cases m with
  | note e =>
      have same : Event.store addr value = e := by
        simpa [Move.events] using recorded
      rw [same]
  | endProcess pid r p how father =>
      cases how <;> simp [Move.events, Ending.event] at recorded
  | endFatherless pid r p how =>
      cases how <;> simp [Move.events, Ending.event] at recorded
  | _ => simp [Move.events] at recorded

/-- Every store of a step is one that its entry may do. -/
theorem Settled.stores (settled : Settled s) (next : step a s = .next t) :
    ∃ since, t.trace = since ++ s.trace ∧
      ∀ addr value, .store addr value ∈ since → a.MayStore s addr := by
  refine settled.keeps next (I := fun u => ∃ since,
    u.trace = since ++ s.trace ∧ ∀ addr value, .store addr value ∈ since →
      a.MayStore s addr) ?_ ⟨[], rfl, by simp⟩
  rintro u m - permitted - ⟨since, trace, kept⟩
  refine ⟨m.events u ++ since, ?_, ?_⟩
  · rw [m.trace_effect, trace, List.append_assoc]
  · intro addr value recorded
    rcases List.mem_append.mp recorded with isNew | isOld
    · have isNote := Move.eq_note_of_store isNew
      subst isNote
      exact permitted
    · exact kept addr value isOld

/-- An entry that is not one of those listed above stores in user memory
only. -/
theorem Action.MayStore.above {addr : Nat} (may : a.MayStore s addr)
    (spares : ¬ a.StoresLow s) : 0x4000000 ≤ addr := by
  by_contra below
  rw [not_le] at below
  cases a with
  | call c =>
      cases c with
      | waitpid pid retvalp => exact absurd may.2 (not_le.mpr below)
      | pcount fid count =>
          obtain ⟨rfl, exists', notNull, present⟩ := may
          exact spares ⟨exists', notNull, below, present⟩
      | preceive fid message =>
          obtain ⟨rfl, stored, notNull, present⟩ := may
          exact spares ⟨stored, notNull, below, present⟩
      | clockSettings quartz ticks =>
          obtain ⟨present, rfl | ⟨rfl, presentToo⟩⟩ := may
          · exact spares ⟨present, .inl below⟩
          · exact spares ⟨present, .inr ⟨below, presentToo⟩⟩
      | _ => exact may
  | tick => exact may
  | resume =>
      rcases may with ⟨pid, retvalp, -, -, above⟩ |
        ⟨q, message, p, mode, record, clear, rfl, notNull, present⟩
      · exact absurd above (not_le.mpr below)
      · exact spares ⟨q, message, p, mode, record, clear, notNull, below,
          present⟩

/-! ## The stores that are done -/

/-- The trace only grows. -/
theorem Moves.trace_suffix {allowed : Move → KState → Prop}
    (path : Moves allowed s t) : ∃ since, t.trace = since ++ s.trace := by
  refine path.keeps (I := fun u => ∃ since, u.trace = since ++ s.trace) ?_
    ⟨[], rfl⟩
  rintro m u - - ⟨since, trace⟩
  exact ⟨m.events u ++ since, by rw [m.trace_effect, trace, List.append_assoc]⟩

/-- The step has stored `value` at `addr`. -/
def Stored (s : KState) (addr : Nat) (value : Int) (t : KState) : Prop :=
  ∃ since, t.trace = since ++ s.trace ∧ .store addr value ∈ since

theorem not_spared_of_stored {addr : Nat}
    (stored : ∃ value, Stored s addr value t) (below : addr < 0x4000000) :
    ¬ KernelSpared s t := by
  rintro ⟨since, trace, above⟩
  obtain ⟨value, later, isTrace, recorded⟩ := stored
  rw [trace] at isTrace
  have same : since = later := List.append_cancel_right isTrace
  exact absurd (above addr value (same ▸ recorded)) (not_le.mpr below)

/-- What a step has recorded, whether it faults or not. -/
theorem stored_of_wp {addr : Nat} {code : KM Unit}
    (isEntry : kernelEntry s.mode a = some code)
    (next : step a s = .next t)
    (rule : wp code (fun _ u => ∃ value, Stored s addr value u)
      (fun failure u => failure = .page → ∃ value, Stored s addr value u) s) :
    ∃ value, Stored s addr value t := by
  unfold step at next
  rw [isEntry] at next
  simp only [] at next
  cases outcome : code s with
  | ok result u =>
      have done := wp_ok rule outcome
      rw [outcome] at next
      cases next
      exact done
  | error failure u =>
      have done := wp_error rule outcome
      rw [outcome] at next
      cases failure with
      | page =>
          cases next
          exact done rfl
      | panic | assertion | useAfterFree | lostContext | noActivable
      | nullHead | endlessLoop => cases next

/-- A sequence of moves that starts right after a store. -/
theorem stored_of_moves {addr : Nat} {value : Int} {u : KState}
    (isStored : s.note (.store addr value) = u)
    (path : Moves (fun _ _ => True) u t) :
    ∃ value, Stored s addr value t := by
  obtain ⟨since, trace⟩ := path.trace_suffix
  refine ⟨value, since ++ [.store addr value], ?_, by simp⟩
  simp [trace, ← isStored]

/-- The rule for `if (pointer) *pointer = value` when the store is done. -/
theorem wp_storeMessage_stored {post : Unit → KState → Prop}
    {fault : Fault → KState → Prop} {pointer : UserPtr} {value : Int}
    (notNull : pointer.addr ≠ 0) (present : pointer.faults = false) :
    wp (storeMessage pointer value) post fault s =
      post () (s.note (.store pointer.addr value)) := by
  rw [storeMessage, wp_ite, if_pos notNull, wp_storeUser, if_neg (by simp [present])]

theorem wp_pcount_stored {fid : Int} {count : UserPtr} {q : QueueRef}
    {content : MessageQueue} (designates : queueOf s fid = some q)
    (record : s.queues q = some content) (notNull : count.addr ≠ 0)
    (present : count.faults = false) :
    wp (pcount fid count) (fun _ u => ∃ value, Stored s count.addr value u)
      (fun failure u => failure = .page →
        ∃ value, Stored s count.addr value u) s := by
  rw [pcount, wp_bind, wp_get, designates]
  simp only []
  rw [wp_bind, wp_derefQueue record, wp_bind, wp_get, wp_bind,
    wp_storeMessage_stored notNull present, wp_ret]
  exact ⟨pcountValue s q content, [_], rfl, by simp⟩

theorem wp_clockSettings_stored {quartz ticks : UserPtr} {addr : Nat}
    (present : quartz.faults = false)
    (isArgument : addr = quartz.addr ∨
      addr = ticks.addr ∧ ticks.faults = false) :
    wp (clockSettings quartz ticks)
      (fun _ u => ∃ value, Stored s addr value u)
      (fun failure u => failure = .page → ∃ value, Stored s addr value u)
      s := by
  rw [clockSettings, wp_bind, wp_storeUser, if_neg (by simp [present]),
    wp_bind, wp_storeUser]
  split
  · rename_i faults
    rcases isArgument with rfl | ⟨-, presentToo⟩
    · exact fun _ => ⟨quartzFrequency, [_], rfl, by simp⟩
    · simp [presentToo] at faults
  · rcases isArgument with rfl | ⟨rfl, -⟩
    · exact ⟨quartzFrequency, [_, _], rfl, by simp⟩
    · exact ⟨clockTicks, [_, _], rfl, by simp⟩

/-- `preceive` on a queue that holds a message. -/
theorem wp_preceive_stored (sound : Sound s) {p : Process}
    (onCpu : s.OnCpu p) (user : s.mode = .user) {fid : Int}
    {message : UserPtr} {q : QueueRef} {content : MessageQueue}
    (designates : queueOf s fid = some q)
    (record : s.queues q = some content) (available : 0 < content.nbMsg)
    (notNull : message.addr ≠ 0) (present : message.faults = false) :
    wp (preceive fid message)
      (fun _ u => ∃ value, Stored s message.addr value u)
      (fun failure u => failure = .page →
        ∃ value, Stored s message.addr value u) s := by
  obtain ⟨-, -, entry, -⟩ := exists_of_queueOf sound.coherent designates
  have self := sound.hasPid_current onCpu
  have plain (v : KState) : Allows (fun _ _ => True) v := fun _ _ _ _ => trivial
  generalize isStored : s.note (.store message.addr
    (content.buffer content.tail)) = v
  have soundV : Sound v := by
    rw [← isStored]
    exact sound.move (m := .note (.store message.addr
      (content.buffer content.tail))) trivial
  have onCpuV : v.OnCpu p := by
    rw [← isStored]
    exact onCpu
  have userV : v.mode = .user := by
    rw [← isStored]
    exact user
  have has : v.HasQueue q content := by
    rw [← isStored]
    exact ⟨⟨fid, entry⟩, record⟩
  have running : v.running = s.running := by
    rw [← isStored]
    rfl
  have begun : Underway (fun _ _ => True) True v v := .refl onCpuV
  rw [preceive, wp_bind, wp_get, designates]
  simp only [wp_bind, wp_get]
  rw [wp_entry self.1, wp_bind, wp_derefQueue record, wp_ite,
    if_pos available, wp_bind, wp_storeMessage_stored notNull present, isStored,
    wp_bind, wp_emit, wp_bind, wp_get, wp_ite]
  split
  · rename_i refilling
    have rest := wp_refill soundV (plain v) begun onCpuV userV has available
      refilling.1 refilling.2 (fun _ _ => trivial)
    rw [running] at rest
    refine wp_mono rest ?_ ?_
    · exact fun _ u ends => stored_of_moves isStored ends.path
    · rintro _ u stops rfl
      exact stored_of_moves (t := Move.fault.effect u) isStored stops.1
  · rename_i notRefilling
    have took := begun.move (.take q content) trivial
      ⟨has, userV, available, notRefilling⟩ ⟨p, onCpuV⟩ rfl rfl
      (fun top => top)
    have recordThen : (v.note (.take q s.running
        (content.buffer content.tail))).queues q = some content := has.2
    rw [wp_bind, wp_modifyQueue _ recordThen, wp_ret, ← running]
    exact stored_of_moves isStored (took.ret (plain v) userV 0).path

/-- The rest of `preceive`, when its queue was not emptied. -/
theorem wp_preceiveTail_stored {p : Process} {q : QueueRef}
    {message : UserPtr} (record : s.procs s.running = some p)
    (clear : p.skipMessage = false) (notNull : message.addr ≠ 0)
    (present : message.faults = false) :
    wp (preceiveTail s.running q message)
      (fun _ u => ∃ value, Stored s message.addr value u)
      (fun failure _ => failure ≠ .page) s := by
  rw [preceiveTail, wp_bind, wp_derefProc record]
  simp only [clear, Bool.false_eq_true, if_false]
  rw [wp_bind]
  refine wp_derefQueue_of (by simp) ?_
  intro content isQueue
  have recordThen : ((s.note (.store message.addr
      (content.buffer content.tail))).note (.take q s.running
        (content.buffer content.tail))).queues q = some content := isQueue
  rw [wp_bind, wp_storeMessage_stored notNull present, wp_bind, wp_emit,
    wp_bind, wp_modifyQueue _ recordThen, wp_ret]
  exact ⟨content.buffer content.tail, [_, _], rfl, by simp⟩

/-- The listed entries do store below `0x4000000`. -/
theorem Settled.stores_low (settled : Settled s) (next : step a s = .next t)
    (low : a.StoresLow s) : ¬ KernelSpared s t := by
  obtain ⟨p, onCpu⟩ := settled.onCpu
  have ok := settled.sound.coherent
  cases a with
  | call c =>
      have user := mode_of_call next
      have isEntry : kernelEntry s.mode (.call c) = some (syscall c) := by
        rw [user]
        rfl
      cases c with
      | pcount fid count =>
          obtain ⟨exists', notNull, below, present⟩ := low
          obtain ⟨q, designates⟩ := Option.ne_none_iff_exists'.mp exists'
          obtain ⟨-, -, -, content, record⟩ := exists_of_queueOf ok designates
          exact not_spared_of_stored (stored_of_wp isEntry next
            (wp_pcount_stored designates record notNull present)) below
      | preceive fid message =>
          obtain ⟨⟨q, content, designates, record, available⟩, notNull, below,
            present⟩ := low
          exact not_spared_of_stored (stored_of_wp isEntry next
            (wp_preceive_stored settled.sound onCpu user designates record
              available notNull present)) below
      | clockSettings quartz ticks =>
          obtain ⟨present, below | ⟨below, presentToo⟩⟩ := low
          · exact not_spared_of_stored (stored_of_wp isEntry next
              (wp_clockSettings_stored present (.inl rfl))) below
          · exact not_spared_of_stored (stored_of_wp isEntry next
              (wp_clockSettings_stored present (.inr ⟨rfl, presentToo⟩))) below
      | _ => exact absurd low id
  | tick => exact absurd low id
  | resume =>
      obtain ⟨q, message, n, mode, record, clear, notNull, below, present⟩ :=
        low
      exact not_spared_of_stored (post_of_resume (fun _ u =>
        ∃ value, Stored s message.addr value u) mode next
        (wp_preceiveTail_stored record clear notNull present)) below

/-- A kernel entry, in whatever reachable state, stores through pointer
arguments above the kernel only, if and only if it is not one of those that
follow an unchecked pointer into the kernel. -/
theorem kernel_spared_iff (reached : Reachable s)
    (next : step a s = .next t) : KernelSpared s t ↔ ¬ a.StoresLow s := by
  constructor
  · intro spared low
    exact reached.settled.stores_low next low spared
  · intro spares
    obtain ⟨since, trace, stores⟩ := reached.settled.stores next
    exact ⟨since, trace, fun addr value recorded =>
      (stores addr value recorded).above spares⟩

/-- `waitpid` with a pointer into the kernel stores nothing, `pcount` with the
same pointer stores there. -/
theorem waitpid_spares_kernel :
    ∃ s t, Reachable s ∧
      step (.call (.waitpid (-1) ⟨0x100000, false⟩)) s = .next t ∧
      KernelSpared s t := by
  obtain ⟨t, performed, -, -⟩ := exists_of_runActions ["idle", "autotest"]
    (firstTicks ++ [.call (.waitpid (-1) ⟨0x100000, false⟩)])
    (fun _ => true) (by decide) (by decide) (by decide +kernel)
  rw [runActions_append, Option.bind_eq_some_iff] at performed
  obtain ⟨s, toS, waits⟩ := performed
  have reached : Reachable s :=
    reachable_of_runActions (by decide) (by decide) toS
  have next := step_of_runActions waits
  exact ⟨s, t, reached, next, (kernel_spared_iff reached next).mpr id⟩

/-- `pcount` stores the number of messages wherever it is told to. -/
theorem pcount_overwrites_kernel :
    ∃ s t, Reachable s ∧
      step (.call (.pcount 0 ⟨0x100000, false⟩)) s = .next t ∧ t.eax = 0 ∧
      ¬ KernelSpared s t := by
  obtain ⟨t, performed, -, checked⟩ := exists_of_runActions
    ["idle", "autotest"] ((firstTicks ++ [.call (.pcreate 1)]) ++
      [.call (.pcount 0 ⟨0x100000, false⟩)])
    (fun t => t.eax == 0 && t.trace.head? == some (.store 0x100000 0))
    (by decide) (by decide) (by decide +kernel)
  rw [Bool.and_eq_true, beq_iff_eq, beq_iff_eq] at checked
  rw [runActions_append, Option.bind_eq_some_iff] at performed
  obtain ⟨s, toS, counts⟩ := performed
  have before := check_of_runActions toS
    (fun s => s.trace.all fun e => e != .store 0x100000 0) (by decide +kernel)
  refine ⟨s, t, reachable_of_runActions (by decide) (by decide) toS,
    step_of_runActions counts, checked.1, ?_⟩
  rintro ⟨since, trace, above⟩
  cases since with
  | nil =>
      have inside := List.mem_of_mem_head? checked.2
      rw [trace, List.nil_append] at inside
      have other := List.all_eq_true.mp before _ inside
      simp at other
  | cons e since =>
      rw [trace, List.cons_append, List.head?_cons, Option.some.injEq] at checked
      exact absurd (above 0x100000 0 (by simp [checked.2])) (by decide)

end Stores

end Nebulea
