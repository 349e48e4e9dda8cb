import Nebulea.KernelEndMoves

/-!
# The calls of `process.c` perform moves

Each rule says where a stretch of kernel code that starts in a sound state
ends, and how it stops if it does not complete.
-/

namespace Nebulea

open ExceptState

section Scheduling

variable {allowed : Move → KState → Prop} {calm : Prop} {s t : KState}

/-- `__scheduler` called by a process that leaves the processor. -/
theorem wp_leave (sound : Sound s) (plain : Allows allowed s)
    (path : Moves allowed s t) (mode : t.mode = s.mode) {k : Context}
    (leaving : t.Leaving k)
    (other : ∀ pid retvalp, k ≠ .waitpid pid retvalp) :
    wp (scheduler k) (fun _ => Ends allowed calm s) (Stops allowed s) t :=
  wp_mono (wp_scheduler sound plain path mode leaving (plain.dispatch other))
    (fun _ _ scheduled => scheduled.ends calm) (fun _ _ stops => stops)

/-- The running process becomes activable and the scheduler chooses again. -/
theorem wp_reschedule (sound : Sound s)
    (plain : Allows allowed s) (path : Moves allowed s t)
    (mode : t.mode = s.mode) {p : Process} (onCpu : t.OnCpu p)
    (user : t.mode = .user) (value : Int) :
    wp (reschedule (.returning value)) (fun _ => Scheduled allowed s t)
      (Stops allowed s) t := by
  have soundT := sound.moves path
  have has := soundT.hasPid_current onCpu
  have unlinked := soundT.coherent.link_of_elected onCpu.1 onCpu.2
  rw [reschedule, wp_bind, wp_get, wp_bind, wp_entry has.1, wp_bind,
    wp_activate onCpu.1 unlinked]
  have leaving : (t.wake t.running p none).Leaving (.returning value) := by
    refine ⟨?_, _, Function.update_self .., by simp, .inl rfl⟩
    intro c inKernel
    have inside : t.mode = .kernel c := inKernel
    simp [user] at inside
  refine wp_mono (wp_scheduler sound plain
    (path.move (.yield p) (plain _ _ trivial False.elim) onCpu) mode leaving
    (plain.dispatch (by simp)))
    ?_ (fun _ _ stops => stops)
  intro _ u scheduled
  refine ⟨scheduled.path, scheduled.onCpu, scheduled.inKernel, scheduled.top,
    ⟨?_, scheduled.waiters.queues, scheduled.waiters.sems⟩,
    (Moves.single (.yield p) trivial onCpu).trans scheduled.later⟩
  intro h notActivable notFinished
  rw [scheduled.waiters.lists h notActivable notFinished]
  simp [KState.relinkLists, notActivable]

/-- `tic_PIT`. -/
theorem wp_ticPIT (sound : Sound s) (plain : Allows allowed s)
    {p : Process} (onCpu : s.OnCpu p) (user : s.mode = .user)
    (mayTick : allowed .tick s) :
    wp ticPIT (fun _ => Ends allowed calm s) (Stops allowed s) s := by
  have ticked : Moves allowed s (Move.tick.effect s) :=
    .single .tick mayTick trivial
  have soundT := sound.moves ticked
  have has := soundT.hasPid_current onCpu
  have unlinked := soundT.coherent.link_of_elected onCpu.1 onCpu.2
  have here : Underway allowed calm s (Move.tick.effect s) :=
    ⟨ticked, ⟨p, onCpu⟩, rfl, rfl, fun _ top => top⟩
  rw [ticPIT, wp_bind, wp_modify, wp_bind, wp_get, wp_ite]
  split
  · change wp (entry (Move.tick.effect s).currentPid >>= _) _ _
      (Move.tick.effect s)
    rw [wp_bind, wp_entry has.1, wp_bind, wp_derefProc has.2]
    simp only [if_pos onCpu.2]
    rw [wp_bind, wp_activate has.2 unlinked]
    refine wp_leave sound plain
      (ticked.move (.yield p) (plain _ _ trivial False.elim) onCpu) rfl
      ⟨?_, ?_⟩ (by simp)
    · intro c inKernel
      have mode : s.mode = .kernel c := inKernel
      simp [user] at mode
    · exact ⟨_, Function.update_self .., by simp, rfl⟩
  · exact here.ret plain user s.eax

/-- `wait_clock`. -/
theorem wp_waitClock (sound : Sound s)
    (plain : Allows allowed s) {p : Process}
    (onCpu : s.OnCpu p) (user : s.mode = .user) (wakeup : Nat)
    (maySleep : allowed (.sleep p wakeup) s) :
    wp (waitClock wakeup)
      (fun _ t => Ends allowed calm s t ∧
        Moves (fun m _ => m.Serves) ((Move.sleep p wakeup).effect s) t)
      (Stops allowed s) s := by
  have has := sound.hasPid_current onCpu
  rw [waitClock, wp_bind, wp_get, wp_bind, wp_entry has.1, wp_bind,
    wp_modifyProc _ has.2]
  refine wp_mono (wp_scheduler sound plain
    (Moves.single (.sleep p wakeup) maySleep onCpu) rfl ⟨?_, ?_⟩
    (plain.dispatch (by simp)))
    (fun _ _ scheduled => ⟨scheduled.ends calm, scheduled.later⟩)
    (fun _ _ stops => stops)
  · intro c inKernel
    have mode : s.mode = .kernel c := inKernel
    simp [user] at mode
  · exact ⟨_, Function.update_self .., by simp, .inr (.inl rfl)⟩

end Scheduling

/-! ## The list a process is chained in -/

/-- A search whose every hit is the same value finds it. -/
theorem findSome_range {Value : Type} {n i : Nat} {f : Nat → Option Value}
    {v : Value} (small : i < n) (hit : f i = some v)
    (only : ∀ j w, f j = some w → w = v) :
    (List.range n).findSome? f = some v := by
  cases search : (List.range n).findSome? f with
  | none =>
      rw [List.findSome?_eq_none_iff] at search
      rw [search i (List.mem_range.mpr small)] at hit
      simp at hit
  | some w =>
      obtain ⟨j, -, found⟩ := List.exists_of_findSome?_eq_some search
      rw [only j w found]

namespace Coherent

variable {s : KState} (ok : Coherent s)

include ok

/-- `find` on the pid of a process that has not finished finds nothing but the
list the process is chained in. -/
theorem findPid_isSome {r : ProcRef} {p : Process} {h : Head}
    (record : s.procs r = some p) (active : p.state ≠ .finished)
    (other : h ≠ .finished) :
    (s.findPid h p.pid).isSome ↔ p.link = some h := by
  constructor
  · intro found
    obtain ⟨x, search⟩ := Option.isSome_iff_exists.mp found
    obtain ⟨content, present, link⟩ :=
      ok.record_of_mem (List.mem_of_find?_eq_some search)
    have samePid : content.pid = p.pid := by
      simpa [present] using List.find?_some search
    have active' : content.state ≠ .finished := by
      intro finished
      have isFinished : content.link = some .finished := by
        simpa [KState.LinkOk, finished] using ok.procs.linked x content present
      rw [link, Option.some.injEq] at isFinished
      exact other isFinished
    have same := ok.procs.eq_of_pid present record active' active samePid
    subst same
    rw [present, Option.some.injEq] at record
    exact record ▸ link
  · intro link
    rw [KState.findPid, List.find?_isSome]
    exact ⟨r, ok.lists.mem_of_link record link, by simp [record]⟩

/-- The search of `__get_queue` through one of the two tables. -/
theorem findHead_eq {r : ProcRef} {p : Process} {n : Nat}
    {table : Int → Option Nat} {head : Nat → Head} {i : Int} {x : Nat}
    (record : s.procs r = some p) (active : p.state ≠ .finished)
    (heads : ∀ y, head y ≠ .finished) (nonneg : 0 ≤ i) (small : i < n)
    (entry : table i = some x) (link : p.link = some (head x)) :
    findHead s p.pid n table head = some (head x) := by
  refine findSome_range ((Int.toNat_lt nonneg).mpr small) ?_ ?_
  · have there := (ok.findPid_isSome record active (heads x)).mpr link
    simp [Int.toNat_of_nonneg nonneg, entry, there]
  · intro j w hit
    split at hit
    · rename_i y _
      split at hit
      · rename_i found
        have here := (ok.findPid_isSome record active (heads y)).mp found
        rw [link, hit] at here
        exact (Option.some.inj here).symm
      · simp at hit
    · simp at hit

/-- `__get_queue` returns the list that contains the process. -/
theorem getQueue_eq {r : ProcRef} {p : Process} {h : Head}
    (record : s.procs r = some p) (active : p.state ≠ .finished)
    (link : p.link = some h) : getQueue s p = some h := by
  have linked := ok.procs.linked r p record
  unfold KState.LinkOk at linked
  unfold getQueue
  cases state : p.state with
  | elected | asleep | zombie =>
      rw [state, link] at linked
      exact absurd linked (by simp)
  | finished => exact absurd state active
  | activable | waitingPid =>
      rw [state, link] at linked
      exact linked.symm
  | inMsgqueue =>
      rw [state] at linked
      obtain ⟨fid, q, entry, isQueue⟩ := linked
      obtain ⟨nonneg, small, -⟩ := ok.heap.queueTable fid q entry
      rw [← link, isQueue]
      exact ok.findHead_eq record active (by simp) nonneg small entry
        isQueue
  | inSem =>
      rw [state] at linked
      obtain ⟨x, entry, isSem⟩ := linked
      obtain ⟨nonneg, small, -⟩ := ok.heap.semTable _ x entry
      rw [← link, isSem]
      exact ok.findHead_eq record active (by simp) nonneg small entry isSem

end Coherent

section Calls

variable {allowed : Move → KState → Prop} {calm : Prop} {s : KState}

/-- A call that only reads, and returns a value. -/
theorem ends_ret (plain : Allows allowed s) {p : Process}
    (onCpu : s.OnCpu p) (user : s.mode = .user) (value : Int) :
    Ends allowed calm s { s with mode := .user, eax := value } :=
  (Underway.refl onCpu).ret plain user value

/-- The process a valid pid designates. -/
theorem exists_of_isValidPid (ok : Coherent s) {pid : Int}
    (valid : IsValidPid s pid) : ∃ r p, s.HasPid pid r p := by
  obtain ⟨r, listed⟩ := Option.ne_none_iff_exists'.mp valid.2.2
  obtain ⟨-, -, p, record, -⟩ := ok.procs.table pid r listed
  exact ⟨r, p, listed, record⟩

/-- `getprio`. -/
theorem wp_getprio (sound : Sound s) (plain : Allows allowed s)
    {p : Process} (onCpu : s.OnCpu p) (user : s.mode = .user) (pid : Int) :
    wp (getprio pid) (fun _ => Ends allowed calm s) (Stops allowed s) s := by
  rw [getprio, wp_bind, wp_get, wp_ite]
  split
  · exact ends_ret plain onCpu user (-1)
  · rename_i valid
    obtain ⟨r, content, has⟩ :=
      exists_of_isValidPid sound.coherent (not_not.mp valid)
    rw [wp_bind, wp_entry has.1, wp_bind, wp_derefProc has.2, wp_ite]
    split
    · exact ends_ret plain onCpu user (-1)
    · exact ends_ret plain onCpu user content.priority

/-- The running process after the priority of a process has changed. -/
theorem onCpu_reprio {r : ProcRef} {p current : Process} {newprio : Int}
    (ok : Coherent s) (record : s.procs r = some p)
    (onCpu : s.OnCpu current) :
    ∃ c, ((Move.reprio r p newprio).effect s).OnCpu c := by
  by_cases isRunning : s.running = r
  · rw [← isRunning, onCpu.1, Option.some.injEq] at record
    subst record
    have unlinked := ok.link_of_elected onCpu.1 onCpu.2
    refine ⟨{ current with priority := newprio }, ?_, onCpu.2⟩
    simp [Move.effect, isRunning, unlinked]
  · exact ⟨current, by simp [Move.effect, isRunning, onCpu.1], onCpu.2⟩

/-- `chprio`. -/
theorem wp_chprio (sound : Sound s) (plain : Allows allowed s)
    {current : Process} (onCpu : s.OnCpu current) (user : s.mode = .user)
    (pid newprio : Int) :
    wp (chprio pid newprio) (fun _ => Ends allowed calm s) (Stops allowed s)
      s := by
  have ok := sound.coherent
  rw [chprio, wp_bind, wp_get, wp_ite]
  split
  · exact ends_ret plain onCpu user (-1)
  rename_i accepted
  rw [not_or, not_or, not_or, not_not] at accepted
  obtain ⟨valid, notAbove, positive, notIdle⟩ := accepted
  obtain ⟨r, p, has⟩ := exists_of_isValidPid ok valid
  obtain ⟨isPid, active⟩ := ok.active_of_hasPid has
  rw [wp_bind, wp_entry has.1, wp_bind, wp_derefProc has.2, wp_ite]
  split
  · exact ends_ret plain onCpu user (-1)
  rename_i alive
  have applies : (Move.reprio r p newprio).Guard s :=
    ⟨has.2, not_or.mp alive, isPid ▸ notIdle, not_le.mp positive,
      not_lt.mp notAbove⟩
  obtain ⟨c, onCpu'⟩ := onCpu_reprio ok has.2 onCpu
  have changed : wp (reschedule (.returning p.priority))
      (fun _ => Ends allowed calm s) (Stops allowed s)
      ((Move.reprio r p newprio).effect s) :=
    wp_mono (wp_reschedule sound plain
      (.single (.reprio r p newprio) (plain _ _ trivial False.elim) applies)
      rfl onCpu' user p.priority) (fun _ _ scheduled => scheduled.ends calm)
        (fun _ _ stops => stops)
  cases link : p.link with
  | none =>
      have assigned : s.setProc r { p with priority := newprio } =
          (Move.reprio r p newprio).effect s := by
        simp only [Move.effect, link]
        rw [KState.relink_none_none rfl]
      simp only [ne_eq, not_true_eq_false, if_false, wp_bind,
        wp_modifyProc _ has.2]
      rw [assigned]
      exact changed
  | some h =>
      have unchained : (s.relink r p (some h) none).procs r =
          some { p with link := none } := by
        simp
      have assigned : ((s.relink r p (some h) none).setProc r
          { p with link := none, priority := newprio }).procs r =
            some { p with link := none, priority := newprio } := by
        simp
      have moved : ((s.relink r p (some h) none).setProc r
          { p with link := none, priority := newprio }).relink r
            { p with link := none, priority := newprio } none (some h) =
          (Move.reprio r p newprio).effect s := by
        rw [KState.setProc_relink, KState.relink_relink, ← link]
        exact KState.relink_link (p := { p with priority := newprio }) none
      simp only [ne_eq, reduceCtorEq, not_false_eq_true, if_true, wp_bind,
        wp_get, ok.getQueue_eq has.2 active link]
      rw [wp_queueDel has.2 link, wp_bind, wp_modifyProc _ unchained,
        wp_bind, wp_queueAdd assigned rfl, moved]
      exact changed

end Calls

/-! ## Creation of a process -/

section Creation

variable {allowed : Move → KState → Prop} {calm : Prop} {s : KState}

/-- The search for a null entry returns one. -/
theorem firstFree_free {size : Nat} {table : Int → Option Nat}
    (free : firstFree size table ≠ -1) :
    0 ≤ firstFree size table ∧ firstFree size table < size ∧
      table (firstFree size table) = none := by
  unfold firstFree at free ⊢
  cases search : (List.range size).find? fun i : Nat => table i == none with
  | none =>
      rw [search] at free
      exact absurd rfl free
  | some i =>
      have small := List.mem_range.mp (List.mem_of_find?_eq_some search)
      have isFree := List.find?_some search
      exact ⟨Int.natCast_nonneg i, Int.ofNat_lt.mpr small,
        by simpa using isFree⟩

/-- A child that is not above its father leaves the father on top. -/
theorem top_create {pid prio : Int} {p : Process} {children : List Child}
    (ok : Coherent s) (applies : (Move.create pid prio p children).Guard s)
    (top : s.Top) : ((Move.create pid prio p children).effect s).Top := by
  obtain ⟨-, onCpu, -, -, -, -, -, below⟩ := applies
  have distinct : s.running ≠ s.nextRef := (ok.lt_nextRef onCpu.1).ne
  have oldPrio (x : ProcRef) (other : x ≠ s.nextRef) :
      ((Move.create pid prio p children).effect s).prio x = s.prio x := by
    unfold KState.prio
    rw [Move.create_procs distinct, if_neg other]
    by_cases isRunning : x = s.running
    · rw [if_pos isRunning, isRunning, onCpu.1]
    · rw [if_neg isRunning]
  have newPrio : ((Move.create pid prio p children).effect s).prio s.nextRef =
      prio := by
    unfold KState.prio
    rw [Move.create_procs distinct, if_pos rfl]
    rfl
  have runningPrio : s.prio s.running = p.priority := KState.prio_eq onCpu.1
  intro x member
  change _ ≤ KState.prio _ s.running
  rw [oldPrio s.running distinct]
  have moved : x ∈ (s.adopt pid prio p children).relinkLists s.nextRef
      { s.created pid prio with state := .activable } none (some .activable)
        .activable := member
  rcases KState.mem_of_mem_relinkLists moved with listed | ⟨isNew, -⟩
  · obtain ⟨content, record, -⟩ := ok.record_of_mem listed
    rw [oldPrio x (ok.lt_nextRef record).ne]
    exact top x listed
  · rw [isNew, newPrio, runningPrio]
    exact below

/-- A child above its father is on top if the father was. -/
theorem top_createElect {pid prio : Int} {p : Process}
    {children : List Child} (ok : Coherent s)
    (applies : (Move.createElect pid prio p children).Guard s)
    (top : s.Top) : ((Move.createElect pid prio p children).effect s).Top := by
  obtain ⟨-, onCpu, -, -, -, -, -, above⟩ := applies
  have distinct : s.running ≠ s.nextRef := (ok.lt_nextRef onCpu.1).ne
  have oldPrio (x : ProcRef) (other : x ≠ s.nextRef) :
      ((Move.createElect pid prio p children).effect s).prio x = s.prio x := by
    unfold KState.prio
    rw [Move.createElect_procs distinct, if_neg other]
    by_cases isRunning : x = s.running
    · rw [if_pos isRunning, isRunning, onCpu.1]
    · rw [if_neg isRunning]
  have newPrio : ((Move.createElect pid prio p children).effect s).prio
      s.nextRef = prio := by
    unfold KState.prio
    rw [Move.createElect_procs distinct, if_pos rfl]
    rfl
  have runningPrio : s.prio s.running = p.priority := KState.prio_eq onCpu.1
  intro x member
  change _ ≤ KState.prio _ s.nextRef
  rw [newPrio]
  have moved : x ∈ (s.adopt pid prio p children).relinkLists s.running
      { p with
        children := some (addChild ⟨pid, 1⟩ children)
        state := .activable } none (some .activable) .activable := member
  rcases KState.mem_of_mem_relinkLists moved with listed | ⟨isOld, -⟩
  · obtain ⟨content, record, -⟩ := ok.record_of_mem listed
    have below := top x listed
    rw [oldPrio x (ok.lt_nextRef record).ne]
    omega
  · rw [isOld, oldPrio s.running distinct, runningPrio]
    omega

/-- The state once the new record is in the table, and in no list. -/
def KState.inserted (s : KState) (pid prio : Int) : KState :=
  { s with
    procs := Function.update s.procs s.nextRef (some (s.created pid prio))
    processTable := Function.update s.processTable pid (some s.nextRef)
    nextRef := s.nextRef + 1 }

/-- `start`. -/
theorem wp_start (sound : Sound s) (plain : Allows allowed s)
    {p : Process} (onCpu : s.OnCpu p) (user : s.mode = .user)
    (name : String) (ssize : Nat) (prio : Int)
    (mayCreate : ∀ children, ssize ≤ 0x10000000 → prio ≤ maxPrio →
      allowed (.create (getFreePid s) prio p children) s)
    (mayElect : ∀ children, ssize ≤ 0x10000000 → prio ≤ maxPrio →
      allowed (.createElect (getFreePid s) prio p children) s) :
    wp (start name ssize prio) (fun _ => Ends allowed calm s)
      (Stops allowed s) s := by
  have ok := sound.coherent
  have has := sound.hasPid_current onCpu
  have distinct : s.running ≠ s.nextRef := (ok.lt_nextRef onCpu.1).ne
  have nonneg : 0 ≤ s.currentPid := (ok.procs.table _ _ has.1).1
  rw [start, wp_bind, wp_get, wp_ite]
  split
  · exact ends_ret plain onCpu user (-1)
  rename_i tooLarge
  rw [wp_ite]
  split
  · intro text
    simp at text
  rw [wp_ite]
  split
  · exact ends_ret plain onCpu user (-1)
  rename_i accepted
  obtain ⟨free, tooHigh⟩ := not_or.mp accepted
  have size : ssize ≤ 0x10000000 := not_lt.mp tooLarge
  have inRange : prio ≤ maxPrio := not_lt.mp tooHigh
  obtain ⟨low, high, isFree⟩ : 0 ≤ getFreePid s ∧ getFreePid s < nbProc ∧
    s.processTable (getFreePid s) = none := firstFree_free free
  generalize getFreePid s = pid at *
  have notNew : s.currentPid ≠ pid := by
    intro same
    rw [← same, has.1] at isFree
    simp at isFree
  have isFather : s.currentPid ≠ -1 := by omega
  have table : Function.update s.processTable pid (some s.nextRef)
      s.currentPid = some s.running := by
    rw [Function.update_of_ne notNew, has.1]
  have father : (s.inserted pid prio).procs s.running = some p := by
    simp [KState.inserted, distinct, onCpu.1]
  simp only [wp_bind, wp_modify, if_pos isFather]
  change wp (entry s.currentPid) _ _ (s.inserted pid prio)
  rw [wp_entry table, wp_bind, wp_derefProc father]
  cases isChildren : p.children with
  | none => trivial
  | some children =>
      have record : (s.adopt pid prio p children).procs s.nextRef =
          some (s.created pid prio) := by
        simp [distinct.symm]
      have current : (s.adopt pid prio p children).procs s.running =
          some { p with children := some (addChild ⟨pid, 1⟩ children) } := by
        simp
      have unlinked := ok.link_of_elected onCpu.1 onCpu.2
      simp only [wp_bind, wp_modifyProc _ father]
      change wp (entry s.currentPid) _ _ (s.adopt pid prio p children)
      rw [wp_entry table, wp_bind, wp_derefProc current, wp_ite]
      split
      · rename_i above
        have applies : (Move.createElect pid prio p children).Guard s :=
          ⟨user, onCpu, has.1, isChildren, low, high, isFree, above⟩
        have path := Moves.single _ (mayElect children size inRange) applies
        have atChild : ((s.adopt pid prio p children).wake s.running
            { p with children := some (addChild ⟨pid, 1⟩ children) }
              none).procs s.nextRef = some (s.created pid prio) := by
          simp [distinct.symm]
        rw [wp_bind, wp_activate current unlinked, wp_bind,
          wp_modifyProc_same _ atChild rfl, wp_bind, wp_modify]
        refine wp_virtualCtxSw (Function.update_self ..)
          (Function.update_self ..) atChild ?_ ?_
        · intro lost
          rw [if_neg distinct.symm] at lost
          cases lost
        intro restored restores
        rw [if_neg distinct.symm] at restores
        cases Option.some.inj restores
        have atNew : ((Move.createElect pid prio p children).effect s).procs
            s.nextRef = some { s.created pid prio with registers := none } := by
          rw [Move.createElect_procs distinct, if_pos rfl]
        exact ⟨path, ⟨_, atNew, rfl⟩, fun more => absurd more (lt_irrefl _),
          fun _ => top_createElect ok applies⟩
      · rename_i notAbove
        have applies : (Move.create pid prio p children).Guard s :=
          ⟨user, onCpu, has.1, isChildren, low, high, isFree,
            not_lt.mp notAbove⟩
        have path := Moves.single _ (mayCreate children size inRange) applies
        have atChild : ((Move.create pid prio p children).effect s).procs
            s.nextRef = some { s.created pid prio with
              state := .activable
              link := some .activable
              stamp := s.stamp } := by
          rw [Move.create_procs distinct, if_pos rfl]
        rw [wp_bind, wp_activate record rfl]
        change wp (startTail s.nextRef) _ _
          ((Move.create pid prio p children).effect s)
        rw [startTail, wp_bind, wp_modifyProc_same _ atChild rfl, wp_bind,
          wp_derefProc atChild, wp_ret]
        have onCpu' : ((Move.create pid prio p children).effect s).procs
            s.running = some { p with
              children := some (addChild ⟨pid, 1⟩ children) } := by
          rw [Move.create_procs distinct, if_neg distinct, if_pos rfl]
        have here : Underway allowed calm s
            ((Move.create pid prio p children).effect s) :=
          ⟨path, ⟨_, onCpu', onCpu.2⟩, rfl, rfl, fun _ => top_create ok applies⟩
        exact here.ret plain user pid

end Creation

end Nebulea
