import Nebulea.KernelQueueMoves

/-!
# The calls of `semaphore.c` perform moves
-/

namespace Nebulea

open ExceptState StampedPriority

section Semaphores

variable {allowed : Move → KState → Prop} {calm : Prop} {s t : KState}

/-- The semaphore that a call designates exists. -/
theorem exists_of_semOf (ok : Coherent s) {sem : Int} {x : SemRef}
    (designates : semOf s sem = some x) :
    0 ≤ sem ∧ sem < nbSemaphore ∧ s.semaphoreTable sem = some x ∧
      ∃ content, s.HasSem x content := by
  unfold semOf at designates
  split at designates
  · simp at designates
  · obtain ⟨low, high, content, record, -⟩ :=
      ok.heap.semTable sem x designates
    exact ⟨low, high, designates, content, ⟨sem, designates⟩, record⟩

/-- `screate`. -/
theorem wp_screate (plain : Allows allowed s) {p : Process}
    (onCpu : s.OnCpu p) (user : s.mode = .user) {count : Int}
    (high : count ≤ semaphoreMaxSize) :
    wp (screate count) (fun _ => Ends allowed calm s) (Stops allowed s) s := by
  rw [screate, wp_bind, wp_get, wp_ite]
  split
  · exact ends_ret plain onCpu user (-1)
  rename_i accepted
  obtain ⟨notNegative, free⟩ := not_or.mp accepted
  obtain ⟨low, small, isFree⟩ : 0 ≤ getFreeSem s ∧ getFreeSem s < nbSemaphore ∧
    s.semaphoreTable (getFreeSem s) = none := firstFree_free free
  have created : Underway allowed calm s
      ((Move.newSem (getFreeSem s) count).effect s) := by
    refine (Underway.refl onCpu).move (.newSem (getFreeSem s) count)
      (plain _ _ trivial False.elim) ⟨low, small, isFree, not_lt.mp notNegative, high⟩
      ⟨p, onCpu⟩ rfl rfl ?_
    intro top
    exact top.congr (fun _ member => by simpa [Move.effect] using member) rfl
      rfl
  rw [wp_bind, wp_modify, wp_ret]
  exact created.ret plain user (getFreeSem s)

/-! ## Waking waiters -/

/-- The loop of `sdelete` and `sreset`. -/
theorem wp_releaseAll {post : Unit → KState → Prop}
    {fault : Fault → KState → Prop} (ok : Coherent s) {x : SemRef}
    (released : post () (s.release x (s.lists (.sem x)).reverse)) :
    wp (releaseAll x) post fault s := by
  rw [releaseAll, wp_bind, wp_get]
  refine wp_drain (fun t => Coherent t ∧
    t.release x (t.lists (.sem x)).reverse =
      s.release x (s.lists (.sem x)).reverse) ?_ ?_ ?_ ⟨ok, rfl⟩
  · rintro t ⟨okT, -⟩
    refine ⟨okT.lists.nodup _, ?_⟩
    intro r member
    obtain ⟨p, record, -⟩ := okT.record_of_mem member
    exact ⟨p, record⟩
  · rintro t r p ⟨okT, same⟩ next
    have link := okT.link_of_nextOut next
    have unchained : (t.relink r p (some (.sem x)) none).procs r =
        some { p with link := none } := by
      simp
    have woken : (t.relink r p (some (.sem x)) none).wake r
        { p with link := none } none = t.wake r p (some (.sem x)) := by
      rw [KState.wake, KState.relink_relink]
      exact KState.relink_link (p := { p with state := .activable }) none
    have lists : (t.wake r p (some (.sem x))).lists (.sem x) =
        (t.lists (.sem x)).erase r := by
      simp [KState.relinkLists]
    have order : (t.lists (.sem x)).reverse =
        r :: ((t.lists (.sem x)).erase r).reverse := by
      rw [← dropLast_eq_erase (okT.lists.nodup _) next.1]
      obtain ⟨front, isList⟩ := List.getLast?_eq_some_iff.mp next.1
      simp [isList]
    rw [wp_activate unchained rfl, woken]
    refine ⟨⟨?_, ?_⟩, lists⟩
    · have inSem := okT.inSem_of_nextOut next
      exact okT.wake next.2 link (by simp [inSem]) rfl
    · rw [lists, ← same, order, KState.release, next.2]
  · rintro t ⟨-, same⟩ empty
    rw [empty] at same
    rw [← same] at released
    exact released

/-- A semaphore whose counter is negative has a waiter. -/
theorem exists_nextOut (sound : Sound s) {x : SemRef} {content : Semaphore}
    (has : s.HasSem x content) (negative : content.count < 0) :
    ∃ r p, s.NextOut (.sem x) r p := by
  have waiting := (sound.sem x content has).2.2
  have notEmpty : s.lists (.sem x) ≠ [] := by
    intro empty
    simp only [KState.waiters, empty, List.length_nil] at waiting
    omega
  obtain ⟨r, last⟩ :=
    Option.ne_none_iff_exists'.mp (mt List.getLast?_eq_none_iff.mp notEmpty)
  obtain ⟨p, record, -⟩ :=
    sound.coherent.record_of_mem (List.mem_of_getLast? last)
  exact ⟨r, p, last, record⟩

/-- `s->count++` does not overflow. -/
theorem short_increment (sound : Sound s) {x : SemRef} {content : Semaphore}
    (has : s.HasSem x content) (below : content.count < semaphoreMaxSize) :
    short (content.count + 1) = content.count + 1 := by
  have bounds := sound.sem x content has
  unfold semaphoreMaxSize at bounds below
  exact short_eq (by omega) (by omega)

/-- `s->count--` does not overflow. -/
theorem short_decrement (sound : Sound s) {x : SemRef} {content : Semaphore}
    (has : s.HasSem x content) (above : -semaphoreMaxSize < content.count) :
    short (content.count - 1) = content.count - 1 := by
  have bounds := sound.sem x content has
  unfold semaphoreMaxSize at bounds above
  exact short_eq (by omega) (by omega)

/-- A unit goes to the first waiter: `wakeWaiter` once the counter has been
incremented. -/
theorem wp_wakeWaiter {post : Unit → KState → Prop}
    {fault : Fault → KState → Prop} (ok : Coherent t) {x : SemRef}
    (content : Semaphore) {after : Semaphore} {r : ProcRef} {p : Process}
    (clear : Bool) (next : t.NextOut (.sem x) r p)
    (isAfter : after = { content with
      count := short (content.count + 1)
      wasReset := content.wasReset && !clear })
    (woken : post () ((Move.postWake x content r p clear).effect t)) :
    wp (wakeWaiter x) post fault ((t.setSem x after).note (.signalled x)) := by
  have nodup : (((t.setSem x after).note (.signalled x)).lists
      (.sem x)).Nodup := ok.lists.nodup (.sem x)
  have nextThen : ((t.setSem x after).note (.signalled x)).NextOut (.sem x) r
      p := next
  have unchained : ((((t.setSem x after).note (.signalled x)).relink r p
      (some (.sem x)) none).note (.granted x r)).procs r =
        some { p with link := none } := by
    simp
  have isWoken : ((((t.setSem x after).note (.signalled x)).relink r p
      (some (.sem x)) none).note (.granted x r)).wake r
        { p with link := none } none =
      (Move.postWake x content r p clear).effect t := by
    change ((((t.setSem x after).note (.signalled x)).note
      (.granted x r)).relink r p (some (.sem x)) none).relink r
        { p with link := none, state := .activable } none (some .activable) = _
    rw [KState.relink_relink, isAfter]
    exact KState.relink_link (p := { p with state := .activable }) none
  rw [wakeWaiter, wp_bind, wp_queueOut nodup nextThen]
  simp only [wp_bind, wp_emit]
  rw [wp_activate unchained rfl, isWoken]
  exact woken

/-- `signal`. -/
theorem wp_signal (sound : Sound s) (plain : Allows allowed s)
    {p : Process} (onCpu : s.OnCpu p) (user : s.mode = .user) (sem : Int)
    (mayWake : ∀ x content r n, semOf s sem = some x →
      allowed (.postWake x content r n true) s) :
    wp (signal sem) (fun _ => Ends allowed calm s) (Stops allowed s) s := by
  have ok := sound.coherent
  rw [signal, wp_bind, wp_get]
  cases designates : semOf s sem with
  | none => exact ends_ret plain onCpu user (-1)
  | some x =>
      obtain ⟨-, -, entry, content, has⟩ := exists_of_semOf ok designates
      simp only [wp_bind]
      rw [wp_derefSem has.2, wp_ite]
      split
      · exact ends_ret plain onCpu user (-2)
      rename_i notFull
      have below : content.count < semaphoreMaxSize := not_le.mp notFull
      have counted := short_increment sound has below
      have incremented : ((s.setSem x { content with
          count := short (content.count + 1) }).note (.signalled x)).sems x =
          some { content with count := short (content.count + 1) } := by
        simp
      rw [wp_bind, increment, wp_bind, wp_modifySem _ has.2, wp_emit, wp_bind,
        wp_derefSem incremented, wp_ite]
      split
      · rename_i notPositive
        have negative : content.count < 0 := by
          have bound : short (content.count + 1) ≤ 0 := notPositive
          omega
        obtain ⟨r, n, next⟩ := exists_nextOut sound has negative
        have distinct := ok.running_ne_of_nextOut next onCpu
        rw [wp_bind, wp_modifySem _ incremented]
        have cleared : ((s.setSem x { content with
            count := short (content.count + 1) }).note (.signalled x)).setSem
              x { content with
                count := short (content.count + 1), wasReset := false } =
            (s.setSem x { content with
              count := short (content.count + 1)
              wasReset := false }).note (.signalled x) := by
          simp [KState.setSem, KState.note]
        rw [cleared, wp_bind]
        refine wp_wakeWaiter ok content true next (by simp) ?_
        have onCpu' : ((Move.postWake x content r n true).effect s).OnCpu
            p := by
          refine ⟨?_, onCpu.2⟩
          simp [Move.effect, distinct, onCpu.1]
        exact wp_mono (wp_reschedule sound plain
          (.single (.postWake x content r n true)
            (mayWake x content r n designates) ⟨has, negative, next⟩)
          rfl onCpu' user 0) (fun _ _ scheduled => scheduled.ends calm)
          (fun _ _ stops => stops)
      · rename_i positive
        have nonneg : 0 ≤ content.count := by
          have bound : ¬ short (content.count + 1) ≤ 0 := positive
          omega
        have begun : Underway allowed calm s s := .refl onCpu
        have posted := begun.move (.post x content) (plain _ _ trivial False.elim)
          ⟨has, nonneg, below⟩ ⟨p, onCpu⟩ rfl rfl (fun top => top)
        rw [wp_ret]
        exact posted.ret plain user 0

/-- What the loop of `signaln` keeps when `turns` units are still to add. -/
structure Signalling (allowed : Move → KState → Prop) (s : KState)
    (x : SemRef) (turns : Nat) (t : KState) : Prop where
  path : Moves allowed s t
  onCpu : ∃ p, t.OnCpu p
  mode : t.mode = s.mode
  room : ∃ content, t.HasSem x content ∧ content.wasReset = false ∧
    content.count + turns ≤ semaphoreMaxSize

/-- One turn of the loop of `signaln`. -/
theorem wp_signalOnce {fault : Fault → KState → Prop} (sound : Sound s)
    (plain : Allows allowed s) {x : SemRef} {turns : Nat}
    (mayWake : ∀ content r n t, content.wasReset = false →
      allowed (.postWake x content r n false) t)
    (loop : Signalling allowed s x (turns + 1) t) :
    wp (signalOnce x) (fun _ => Signalling allowed s x turns) fault t := by
  have soundT := sound.moves loop.path
  have ok := soundT.coherent
  obtain ⟨p, onCpu⟩ := loop.onCpu
  obtain ⟨content, has, clear, room⟩ := loop.room
  have below : content.count < semaphoreMaxSize := by omega
  have counted := short_increment soundT has below
  have incremented : ((t.setSem x { content with
      count := short (content.count + 1) }).note (.signalled x)).sems x =
      some { content with count := short (content.count + 1) } := by
    simp
  rw [signalOnce, wp_bind, increment, wp_bind, wp_modifySem _ has.2, wp_emit,
    wp_bind, wp_derefSem incremented, wp_ite]
  split
  · rename_i notPositive
    have negative : content.count < 0 := by
      have bound : short (content.count + 1) ≤ 0 := notPositive
      omega
    obtain ⟨r, n, next⟩ := exists_nextOut soundT has negative
    have distinct := ok.running_ne_of_nextOut next onCpu
    refine wp_wakeWaiter ok content false next (by simp) ?_
    refine ⟨loop.path.move (.postWake x content r n false)
      (mayWake content r n t clear) ⟨has, negative, next⟩, ⟨p, ?_, onCpu.2⟩,
      loop.mode, ?_⟩
    · simp [Move.effect, distinct, onCpu.1]
    · refine ⟨{ content with
        count := short (content.count + 1)
        wasReset := content.wasReset && !false }, ⟨has.1, ?_⟩, ?_, ?_⟩
      · simp [Move.effect]
      · simp [clear]
      · simp only [counted]
        omega
  · rename_i positive
    have nonneg : 0 ≤ content.count := by
      have bound : ¬ short (content.count + 1) ≤ 0 := positive
      omega
    refine ⟨loop.path.move (.post x content) (plain _ _ trivial False.elim)
      ⟨has, nonneg, below⟩, ⟨p, onCpu⟩, loop.mode, _, ⟨has.1, incremented⟩,
      clear, ?_⟩
    simp only [counted]
    omega

/-- The loop of `signaln`. -/
theorem wp_signalLoop {fault : Fault → KState → Prop} (sound : Sound s)
    (plain : Allows allowed s) {x : SemRef}
    (mayWake : ∀ content r n t, content.wasReset = false →
      allowed (.postWake x content r n false) t) (turns : Nat)
    (loop : Signalling allowed s x turns t) :
    wp (signalLoop x turns) (fun _ => Signalling allowed s x 0) fault t := by
  induction turns generalizing t with
  | zero => exact loop
  | succ turns ih =>
      rw [signalLoop, wp_bind]
      exact wp_mono (wp_signalOnce sound plain mayWake loop)
        (fun _ _ kept => ih kept) (fun _ _ faulted => faulted)

/-- `signaln`. -/
theorem wp_signaln (sound : Sound s) (plain : Allows allowed s)
    {p : Process} (onCpu : s.OnCpu p) (user : s.mode = .user)
    (sem count : Int)
    (mayClear : ∀ x content, semOf s sem = some x → 0 ≤ count →
      content.count + count ≤ semaphoreMaxSize → s.sems x = some content →
        allowed (.clearReset x content) s)
    (mayWake : ∀ x content r n t, semOf s sem = some x →
      content.wasReset = false → allowed (.postWake x content r n false) t) :
    wp (signaln sem count) (fun _ => Ends allowed calm s) (Stops allowed s)
      s := by
  rw [signaln, wp_bind, wp_get]
  cases designates : semOf s sem with
  | none => exact ends_ret plain onCpu user (-1)
  | some x =>
      obtain ⟨-, -, entry, content, has⟩ :=
        exists_of_semOf sound.coherent designates
      simp only [wp_ite]
      split
      · exact ends_ret plain onCpu user (-2)
      rename_i notNegative
      rw [wp_bind, wp_derefSem has.2, wp_ite]
      split
      · exact ends_ret plain onCpu user (-2)
      rename_i notAbove
      have room : content.count + count ≤ semaphoreMaxSize :=
        not_lt.mp notAbove
      have cleared : (s.setSem x { content with wasReset := false }).sems x =
          some { content with wasReset := false } := by
        simp
      have loop : Signalling allowed s x count.toNat
          ((Move.clearReset x content).effect s) := by
        refine ⟨.single (.clearReset x content)
          (mayClear x content designates (not_lt.mp notNegative) room has.2)
          has, ⟨p, onCpu⟩, rfl, _, ⟨has.1, cleared⟩, rfl, ?_⟩
        change content.count + (count.toNat : Int) ≤ _
        omega
      rw [wp_bind, wp_modifySem _ has.2, wp_bind]
      refine wp_mono (wp_signalLoop sound plain
        (fun content r n t => mayWake x content r n t designates) _ loop) ?_
        (fun _ _ stops => stops)
      intro _ u done
      obtain ⟨c, onCpu'⟩ := done.onCpu
      exact wp_mono (wp_reschedule sound plain done.path done.mode onCpu'
        (done.mode.trans user) 0) (fun _ _ scheduled => scheduled.ends calm)
        (fun _ _ stops => stops)

/-! ## Acquiring -/

/-- A wait that does not block, and a `try_wait` that succeeds. -/
theorem ends_acquire (plain : Allows allowed s)
    {p : Process} (onCpu : s.OnCpu p) (user : s.mode = .user) {x : SemRef}
    {content : Semaphore} (has : s.HasSem x content)
    (positive : 0 < content.count) :
    Ends allowed calm s
      { (Move.acquire x content).effect s with mode := .user, eax := 0 } := by
  have begun : Underway allowed calm s s := .refl onCpu
  exact (begun.move (.acquire x content) (plain _ _ trivial False.elim) ⟨has, positive⟩
    ⟨p, onCpu⟩ rfl rfl (fun top => top)).ret plain user 0

/-- `try_wait`. -/
theorem wp_tryWait (sound : Sound s) (plain : Allows allowed s)
    {p : Process} (onCpu : s.OnCpu p) (user : s.mode = .user) (sem : Int) :
    wp (tryWait sem) (fun _ => Ends allowed calm s) (Stops allowed s) s := by
  rw [tryWait, wp_bind, wp_get]
  cases designates : semOf s sem with
  | none => exact ends_ret plain onCpu user (-1)
  | some x =>
      obtain ⟨-, -, -, content, has⟩ :=
        exists_of_semOf sound.coherent designates
      simp only []
      rw [wp_bind, wp_derefSem has.2, wp_ite]
      split
      · exact ends_ret plain onCpu user (-2)
      rw [wp_ite]
      split
      · rename_i positive
        rw [wp_bind, decrement, wp_modifySem _ has.2, wp_bind, wp_get, wp_bind,
          wp_emit, wp_ret]
        exact ends_acquire plain onCpu user has positive
      · exact ends_ret plain onCpu user (-3)

/-- `wait`. -/
theorem wp_wait (sound : Sound s) (plain : Allows allowed s)
    {p : Process} (onCpu : s.OnCpu p) (user : s.mode = .user) (sem : Int)
    (mayAwait : ∀ x content, semOf s sem = some x →
      allowed (.awaitSem p sem x content) s) :
    wp (wait sem) (fun _ => Ends allowed calm s) (Stops allowed s) s := by
  have ok := sound.coherent
  have self := sound.hasPid_current onCpu
  have unlinked := ok.link_of_elected onCpu.1 onCpu.2
  rw [wait, wp_bind, wp_get]
  cases designates : semOf s sem with
  | none => exact ends_ret plain onCpu user (-1)
  | some x =>
      obtain ⟨low, high, entry, content, has⟩ := exists_of_semOf ok designates
      simp only [wp_bind]
      rw [wp_derefSem has.2, wp_ite]
      split
      · exact ends_ret plain onCpu user (-2)
      rename_i notLeast
      have above : -semaphoreMaxSize < content.count := not_le.mp notLeast
      have counted := short_decrement sound has above
      have decremented : (s.setSem x { content with
          count := short (content.count - 1) }).sems x =
          some { content with count := short (content.count - 1) } := by
        simp
      rw [wp_bind, decrement, wp_modifySem _ has.2, wp_bind,
        wp_derefSem decremented, wp_ite]
      split
      · rename_i negative
        have notPositive : content.count ≤ 0 := by
          have bound : short (content.count - 1) < 0 := negative
          omega
        have selfThen : (s.setSem x { content with
            count := short (content.count - 1) }).HasPid
              s.currentPid s.running p := self
        have blocked : ((s.setSem x { content with
            count := short (content.count - 1) }).setProc s.running
              { p with state := .inSem, waitedSem := sem }).procs s.running =
            some { p with state := .inSem, waitedSem := sem } := by
          simp
        rw [wp_bind, wp_get, wp_bind, KState.setSem_currentPid,
          wp_entry selfThen.1, wp_bind, wp_modifyProc _ selfThen.2, wp_bind,
          wp_queueAdd blocked unlinked, KState.setProc_relink]
        refine wp_leave sound plain
          (Moves.single (.awaitSem p sem x content)
            (mayAwait x content designates)
            ⟨user, onCpu, low, high, entry, has.2, above, notPositive⟩) rfl
          ⟨?_, ?_⟩ (by simp)
        · intro c inKernel
          have mode : s.mode = .kernel c := inKernel
          simp [user] at mode
        · exact ⟨_, Function.update_self .., by simp, rfl, rfl⟩
      · rename_i notNegative
        have positive : 0 < content.count := by
          have bound : ¬ short (content.count - 1) < 0 := notNegative
          omega
        rw [wp_bind, wp_get, wp_bind, wp_emit, wp_ret]
        exact ends_acquire plain onCpu user has positive

/-- The rest of `wait`, when the process gets the processor back. -/
theorem wp_waitTail (sound : Sound s) (plain : Allows allowed s)
    {p : Process} (onCpu : s.OnCpu p) {x : SemRef}
    (mode : s.mode = .kernel (.wait x)) (heard : ¬ s.Skipping) :
    wp (waitTail x) (fun _ t => Ends allowed calm s t ∧
        t = { s with
          mode := .user
          eax := if (s.sems x).any Semaphore.wasReset then -4 else 0 })
      (Stops allowed s) s := by
  have begun : Underway allowed calm s s := .refl onCpu
  have returns (value : Int) :
      Ends allowed calm s { s with mode := .user, eax := value } :=
    ends_resume plain begun (by simp [mode, Mode.Receiving]) heard value
  rw [waitTail, wp_bind, derefSem, wp_bind, wp_get]
  cases record : s.sems x with
  | none => trivial
  | some content =>
      have notDeleted := (sound.coherent.heap.shorts x content record).2.2
      simp only [wp_pure, notDeleted, Bool.false_eq_true, if_false, wp_ite,
        wp_ret]
      split
      · rename_i wasReset
        exact ⟨returns (-4), by simp [wasReset]⟩
      · rename_i notReset
        exact ⟨returns 0, by simp [notReset]⟩

/-! ## Resetting and deleting -/

/-- The running process stays so when waiters are woken up. -/
theorem release_onCpu (ok : Coherent s) {p : Process} (onCpu : s.OnCpu p)
    (x : SemRef) :
    (s.release x (s.lists (.sem x)).reverse).OnCpu p := by
  have unlinked := ok.link_of_elected onCpu.1 onCpu.2
  have kept : (s.release x (s.lists (.sem x)).reverse).running = s.running ∧
      (s.release x (s.lists (.sem x)).reverse).procs s.running = some p := by
    refine KState.releaseAll_keeps (I := fun t => t.running = s.running ∧
      t.procs s.running = some p) ok ?_ ⟨rfl, onCpu.1⟩
    rintro t r n ⟨running, record⟩ found link
    have other : s.running ≠ r := by
      rintro rfl
      rw [record, Option.some.injEq] at found
      simp [← found, unlinked] at link
    exact ⟨running, by simp [other, record]⟩
  exact ⟨kept.1 ▸ kept.2, onCpu.2⟩

theorem release_mode (refs : List ProcRef) (x : SemRef) :
    (s.release x refs).mode = s.mode := by
  obtain ⟨_, _, _, same⟩ := s.release_eq x refs
  rw [same]

/-- `sreset`. -/
theorem wp_sreset (sound : Sound s) (plain : Allows allowed s)
    {p : Process} (onCpu : s.OnCpu p) (user : s.mode = .user) (sem : Int)
    {count : Int} (high : count ≤ semaphoreMaxSize)
    (mayReset : ∀ x content, semOf s sem = some x → 0 ≤ count →
      allowed (.resetSem x content count) s) :
    wp (sreset sem count) (fun _ => Ends allowed calm s) (Stops allowed s)
      s := by
  have ok := sound.coherent
  rw [sreset, wp_bind, wp_get]
  cases designates : semOf s sem with
  | none => exact ends_ret plain onCpu user (-1)
  | some x =>
      obtain ⟨-, -, -, content, has⟩ := exists_of_semOf ok designates
      simp only [wp_ite]
      split
      · exact ends_ret plain onCpu user (-1)
      rename_i notNegative
      have nonneg : 0 ≤ count := not_lt.mp notNegative
      rw [wp_bind]
      refine wp_releaseAll ok ?_
      have record : (s.release x (s.lists (.sem x)).reverse).sems x =
          some content := by
        rw [KState.release_sems]
        exact has.2
      have onCpu' : ((Move.resetSem x content count).effect s).OnCpu p :=
        release_onCpu ok onCpu x
      have mode : ((Move.resetSem x content count).effect s).mode = .user :=
        (release_mode _ x).trans user
      rw [wp_bind, wp_modifySem _ record, wp_bind, wp_emit]
      exact wp_mono (wp_reschedule sound plain
        (.single (.resetSem x content count)
          (mayReset x content designates nonneg) ⟨has, nonneg, high⟩)
        (release_mode _ x) onCpu' mode 0) (fun _ _ scheduled => scheduled.ends calm)
        (fun _ _ stops => stops)

/-- `sdelete`, which ends in a page fault once the entry is null. -/
theorem wp_sdelete (sound : Sound s) (plain : Allows allowed s)
    {p : Process} (onCpu : s.OnCpu p) (user : s.mode = .user) (sem : Int)
    (mayDelete : ∀ x, semOf s sem = some x → allowed (.deleteSem sem x) s)
    (mayFault : ∀ t, t.mode = s.mode → allowed .fault t) :
    wp (sdelete sem) (fun _ => Ends allowed calm s) (Stops allowed s) s := by
  have ok := sound.coherent
  rw [sdelete, wp_bind, wp_get]
  cases designates : semOf s sem with
  | none => exact ends_ret plain onCpu user (-1)
  | some x =>
      obtain ⟨-, -, entry, -⟩ := exists_of_semOf ok designates
      simp only [wp_bind]
      refine wp_releaseAll ok ?_
      have deleted : Moves allowed s ((Move.deleteSem sem x).effect s) :=
        .single (.deleteSem sem x) (mayDelete x designates) entry
      have onCpu' : ((Move.deleteSem sem x).effect s).OnCpu p :=
        release_onCpu ok onCpu x
      have mode : ((Move.deleteSem sem x).effect s).mode = s.mode :=
        release_mode _ x
      have gone : ((Move.deleteSem sem x).effect s).semaphoreTable sem =
          none := by
        simp [Move.effect]
      rw [wp_bind, wp_modify]
      change wp _ _ _ ((Move.deleteSem sem x).effect s)
      rw [wp_bind, nbWaitingProc2, wp_bind, wp_get, gone]
      refine Moves.stops deleted (mayFault _ mode) ?_ onCpu'
      rintro ⟨k, n, inKernel, -⟩
      simp [mode, user] at inKernel

/-- `scount`. -/
theorem wp_scount (sound : Sound s) (plain : Allows allowed s)
    {p : Process} (onCpu : s.OnCpu p) (user : s.mode = .user) (sem : Int) :
    wp (scount sem) (fun _ => Ends allowed calm s) (Stops allowed s) s := by
  rw [scount, wp_bind, wp_get]
  cases designates : semOf s sem with
  | none => exact ends_ret plain onCpu user (-1)
  | some x =>
      obtain ⟨-, -, -, content, has⟩ :=
        exists_of_semOf sound.coherent designates
      simp only []
      rw [wp_bind, wp_derefSem has.2]
      exact ends_ret plain onCpu user _

end Semaphores

end Nebulea
