import Nebulea.KernelMoveCoherence

/-!
# The books of a semaphore

The counter of a semaphore, the length of its waiting list and the numbers of
units signalled and granted so far change together.  One lemma says how for all
moves; the bounds of the counter and the balance of the books follow from it.
-/

namespace Nebulea

/-- A value in the range of `short int` is left alone by the conversion. -/
theorem short_eq {value : Int} (low : -0x8000 ≤ value)
    (high : value < 0x8000) : short value = value := by
  unfold short
  rw [Int.bmod_eq_of_le] <;> omega

namespace KState

/-- The number of processes waiting for a semaphore. -/
def waiters (s : KState) (x : SemRef) : Int :=
  (s.lists (.sem x)).length

/-- Leaving and entering lists changes their lengths by one. -/
theorem relinkLists_length (s : KState) (r : ProcRef) (p : Process)
    (source target : Option Head) (h : Head)
    (member : source = some h → r ∈ s.lists h) :
    ((s.relinkLists r p source target h).length : Int) =
      (s.lists h).length - (if source = some h then 1 else 0) +
        (if target = some h then 1 else 0) := by
  have unchained : ((s.relinkLists r p source none h).length : Int) =
      (s.lists h).length - (if source = some h then 1 else 0) := by
    cases source with
    | none => simp [relinkLists]
    | some g =>
        by_cases same : g = h
        · subst same
          have positive := List.length_pos_of_mem (member rfl)
          simp only [relinkLists, Function.update_self, if_true,
            List.length_erase_of_mem (member rfl)]
          omega
        · have other : h ≠ g := fun equal => same equal.symm
          simp [relinkLists, other, same]
  cases target with
  | none => simpa using unchained
  | some g =>
      change ((Function.update (s.relinkLists r p source none) g
        ((s.relinkLists r p source none g).orderedInsert _ r) h).length : Int)
          = _
      by_cases same : g = h
      · subst same
        rw [Function.update_self, List.orderedInsert_length,
          Int.natCast_add, Int.natCast_one, unchained, if_pos rfl]
      · have other : h ≠ g := fun equal => same equal.symm
        have otherSome : some g ≠ some h := by simpa using same
        rw [Function.update_of_ne other, unchained, if_neg otherSome,
          Int.add_zero]

end KState

/-- The units added to a semaphore. -/
def signals (x : SemRef) (trace : List Event) : Nat :=
  trace.countP fun e => e == .signalled x

def Event.isGrant (x : SemRef) : Event → Bool
  | .granted y _ => y == x
  | _ => false

/-- The acquisitions of a semaphore that were granted. -/
def grants (x : SemRef) (trace : List Event) : Nat :=
  trace.countP (Event.isGrant x)

namespace Move

/-- The units a move adds to a semaphore. -/
def signals (x : SemRef) : Move → Nat
  | .post y _ | .postWake y _ _ _ _ => if y = x then 1 else 0
  | _ => 0

/-- The acquisitions a move grants. -/
def grants (x : SemRef) : Move → Nat
  | .acquire y _ | .postWake y _ _ _ _ => if y = x then 1 else 0
  | _ => 0

/-- Moves after which the books of a semaphore start again. -/
def Restarts (s : KState) (x : SemRef) : Move → Prop
  | .newSem _ _ => x = s.nextRef
  | .resetSem y _ _ => x = y
  | _ => False

end Move

/-- Counters are in range and tell the length of the waiting list. -/
def SemOk (s : KState) : Prop :=
  ∀ x c, s.HasSem x c → -semaphoreMaxSize ≤ c.count ∧
    c.count ≤ semaphoreMaxSize ∧ s.waiters x = max 0 (-c.count)

namespace Move

/-- What a move does to the books of semaphore `x`, whose record after the
move is `n`. -/
def KeepsBooks (s t : KState) (m : Move) (x : SemRef) (n : Semaphore) :
    Prop :=
  (m.Restarts s x ∨ ∃ c, s.HasSem x c ∧
      n.count + t.waiters x + m.grants x =
        c.count + s.waiters x + m.signals x) ∧
    -semaphoreMaxSize ≤ n.count ∧ n.count ≤ semaphoreMaxSize ∧
    t.waiters x = max 0 (-n.count)

variable {s t : KState} {m : Move} {x : SemRef} {n : Semaphore}

theorem KeepsBooks.frame (sem : SemOk s) (before : s.HasSem x n)
    (lists : t.waiters x = s.waiters x) (noSignal : m.signals x = 0)
    (noGrant : m.grants x = 0) : KeepsBooks s t m x n := by
  obtain ⟨low, high, length⟩ := sem x n before
  refine ⟨.inr ⟨n, before, ?_⟩, low, high, lists.trans length⟩
  rw [lists, noSignal, noGrant]

/-- A process moves between lists of other heads. -/
theorem waiters_relink (s : KState) (r : ProcRef) (p : Process)
    (source target : Option Head) (fromOther : source ≠ some (.sem x))
    (toOther : target ≠ some (.sem x)) :
    (s.relink r p source target).waiters x = s.waiters x := by
  have length := s.relinkLists_length r p source target (.sem x)
    (fun equal => absurd equal fromOther)
  rw [if_neg fromOther, if_neg toOther] at length
  simpa [KState.waiters] using length

theorem waiters_releaseAll (ok : Coherent s) {y : SemRef} (other : x ≠ y) :
    (s.release y (s.lists (.sem y)).reverse).waiters x = s.waiters x := by
  refine KState.releaseAll_keeps (I := fun t => t.waiters x = s.waiters x) ok
    ?_ rfl
  intro t r p same _ _
  refine Eq.trans (waiters_relink t _ _ _ _ ?_ (by simp)) same
  simpa using fun equal : y = x => other equal.symm

/-- The end of a process takes it out of the list of its semaphore and gives
its unit back. -/
theorem KeepsBooks.ending (sem : SemOk s) (ok : Coherent s) {r : ProcRef}
    {p : Process} (c : Process) (target : Option Head)
    (record : s.procs r = some p) (toOther : target ≠ some (.sem x))
    (has : ((s.giveBack p).relink r c p.link target).HasSem x n)
    (lists : t.waiters x =
      ((s.giveBack p).relink r c p.link target).waiters x)
    (noSignal : m.signals x = 0) (noGrant : m.grants x = 0) :
    KeepsBooks s t m x n := by
  have linked := ok.procs.linked r p record
  by_cases waits : p.link = some (.sem x)
  · obtain ⟨state, entry⟩ := linked.state_of_link waits
    obtain ⟨-, -, content, found, -⟩ := ok.heap.semTable _ _ entry
    have member := ok.lists.mem_of_link record waits
    have length := (s.giveBack p).relinkLists_length r c p.link target (.sem x)
      (fun _ => member)
    rw [if_pos waits, if_neg toOther] at length
    have before : s.HasSem x content := ⟨⟨_, entry⟩, found⟩
    obtain ⟨low, high, waiting⟩ := sem x content before
    have positive : 0 < (s.lists (.sem x)).length :=
      List.length_pos_of_mem member
    have isN : { content with count := short (content.count + 1) } = n := by
      simpa [state, entry, found] using has.2
    have fewer : t.waiters x = s.waiters x - 1 := by
      rw [lists]
      simpa [KState.waiters] using length
    have isWaiters : s.waiters x = ((s.lists (.sem x)).length : Int) := rfl
    have isShort : short (content.count + 1) = content.count + 1 := by
      unfold semaphoreMaxSize at low
      refine short_eq ?_ ?_ <;> omega
    have isCount : n.count = content.count + 1 := by
      rw [← isN]
      exact isShort
    refine ⟨.inr ⟨content, before, ?_⟩, ?_, ?_, ?_⟩
    · rw [noSignal, noGrant]
      omega
    · omega
    · omega
    · omega
  · have same : s.HasSem x n := by
      refine ⟨has.1, ?_⟩
      have after := has.2
      simp only [KState.relink_sems, KState.giveBack_sems] at after
      split at after
      · rename_i state
        obtain ⟨y, entry, link⟩ : ∃ y,
            s.semaphoreTable p.waitedSem = some y ∧ p.link = some (.sem y) := by
          simpa [KState.LinkOk, state] using linked
        have other : x ≠ y := by
          rintro rfl
          exact waits link
        obtain ⟨-, -, content, found, -⟩ := ok.heap.semTable _ _ entry
        simpa [entry, found, other] using after
      · exact after
    refine .frame sem same ?_ noSignal noGrant
    rw [lists]
    exact waiters_relink (s.giveBack p) r c p.link target waits toOther

/-- A counter changes together with the waiting list. -/
theorem KeepsBooks.count {c : Semaphore} (before : s.HasSem x c)
    (low : -semaphoreMaxSize ≤ n.count) (high : n.count ≤ semaphoreMaxSize)
    (waiting : t.waiters x = max 0 (-n.count))
    (balance : n.count + t.waiters x + m.grants x =
      c.count + s.waiters x + m.signals x) : KeepsBooks s t m x n :=
  ⟨.inr ⟨c, before, balance⟩, low, high, waiting⟩

/-- The record of one semaphore is written. -/
theorem KeepsBooks.write (sem : SemOk s) {y : SemRef} {after : Semaphore}
    (has : t.HasSem x n) (table : t.semaphoreTable = s.semaphoreTable)
    (sems : t.sems = Function.update s.sems y (some after))
    (others : x ≠ y →
      t.waiters x = s.waiters x ∧ m.signals x = 0 ∧ m.grants x = 0)
    (written : y = x → n = after → KeepsBooks s t m x n) :
    KeepsBooks s t m x n := by
  obtain ⟨entry, found⟩ := has
  rw [sems] at found
  by_cases same : x = y
  · subst same
    rw [Function.update_self, Option.some.injEq] at found
    exact written rfl found.symm
  · rw [Function.update_of_ne same] at found
    obtain ⟨lists, noSignal, noGrant⟩ := others same
    exact .frame sem ⟨table ▸ entry, found⟩ lists noSignal noGrant

/-- A process enters or leaves the list of one semaphore. -/
theorem waiters_relink_of_ne (s : KState) (r : ProcRef) (p : Process)
    {source target : Option Head} {y : SemRef} (other : x ≠ y)
    (fromY : ∀ z, source = some (.sem z) → z = y)
    (toY : ∀ z, target = some (.sem z) → z = y) :
    (s.relink r p source target).waiters x = s.waiters x :=
  waiters_relink s r p source target (fun isX => other (fromY x isX))
    (fun isX => other (toY x isX))

theorem keepsBooks (sem : SemOk s) (ok : Coherent s) (applies : m.Guard s)
    (has : (m.effect s).HasSem x n) : KeepsBooks s (m.effect s) m x n := by
  have elected {p : Process} (onCpu : s.OnCpu p) : p.link = none :=
    ok.link_of_elected onCpu.1 onCpu.2
  cases m with
  | settle | fault | note | tick | sleep | orphan | clearSkip | refuse
  | newQueue | deleteQueue | resetQueue | put | take | receive =>
      exact .frame sem has rfl rfl rfl
  | purge keep =>
      refine .frame sem has ?_ rfl rfl
      simp [KState.waiters, effect]
  | yield | awaitChild | awaitReceive | wakeSleeper | flush =>
      exact .frame sem has (waiters_relink s _ _ _ _ (by simp) (by simp)) rfl rfl
  | awaitSend p fid q message =>
      exact .frame sem has
        (waiters_relink (s.note _) _ _ _ _ (by simp) (by simp)) rfl rfl
  | dispatch k r p old restored =>
      exact .frame sem has (waiters_relink s r { p with state := .elected }
        (some .activable) none (by simp) (by simp)) rfl rfl
  | create pid prio p children =>
      exact .frame sem has
        (waiters_relink (s.adopt pid prio p children) _ _ _ _ (by simp)
          (by simp))
        rfl rfl
  | createElect pid prio p children =>
      exact .frame sem has
        (waiters_relink (s.adopt pid prio p children) s.running
          { p with
            children := some (addChild ⟨pid, 1⟩ children)
            state := .activable } none (some .activable) (by simp) (by simp))
        rfl rfl
  | finish pid r p =>
      exact .frame sem has (waiters_relink s r { p with state := .finished }
        none (some .finished) (by simp) (by simp)) rfl rfl
  | reap pid r p caller children =>
      exact .frame sem has
        (waiters_relink (s.setProc s.running
          { caller with children := some children }) r
          { p with state := .finished } none (some .finished) (by simp)
          (by simp)) rfl rfl
  | refill q content r p =>
      exact .frame sem has
        (waiters_relink (((s.note
          (.take q s.running (content.buffer content.tail))).setQueue q
            (content.skip.write p.message)).note (.put q r p.message))
          _ _ _ _ (by simp) (by simp)) rfl rfl
  | handOver q content message sender r p restored =>
      refine .frame sem has ?_ rfl rfl
      have first := waiters_relink (x := x) (((s.note
        (.sending s.running q message)).setQueue q
          (content.push message)).note (.put q s.running message)) r
            { p with state := .elected } (some (.queue q)) none (by simp)
            (by simp)
      exact (waiters_relink _ s.running
        { sender with message := message, state := .activable } none
        (some .activable) (by simp) (by simp)).trans first
  | reprio r p newprio =>
      refine .frame sem has ?_ rfl rfl
      have length := s.relinkLists_length r { p with priority := newprio }
        p.link p.link (.sem x) (fun link => ok.lists.mem_of_link applies.1 link)
      rw [Int.sub_add_cancel] at length
      simpa [KState.waiters, effect] using length
  | endProcess pid r p how father =>
      obtain ⟨pidOf, -, -, -, woken⟩ := applies
      cases father with
      | none =>
          exact .ending sem ok
            { p with retval := how.retval, state := .zombie } none pidOf.2
            (by simp) has rfl rfl rfl
      | some father =>
          refine .ending sem ok
            { p with retval := how.retval, state := .zombie } none pidOf.2
            (by simp) has ?_ rfl rfl
          exact waiters_relink _ father.1
            { father.2 with waitedPid := pid, state := .activable }
            (some .waitingPid) (some .activable) (by simp) (by simp)
  | endFatherless pid r p how =>
      exact .ending sem ok
        { p with retval := how.retval, state := .finished } (some .finished)
        applies.1.2 (by simp) has rfl rfl rfl
  | awaitSem p i y content =>
      obtain ⟨-, onCpu, -, -, entry, found, low, high⟩ := applies
      refine .write sem has rfl rfl (fun other => ⟨?_, rfl, rfl⟩) ?_
      · exact waiters_relink_of_ne (s.setSem y
          { content with count := short (content.count - 1) }) s.running
          { p with state := .inSem, waitedSem := i } other (by simp)
          (by simp [eq_comm])
      · rintro rfl isN
        have before : s.HasSem y content := ⟨⟨i, entry⟩, found⟩
        obtain ⟨-, -, waiting⟩ := sem y content before
        have length := s.relinkLists_length s.running
          { p with state := .inSem, waitedSem := i } none (some (.sem y))
          (.sem y) (by simp)
        have more : ((awaitSem p i y content).effect s).waiters y =
            s.waiters y + 1 :=
          length.trans (by simp [KState.waiters])
        have isCount : n.count = content.count - 1 := by
          rw [isN]
          unfold semaphoreMaxSize at low
          refine short_eq ?_ ?_ <;> omega
        unfold semaphoreMaxSize at low
        refine .count before ?_ ?_ ?_ ?_ <;>
          try simp only [signals, grants, semaphoreMaxSize]
        all_goals omega
  | newSem i count =>
      obtain ⟨-, -, free, low, high⟩ := applies
      by_cases isNew : x = s.nextRef
      · subst isNew
        have isN : (⟨i, count, false, false⟩ : Semaphore) = n := by
          simpa [effect] using has.2
        have empty : ((newSem i count).effect s).waiters s.nextRef = 0 := by
          simp [KState.waiters, effect]
        have isCount : n.count = count := by
          rw [← isN]
        refine ⟨.inl rfl, ?_, ?_, ?_⟩ <;>
          simp only [semaphoreMaxSize] at high ⊢ <;> omega
      · obtain ⟨⟨j, entry⟩, found⟩ := has
        have notI : j ≠ i := by
          rintro rfl
          simp only [effect, Function.update_self, Option.some.injEq] at entry
          exact isNew entry.symm
        refine .frame sem ⟨⟨j, ?_⟩, ?_⟩ ?_ rfl rfl
        · simpa [effect, notI] using entry
        · simpa [effect, isNew] using found
        · simp [KState.waiters, effect, isNew]
  | acquire y content =>
      obtain ⟨before, positive⟩ := applies
      refine .write sem has rfl rfl
        (fun other => ⟨rfl, rfl, by simp [grants, other.symm]⟩) ?_
      rintro rfl isN
      obtain ⟨low, high, waiting⟩ := sem y content before
      have isCount : n.count = content.count - 1 := by
        rw [isN]
        unfold semaphoreMaxSize at high
        refine short_eq ?_ ?_ <;> omega
      have sameWaiters : ((acquire y content).effect s).waiters y =
          s.waiters y := rfl
      refine .count before ?_ ?_ ?_ ?_ <;>
        simp only [signals, grants, semaphoreMaxSize, if_true] at low high ⊢
          <;> omega
  | post y content =>
      obtain ⟨before, nonneg, below⟩ := applies
      refine .write sem has rfl rfl
        (fun other => ⟨rfl, by simp [signals, other.symm], rfl⟩) ?_
      rintro rfl isN
      obtain ⟨low, high, waiting⟩ := sem y content before
      have isCount : n.count = content.count + 1 := by
        rw [isN]
        unfold semaphoreMaxSize at below
        refine short_eq ?_ ?_ <;> omega
      have sameWaiters : ((post y content).effect s).waiters y =
          s.waiters y := rfl
      refine .count before ?_ ?_ ?_ ?_ <;>
        simp only [signals, grants, semaphoreMaxSize, if_true]
          at low below ⊢ <;> omega
  | postWake y content r p clear =>
      obtain ⟨before, negative, next⟩ := applies
      refine .write sem has rfl rfl (fun other => ⟨?_,
        by simp [signals, other.symm], by simp [grants, other.symm]⟩) ?_
      · exact waiters_relink_of_ne (((s.setSem y
          { content with
            count := short (content.count + 1)
            wasReset := content.wasReset && !clear }).note
              (.signalled y)).note (.granted y r)) r
          { p with state := .activable } other (by simp [eq_comm]) (by simp)
      · rintro rfl isN
        obtain ⟨low, high, waiting⟩ := sem y content before
        have length := s.relinkLists_length r { p with state := .activable }
          (some (.sem y)) (some .activable) (.sem y)
          (fun _ => List.mem_of_getLast? next.1)
        have isCount : n.count = content.count + 1 := by
          rw [isN]
          unfold semaphoreMaxSize at low
          refine short_eq ?_ ?_ <;> omega
        have fewer : ((postWake y content r p clear).effect s).waiters y =
            s.waiters y - 1 :=
          length.trans (by simp [KState.waiters])
        refine .count before ?_ ?_ ?_ ?_ <;>
          simp only [signals, grants, semaphoreMaxSize, if_true]
            at low ⊢ <;> omega
  | clearReset y content =>
      refine .write sem has rfl rfl (fun _ => ⟨rfl, rfl, rfl⟩) ?_
      rintro rfl isN
      obtain ⟨low, high, waiting⟩ := sem y content applies
      have isCount : n.count = content.count := by rw [isN]
      refine .count applies ?_ ?_ ?_ ?_ <;> rw [isCount]
      · exact low
      · exact high
      · exact waiting
      · rfl
  | resetSem y content count =>
      obtain ⟨before, low, high⟩ := applies
      have sems : ((resetSem y content count).effect s).sems =
          Function.update s.sems y
            (some { content with count := count, wasReset := true }) := by
        funext z
        by_cases isY : z = y <;> simp [effect, isY]
      have table : ((resetSem y content count).effect s).semaphoreTable =
          s.semaphoreTable :=
        funext (by simp [effect])
      refine .write sem has table sems
        (fun other => ⟨waiters_releaseAll ok other, rfl, rfl⟩) ?_
      rintro rfl isN
      have isCount : n.count = count := by rw [isN]
      have empty : ((resetSem y content count).effect s).waiters y = 0 := by
        simp [KState.waiters, effect, KState.releaseAll_lists_sem ok]
      refine ⟨.inl rfl, ?_, ?_, ?_⟩ <;>
        simp only [semaphoreMaxSize] at high ⊢ <;> omega
  | deleteSem i y =>
      have isDeleted : s.semaphoreTable i = some y := applies
      obtain ⟨⟨j, entry⟩, found⟩ := has
      have notI : j ≠ i := by
        rintro rfl
        simp [effect] at entry
      have entry' : s.semaphoreTable j = some x := by
        simpa [effect, notI] using entry
      have other : x ≠ y := by
        rintro rfl
        exact notI (ok.heap.semTable_inj entry' isDeleted)
      refine .frame sem ⟨⟨j, entry'⟩, ?_⟩ (waiters_releaseAll ok other) rfl rfl
      simpa [effect] using found

end Move

theorem SemOk.move {s : KState} {m : Move} (sem : SemOk s) (ok : Coherent s)
    (applies : m.Guard s) : SemOk (m.effect s) := by
  intro x n has
  obtain ⟨-, low, high, length⟩ := Move.keepsBooks sem ok applies has
  exact ⟨low, high, length⟩

end Nebulea
