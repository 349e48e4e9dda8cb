import Nebulea.KernelListOrder

/-!
# Several signals at once

`signaln` checks once that the counter has room for all its units and then adds
them in a loop, while `signal` checks each unit on its own and reschedules its
caller after each process it wakes up.  Up to that rescheduling, and to the
`was_reset` flag, one `signaln` is as many signals.
-/

namespace Nebulea

open ExceptState

/-! ## The calls without their ends -/

/-- The end of a call: its value, and whether its caller is rescheduled. -/
def leave : Int × Bool → KM Unit
  | (value, true) => reschedule (.returning value)
  | (value, false) => ret value

/-- `signal`, up to its end. -/
def signalBody (sem : Int) : KM (Int × Bool) := do
  match semOf (← get) sem with
  | none => pure (-1, false)
  | some x => do
      if (← derefSem x).count ≥ semaphoreMaxSize then
        pure (-2, false)
      else do
        increment x
        if (← derefSem x).count ≤ 0 then do
          modifySem x fun content => { content with wasReset := false }
          wakeWaiter x
          pure (0, true)
        else
          pure (0, false)

/-- `signaln`, up to its end. -/
def signalnBody (sem count : Int) : KM (Int × Bool) := do
  match semOf (← get) sem with
  | none => pure (-1, false)
  | some x => do
      if count < 0 then
        pure (-2, false)
      else if (← derefSem x).count + count > semaphoreMaxSize then
        pure (-2, false)
      else do
        modifySem x fun content => { content with wasReset := false }
        signalLoop x count.toNat
        pure (0, true)

/-- Successive calls of `signal`, with the values they return. -/
def signalTimes (sem : Int) : Nat → KM (List Int)
  | 0 => pure []
  | turns + 1 => do
      let (value, _) ← signalBody sem
      let values ← signalTimes sem turns
      pure (value :: values)

theorem signal_eq (sem : Int) : signal sem = signalBody sem >>= leave := by
  simp only [signal, signalBody, bind_assoc]
  congr 1
  funext s
  cases semOf s sem with
  | none => rfl
  | some x =>
      simp only [bind_assoc]
      congr 1
      funext content
      split
      · rfl
      simp only [bind_assoc]
      congr 1
      funext _
      congr 1
      funext after
      split
      · simp only [bind_assoc, pure_bind]
        rfl
      · rfl

theorem signaln_eq (sem count : Int) :
    signaln sem count = signalnBody sem count >>= leave := by
  simp only [signaln, signalnBody, bind_assoc]
  congr 1
  funext s
  cases semOf s sem with
  | none => rfl
  | some x =>
      simp only []
      split
      · rfl
      simp only [bind_assoc]
      congr 1
      funext content
      split
      · rfl
      · simp only [bind_assoc, pure_bind]
        rfl

/-! ## One unit -/

namespace KState

/-- The state after a unit of `x` has gone to the process `r`. -/
def grant (s : KState) (x : SemRef) (r : ProcRef) (p : Process) : KState :=
  ({ s with
      procs := Function.update s.procs r (some { p with link := none })
      lists := Function.update s.lists (.sem x) (s.lists (.sem x)).dropLast
      trace := .granted x r :: s.trace }).wake r { p with link := none } none

theorem setSem_setSem (s : KState) (x : SemRef) (first second : Semaphore) :
    (s.setSem x first).setSem x second = s.setSem x second := by
  simp [setSem]

theorem setSem_self {s : KState} {x : SemRef} {content : Semaphore}
    (record : s.sems x = some content) : s.setSem x content = s := by
  rw [setSem, ← record, Function.update_eq_self]

/-- Flags of semaphores play no part in a wake-up. -/
theorem grant_setSem (s : KState) (x : SemRef) (content : Semaphore)
    (r : ProcRef) (p : Process) :
    (s.setSem x content).grant x r p = (s.grant x r p).setSem x content :=
  rfl

theorem grant_lists (s : KState) (x : SemRef) (r : ProcRef) (p : Process) :
    (s.grant x r p).lists (.sem x) = (s.lists (.sem x)).dropLast := by
  simp [grant, relinkLists]

/-- No record goes away. -/
theorem grant_record {s : KState} {x : SemRef} {r y : ProcRef} {p : Process}
    (present : ∃ n, s.procs y = some n) :
    ∃ n, (s.grant x r p).procs y = some n := by
  by_cases isR : y = r
  · exact ⟨_, by rw [isR]; exact Function.update_self ..⟩
  · simpa [grant, isR] using present

/-- `x` is the semaphore of identifier `sem`, with this content and this many
units due to its waiters. -/
structure Counts (s : KState) (sem : Int) (x : SemRef) (content : Semaphore) :
    Prop where
  designates : semOf s sem = some x
  record : s.sems x = some content
  low : -0x8000 ≤ content.count
  high : content.count < 0x8000
  waiting : ((s.lists (.sem x)).length : Int) = max 0 (-content.count)
  records : ∀ r ∈ s.lists (.sem x), ∃ p, s.procs r = some p

end KState

section Units

variable {s : KState} {sem : Int} {x : SemRef} {content : Semaphore}

theorem ok_of_wp {Value : Type} {program : KM Value} {value : Value}
    {t : KState} (rule : wp program (fun v u => v = value ∧ u = t)
      (fun _ _ => False) s) : program s = .ok value t := by
  unfold wp at rule
  cases outcome : program s with
  | ok v u =>
      rw [outcome] at rule
      rw [rule.1, rule.2]
  | error failure u =>
      rw [outcome] at rule
      exact absurd rule id

theorem wp_wakeWaiter_grant {post : Unit → KState → Prop}
    {fault : Fault → KState → Prop} {r : ProcRef} {p : Process}
    (next : s.NextOut (.sem x) r p) (woken : post () (s.grant x r p)) :
    wp (wakeWaiter x) post fault s := by
  have unchained : (({ s with
      procs := Function.update s.procs r (some { p with link := none })
      lists := Function.update s.lists (.sem x) (s.lists (.sem x)).dropLast
      }).note (.granted x r)).procs r = some { p with link := none } := by
    simp
  rw [wakeWaiter, wp_bind, queueOut, wp_bind, wp_get, next.1]
  simp only [wp_bind, wp_derefProc next.2, wp_modify, wp_pure, wp_emit]
  rw [wp_activate unchained rfl]
  exact woken

/-- The first waiter, when the counter says that there is one. -/
theorem KState.Counts.next (counts : s.Counts sem x content)
    (negative : content.count < 0) : ∃ r p, s.NextOut (.sem x) r p := by
  have waiting := counts.waiting
  cases last : (s.lists (.sem x)).getLast? with
  | none =>
      rw [List.getLast?_eq_none_iff.mp last] at waiting
      simp only [List.length_nil] at waiting
      omega
  | some r =>
      obtain ⟨p, record⟩ := counts.records r (List.mem_of_getLast? last)
      exact ⟨r, p, last, record⟩

/-- The state after one unit has come back, as `signaln` leaves it. -/
def KState.credit (s : KState) (x : SemRef) (content : Semaphore) : KState :=
  (s.setSem x { content with count := content.count + 1 }).note (.signalled x)

theorem KState.Counts.credit (counts : s.Counts sem x content)
    (room : content.count < semaphoreMaxSize)
    (nonneg : 0 ≤ content.count) :
    (s.credit x content).Counts sem x
      { content with count := content.count + 1 } := by
  obtain ⟨designates, record, low, high, waiting, records⟩ := counts
  unfold semaphoreMaxSize at room
  refine ⟨designates, Function.update_self .., by simp only; omega,
    by simp only; omega, ?_, records⟩
  change ((s.lists (.sem x)).length : Int) = _
  rw [waiting]
  simp only
  omega

theorem KState.Counts.grant (counts : s.Counts sem x content)
    (negative : content.count < 0) (r : ProcRef) (p : Process) :
    ((s.credit x content).grant x r p).Counts sem x
      { content with count := content.count + 1 } := by
  obtain ⟨designates, record, low, high, waiting, records⟩ := counts
  refine ⟨designates, Function.update_self .., by simp only; omega,
    by simp only; omega, ?_, ?_⟩
  · rw [grant_lists, List.length_dropLast]
    change (((s.lists (.sem x)).length - 1 : Nat) : Int) = _
    simp only
    omega
  · intro y member
    rw [grant_lists] at member
    exact grant_record (records y ((List.dropLast_sublist _).subset member))

/-- One unit comes back in the loop of `signaln`, and by a `signal` on the same
state with any flag: the results differ in the flag only. -/
theorem KState.Counts.unit (counts : s.Counts sem x content)
    (room : content.count < semaphoreMaxSize) :
    ∃ t, signalOnce x s = .ok () t ∧
      t.Counts sem x { content with count := content.count + 1 } ∧
      ∀ flag, ∃ left flag',
        signalBody sem (s.setSem x { content with wasReset := flag }) =
          .ok (0, left) (t.setSem x
            { content with count := content.count + 1, wasReset := flag' }) := by
  have counted : short (content.count + 1) = content.count + 1 := by
    have low := counts.low
    unfold semaphoreMaxSize at room
    exact short_eq (by omega) (by omega)
  have notFull : ¬ content.count ≥ semaphoreMaxSize := not_le.mpr room
  have credited : (s.credit x content).sems x =
      some { content with count := content.count + 1 } :=
    Function.update_self ..
  have flagged (flag : Bool) :
      (s.setSem x { content with wasReset := flag }).sems x =
        some { content with wasReset := flag } :=
    Function.update_self ..
  have creditedToo (flag : Bool) :
      ((s.credit x content).setSem x
        { content with count := content.count + 1, wasReset := flag }).sems x =
        some { content with count := content.count + 1, wasReset := flag } :=
    Function.update_self ..
  have sameCredit (flag : Bool) :
      ((s.setSem x { content with wasReset := flag }).setSem x
        { content with count := content.count + 1, wasReset := flag }).note
          (.signalled x) =
        (s.credit x content).setSem x
          { content with count := content.count + 1, wasReset := flag } := by
    simp [KState.credit, KState.setSem, KState.note]
  by_cases negative : content.count < 0
  · have due : content.count + 1 ≤ 0 := by omega
    obtain ⟨r, p, next⟩ := counts.next negative
    refine ⟨(s.credit x content).grant x r p, ?_, counts.grant negative r p, ?_⟩
    · apply ok_of_wp
      rw [signalOnce, wp_bind, increment, wp_bind,
        wp_modifySem _ counts.record, wp_emit, counted]
      change wp _ _ _ (s.credit x content)
      rw [wp_bind, wp_derefSem credited, wp_ite, if_pos due]
      exact wp_wakeWaiter_grant next ⟨rfl, rfl⟩
    · intro flag
      refine ⟨true, false, ok_of_wp ?_⟩
      rw [signalBody, wp_bind, wp_get]
      change wp (match semOf s sem with | none => _ | some x => _) _ _ _
      rw [counts.designates]
      simp only []
      rw [wp_bind, wp_derefSem (flagged flag), wp_ite, if_neg notFull, wp_bind,
        increment, wp_bind, wp_modifySem _ (flagged flag), wp_emit]
      simp only [counted]
      rw [sameCredit, wp_bind, wp_derefSem (creditedToo flag), wp_ite,
        if_pos due, wp_bind, wp_modifySem _ (creditedToo flag), wp_bind]
      refine wp_wakeWaiter_grant next ?_
      rw [wp_pure]
      refine ⟨rfl, ?_⟩
      rw [KState.setSem_setSem, KState.grant_setSem]
  · have nonneg : 0 ≤ content.count := not_lt.mp negative
    have notDue : ¬ content.count + 1 ≤ 0 := by omega
    refine ⟨s.credit x content, ?_, counts.credit room nonneg, ?_⟩
    · apply ok_of_wp
      rw [signalOnce, wp_bind, increment, wp_bind,
        wp_modifySem _ counts.record, wp_emit, counted]
      change wp _ _ _ (s.credit x content)
      rw [wp_bind, wp_derefSem credited, wp_ite, if_neg notDue, wp_pure]
      exact ⟨rfl, rfl⟩
    · intro flag
      refine ⟨false, flag, ok_of_wp ?_⟩
      rw [signalBody, wp_bind, wp_get]
      change wp (match semOf s sem with | none => _ | some x => _) _ _ _
      rw [counts.designates]
      simp only []
      rw [wp_bind, wp_derefSem (flagged flag), wp_ite, if_neg notFull, wp_bind,
        increment, wp_bind, wp_modifySem _ (flagged flag), wp_emit]
      simp only [counted]
      rw [sameCredit, wp_bind, wp_derefSem (creditedToo flag), wp_ite,
        if_neg notDue, wp_pure]
      exact ⟨rfl, rfl⟩

theorem KState.Counts.flag (counts : s.Counts sem x content) (flag : Bool) :
    (s.setSem x { content with wasReset := flag }).Counts sem x
      { content with wasReset := flag } :=
  ⟨counts.designates, Function.update_self .., counts.low, counts.high,
    counts.waiting, counts.records⟩

/-- A full semaphore refuses. -/
theorem KState.Counts.full (counts : s.Counts sem x content)
    (full : semaphoreMaxSize ≤ content.count) :
    signalBody sem s = .ok (-2, false) s := by
  apply ok_of_wp
  rw [signalBody, wp_bind, wp_get]
  simp only [counts.designates]
  rw [wp_bind, wp_derefSem counts.record, wp_ite, if_pos full, wp_pure]
  exact ⟨rfl, rfl⟩

/-! ## Many units -/

theorem bind_of_ok {First Second : Type} {first : KM First}
    {second : First → KM Second} {value : First} {t : KState}
    (returned : first s = .ok value t) :
    (first >>= second) s = second value t := by
  change EStateM.bind first second s = _
  unfold EStateM.bind
  rw [returned]

/-- A full semaphore refuses however often it is asked. -/
theorem KState.Counts.fullTimes (counts : s.Counts sem x content)
    (full : semaphoreMaxSize ≤ content.count) (turns : Nat) :
    signalTimes sem turns s = .ok (List.replicate turns (-2)) s := by
  induction turns with
  | zero => rfl
  | succ turns ih =>
      rw [signalTimes, bind_of_ok (counts.full full)]
      simp only []
      rw [bind_of_ok ih]
      rfl

/-- The loop of `signaln` and as many signals, in step: the signals all succeed
if and only if there is room for all of them. -/
theorem KState.Counts.times (counts : s.Counts sem x content) (turns : Nat)
    (flag : Bool) :
    ∃ values t after, signalTimes sem turns
        (s.setSem x { content with wasReset := flag }) = .ok values t ∧
      t.sems x = some after ∧
      ((∀ value ∈ values, value = 0) ↔
        content.count + turns ≤ semaphoreMaxSize) ∧
      (content.count + turns ≤ semaphoreMaxSize →
        signalLoop x turns s = .ok ()
          (t.setSem x { after with wasReset := content.wasReset })) := by
  induction turns generalizing s content flag with
  | zero =>
      have high := counts.high
      refine ⟨[], _, _, rfl, Function.update_self .., ?_, ?_⟩
      · unfold semaphoreMaxSize
        simp only [List.not_mem_nil, false_implies, implies_true, true_iff]
        omega
      · intro _
        rw [KState.setSem_setSem, KState.setSem_self counts.record]
        rfl
  | succ turns ih =>
      by_cases room : content.count < semaphoreMaxSize
      · obtain ⟨between, once, counted, body⟩ := counts.unit room
        obtain ⟨left, flag', isBody⟩ := body flag
        obtain ⟨values, t, after, run, record, zeros, loop⟩ := ih counted flag'
        refine ⟨0 :: values, t, after, ?_, record, ?_, ?_⟩
        · rw [signalTimes, bind_of_ok isBody]
          simp only []
          rw [bind_of_ok run]
          rfl
        · rw [List.forall_mem_cons, zeros]
          push_cast
          simp only [true_and]
          omega
        · intro fits
          push_cast at fits
          rw [signalLoop, bind_of_ok once]
          exact loop (by simp only; omega)
      · have full : semaphoreMaxSize ≤ content.count := not_lt.mp room
        refine ⟨_, _, _, (counts.flag flag).fullTimes full (turns + 1),
          Function.update_self .., ?_, ?_⟩
        · constructor
          · intro all
            have refused : (-2 : Int) = 0 :=
              all (-2) (List.mem_replicate.mpr ⟨by omega, rfl⟩)
            omega
          · intro fits
            push_cast at fits
            omega
        · intro fits
          push_cast at fits
          omega

end Units

/-- On every semaphore whose waiters are those its counter says, `signaln`
returns 0 if and only if as many calls of `signal` all do, and then the states
differ in the `was_reset` flag only, up to the rescheduling of the caller; or
else it returns -2 and changes nothing. -/
theorem signaln_refines_signals {s : KState} {sem : Int} {x : SemRef}
    {content : Semaphore} (counts : s.Counts sem x content) (n : Nat) :
    signal sem = signalBody sem >>= leave ∧
    signaln sem n = signalnBody sem n >>= leave ∧
    ∃ values t after, signalTimes sem n s = .ok values t ∧
      t.sems x = some after ∧
      ((∃ u, signalnBody sem n s = .ok (0, true) u) ↔
        ∀ value ∈ values, value = 0) ∧
      ((∀ value ∈ values, value = 0) →
        signalnBody sem n s =
          .ok (0, true) (t.setSem x { after with wasReset := false })) ∧
      ((¬ ∀ value ∈ values, value = 0) →
        signalnBody sem n s = .ok (-2, false) s) := by
  refine ⟨signal_eq sem, signaln_eq sem n, ?_⟩
  have cleared := counts.flag false
  obtain ⟨values, t, after, run, record, zeros, loop⟩ :=
    cleared.times n content.wasReset
  rw [KState.setSem_setSem, KState.setSem_self counts.record] at run
  have accepts (fits : content.count + n ≤ semaphoreMaxSize) :
      signalnBody sem n s =
        .ok (0, true) (t.setSem x { after with wasReset := false }) := by
    apply ok_of_wp
    rw [signalnBody, wp_bind, wp_get]
    simp only [counts.designates]
    rw [wp_ite, if_neg (by omega), wp_bind, wp_derefSem counts.record, wp_ite,
      if_neg (by omega), wp_bind, wp_modifySem _ counts.record, wp_bind,
      Int.toNat_natCast]
    unfold wp
    rw [loop fits]
    exact ⟨rfl, rfl⟩
  have refuses (exceeds : ¬ content.count + n ≤ semaphoreMaxSize) :
      signalnBody sem n s = .ok (-2, false) s := by
    apply ok_of_wp
    rw [signalnBody, wp_bind, wp_get]
    simp only [counts.designates]
    rw [wp_ite, if_neg (by omega), wp_bind, wp_derefSem counts.record, wp_ite,
      if_pos (by omega), wp_pure]
    exact ⟨rfl, rfl⟩
  refine ⟨values, t, after, run, record, ?_, ?_, ?_⟩
  · rw [zeros]
    constructor
    · rintro ⟨u, returned⟩
      by_contra exceeds
      rw [refuses exceeds] at returned
      cases returned
    · exact fun fits => ⟨_, accepts fits⟩
  · exact fun all => accepts (zeros.mp all)
  · exact fun notAll => refuses (mt zeros.mpr notAll)

/-- Two units for three waiters. -/
theorem two_units_for_three_waiters :
    ∃ (s t : KState) (after : Semaphore), Reachable s ∧
      s.lists (.sem 2) = [5, 4, 3] ∧
      signalTimes 0 2 s = .ok [0, 0] t ∧
      signalnBody 0 2 s =
        .ok (0, true) (t.setSem 2 { after with wasReset := false }) := by
  obtain ⟨s, -, reached, checked⟩ := exists_of_runActions
    ["idle", "autotest", "a", "b", "c"] threeWaiters
    (fun s => s.lists (.sem 2) == [5, 4, 3] && semOf s 0 == some 2 &&
      s.sems 2 == some ⟨0, -3, false, false⟩ && match signalTimes 0 2 s with
        | .ok values _ => values == [0, 0]
        | .error _ _ => false)
    (by decide) (by decide) (by decide +kernel)
  simp only [Bool.and_eq_true, beq_iff_eq] at checked
  obtain ⟨⟨⟨list, designates⟩, record⟩, succeed⟩ := checked
  have counts : s.Counts 0 2 ⟨0, -3, false, false⟩ := by
    refine ⟨designates, record, by decide, by decide, by rw [list]; decide, ?_⟩
    intro r member
    obtain ⟨p, found, -⟩ := reached.settled.sound.coherent.record_of_mem member
    exact ⟨p, found⟩
  obtain ⟨-, -, values, t, after, run, -, -, agree, -⟩ :=
    signaln_refines_signals counts 2
  rw [run] at succeed
  have isZeros : values = [0, 0] := eq_of_beq succeed
  refine ⟨s, t, after, reached, list, isZeros ▸ run, agree ?_⟩
  simp [isZeros]

end Nebulea
