import Nebulea.KernelWakeups
import Nebulea.SemaphoreDeletion

/-!
# Why a process comes back from `wait`

`signal`, `signaln` and `sreset` leave the reason of a wake-up in `was_reset`,
which all the processes of the semaphore share.  A process reads it only when
it gets the processor, so it learns the right reason as long as no other call
has changed the flag by then.
-/

namespace Nebulea

open ExceptState

/-- The value that the move assigns to the `was_reset` of `x`. -/
def Move.setsReset (x : SemRef) : Move → Option Bool
  | .postWake y _ _ _ true | .clearReset y _ =>
      if y = x then some false else none
  | .resetSem y _ _ => if y = x then some true else none
  | _ => none

/-- The `was_reset` of `x` has this value. -/
def KState.WasReset (s : KState) (x : SemRef) (value : Bool) : Prop :=
  ∃ content, s.sems x = some content ∧ content.wasReset = value

namespace Action

/-- The action signals the semaphore `x`. -/
def Signals (x : SemRef) (s : KState) (a : Action) : Prop :=
  ∃ sem, semOf s sem = some x ∧
    (a = .call (.signal sem) ∨ ∃ count, a = .call (.signaln sem count))

/-- The action resets the semaphore `x`. -/
def Resets (x : SemRef) (s : KState) (a : Action) : Prop :=
  ∃ sem count, semOf s sem = some x ∧ a = .call (.sreset sem count) ∧
    0 ≤ short count

/-- The action signals `x` and clears its `was_reset`. -/
def Clears (x : SemRef) (s : KState) (a : Action) : Prop :=
  ∃ sem content, semOf s sem = some x ∧ s.sems x = some content ∧
    (a = .call (.signal sem) ∧ content.count < 0 ∨
      ∃ count, a = .call (.signaln sem count) ∧ 0 ≤ short count ∧
        content.count + short count ≤ semaphoreMaxSize)

/-- The action does not change the `was_reset` of `x`. -/
def KeepsReset (x : SemRef) (s : KState) (a : Action) : Prop :=
  (a.Clears x s → s.WasReset x false) ∧ (a.Resets x s → s.WasReset x true)

variable {x : SemRef} {s : KState} {a : Action}

theorem Clears.signals (clears : a.Clears x s) : a.Signals x s := by
  obtain ⟨sem, content, designates, -, ⟨isCall, -⟩ | ⟨count, isCall, -⟩⟩ :=
    clears
  · exact ⟨sem, designates, .inl isCall⟩
  · exact ⟨sem, designates, .inr ⟨count, isCall⟩⟩

/-- No call does both. -/
theorem Signals.not_resets (signals : a.Signals x s) : ¬ a.Resets x s := by
  rintro ⟨sem, count, -, rfl, -⟩
  obtain ⟨other, -, isCall | ⟨value, isCall⟩⟩ := signals <;> cases isCall

end Action

section Moves

variable {b u : KState} {a : Action} {m : Move} {r : ProcRef} {x : SemRef}
  {value : Bool}

theorem KState.WasReset.unique {other : Bool} (flag : u.WasReset x value)
    (same : u.WasReset x other) : other = value := by
  obtain ⟨content, record, rfl⟩ := flag
  obtain ⟨c, isRecord, rfl⟩ := same
  cases record.symm.trans isRecord
  rfl

/-- The flag after a move. -/
theorem KState.WasReset.move (flag : u.WasReset x value) (ok : Coherent u)
    (applies : m.Guard u) :
    (m.effect u).WasReset x ((m.setsReset x).getD value) := by
  obtain ⟨content, record, isValue⟩ := flag
  have assigned {y : SemRef} {n : Semaphore} {new : Bool}
      (isNew : y = x → n.wasReset = new) (isOld : y ≠ x → new = value) :
      (u.setSem y n).WasReset x new := by
    by_cases same : y = x
    · exact ⟨n, by simp [same], isNew same⟩
    · have other : x ≠ y := fun equal => same equal.symm
      exact ⟨content, by simp [other, record], isValue.trans (isOld same).symm⟩
  have counted {y : SemRef} {c : Semaphore} (count : Int)
      (found : u.sems y = some c) :
      (u.setSem y { c with count := count }).WasReset x value := by
    refine assigned ?_ (fun _ => rfl)
    rintro rfl
    cases record.symm.trans found
    exact isValue
  have given (p : Process) : (u.giveBack p).WasReset x value := by
    unfold KState.giveBack
    split
    · split
      · split
        · rename_i y _ c found
          exact counted (short (c.count + 1)) found
        · exact ⟨content, record, isValue⟩
      · exact ⟨content, record, isValue⟩
    · exact ⟨content, record, isValue⟩
  cases m with
  | endProcess pid r p how father => cases father <;> exact given p
  | endFatherless pid r p how => exact given p
  | awaitSem p sem y c => exact counted _ applies.2.2.2.2.2.1
  | acquire y c => exact counted _ applies.1.2
  | post y c => exact counted _ applies.1.2
  | postWake y c r p clear =>
      cases clear with
      | false =>
          refine assigned (n := { c with
            count := short (c.count + 1), wasReset := c.wasReset && !false })
            ?_ (fun _ => rfl)
          rintro rfl
          cases record.symm.trans applies.1.2
          simpa [Move.setsReset] using isValue
      | true =>
          refine assigned (n := { c with
            count := short (c.count + 1), wasReset := c.wasReset && !true })
            ?_ ?_
          · intro same
            simp [Move.setsReset, same]
          · intro other
            simp [Move.setsReset, other]
  | clearReset y c =>
      refine assigned (n := { c with wasReset := false }) ?_ ?_
      · intro same
        simp [Move.setsReset, same]
      · intro other
        simp [Move.setsReset, other]
  | resetSem y c count =>
      have after : (u.setSem y
          { c with count := count, wasReset := true }).WasReset x
            (((Move.resetSem y c count).setsReset x).getD value) := by
        refine assigned ?_ ?_
        · intro same
          simp [Move.setsReset, same]
        · intro other
          simp [Move.setsReset, other]
      simpa [KState.WasReset, Move.effect] using after
  | newSem sem count =>
      have old : x ≠ u.nextRef := by
        rintro rfl
        rw [(ok.heap.fresh u.nextRef (Nat.le_refl _)).2.2] at record
        cases record
      exact ⟨content, by simp [Move.effect, old, record], isValue⟩
  | deleteSem sem y =>
      exact ⟨content, by simp [Move.effect, record], isValue⟩
  | _ => exact ⟨content, record, isValue⟩

/-- The moves that assign the flag belong to calls that do. -/
theorem Move.By.sets (permitted : m.By b a u) (applies : m.Guard u)
    (sets : m.setsReset x = some value) :
    u = b ∧ (value = false ∧ a.Clears x b ∨ value = true ∧ a.Resets x b) := by
  cases m with
  | postWake y content r p clear =>
      cases clear with
      | false => cases sets
      | true =>
          obtain ⟨rfl, sem, designates, isCall⟩ := permitted
          have same : y = x ∧ false = value := by
            simpa [Move.setsReset] using sets
          obtain ⟨rfl, rfl⟩ := same
          exact ⟨rfl, .inl ⟨rfl, sem, content, designates, applies.1.2,
            .inl ⟨isCall, applies.2.1⟩⟩⟩
  | clearReset y content =>
      obtain ⟨rfl, sem, count, designates, isCall, nonneg, fits⟩ := permitted
      have same : y = x ∧ false = value := by
        simpa [Move.setsReset] using sets
      obtain ⟨rfl, rfl⟩ := same
      exact ⟨rfl, .inl ⟨rfl, sem, content, designates, applies.2,
        .inr ⟨count, isCall, nonneg, fits⟩⟩⟩
  | resetSem y content count =>
      obtain ⟨rfl, sem, argument, designates, isCall, rfl⟩ := permitted
      have same : y = x ∧ true = value := by
        simpa [Move.setsReset] using sets
      obtain ⟨rfl, rfl⟩ := same
      exact ⟨rfl, .inr ⟨rfl, sem, argument, designates, isCall, applies.2.1⟩⟩
  | _ => cases sets

/-- A call that keeps the flag keeps it in every move. -/
theorem KState.WasReset.kept (flag : u.WasReset x value) (ok : Coherent u)
    (keeps : a.KeepsReset x b) (permitted : m.By b a u)
    (applies : m.Guard u) : (m.effect u).WasReset x value := by
  have after := flag.move ok applies
  cases sets : m.setsReset x with
  | none =>
      rw [sets] at after
      exact after
  | some new =>
      obtain ⟨rfl, isNew⟩ := permitted.sets applies sets
      have same : new = value := by
        rcases isNew with ⟨rfl, clears⟩ | ⟨rfl, resets⟩
        · exact flag.unique (keeps.1 clears)
        · exact flag.unique (keeps.2 resets)
      rw [sets, same] at after
      exact after

/-- The flag tells whether the action signals the semaphore or resets it. -/
def KState.Explains (u : KState) (x : SemRef) (b : KState) (a : Action) : Prop :=
  a.Signals x b ∧ u.WasReset x false ∨ a.Resets x b ∧ u.WasReset x true

theorem KState.Explains.move (explains : u.Explains x b a) (ok : Coherent u)
    (permitted : m.By b a u) (applies : m.Guard u) :
    (m.effect u).Explains x b a := by
  have moved {value : Bool} (flag : u.WasReset x value)
      (still : (m.effect u).WasReset x value → (m.effect u).Explains x b a) :
      (m.effect u).Explains x b a := by
    have after := flag.move ok applies
    cases sets : m.setsReset x with
    | none =>
        rw [sets] at after
        exact still after
    | some new =>
        rw [sets] at after
        obtain ⟨-, ⟨rfl, clears⟩ | ⟨rfl, resets⟩⟩ := permitted.sets applies sets
        · exact .inl ⟨clears.signals, after⟩
        · exact .inr ⟨resets, after⟩
  rcases explains with ⟨signals, flag⟩ | ⟨resets, flag⟩
  · exact moved flag fun after => .inl ⟨signals, after⟩
  · exact moved flag fun after => .inr ⟨resets, after⟩

/-- A process leaves the list of a semaphore that is not deleted with the flag
telling why, or it has been ended. -/
theorem KState.Parked.freed {k : Context} (parked : u.Parked r (.sem x) k)
    (ok : Coherent u) (stays : ∀ sem, semOf b sem = some x →
      a ≠ .call (.sdelete sem))
    (coherent : Coherent b) (permitted : m.By b a u) (applies : m.Guard u) :
    (m.effect u).Parked r (.sem x) k ∨
      (m.effect u).Pending r k ∧ (m.effect u).running ≠ r ∧
        (m.effect u).Explains x b a ∨
      Ended (m.effect u) r := by
  have other := parked.1
  rcases parked.move ok applies with still | ⟨p, record, stack, unlinks⟩
  · exact .inl still
  cases unlinks with
  | postWake x content clear =>
      have flag : u.WasReset x content.wasReset := ⟨content, applies.1.2, rfl⟩
      have after := flag.move ok applies
      refine .inr (.inl ⟨⟨⟨_, Function.update_self .., trivial, stack⟩, ?_⟩,
        fun elected => other elected.symm, .inl ?_⟩)
      · exact fun elected => absurd elected other
      cases clear with
      | true =>
          obtain ⟨rfl, sem, designates, isCall⟩ := permitted
          refine ⟨⟨sem, designates, .inl isCall⟩, ?_⟩
          simpa [Move.setsReset] using after
      | false =>
          obtain ⟨clear, sem, count, designates, isCall⟩ := permitted
          refine ⟨⟨sem, designates, .inr ⟨count, isCall⟩⟩, ?_⟩
          simpa [Move.setsReset, clear] using after
  | resetSem x content count =>
      have flag : u.WasReset x content.wasReset := ⟨content, applies.1.2, rfl⟩
      have after := flag.move ok applies
      have sameRunning :=
        (Move.unswitched (m := .resetSem x content count) id ok applies).running
      obtain ⟨-, c, isRecord, link, -⟩ := parked
      cases record.symm.trans isRecord
      obtain ⟨n, released, state⟩ :=
        ok.release_procs_of_mem (ok.lists.mem_of_link record link)
      have found : ((Move.resetSem x content count).effect u).procs r =
          some n := by
        simpa [Move.effect] using released
      have sameStack : n.stack = p.stack := by
        rcases Move.stack_after ok applies found with
          ⟨c, isRecord, same⟩ | ⟨isRunning, -⟩ | ⟨isNew, -⟩
        · cases record.symm.trans isRecord
          exact same
        · exact absurd isRunning other
        · exact absurd isNew (ok.lt_nextRef record).ne
      have notOn : ((Move.resetSem x content count).effect u).running ≠ r := by
        rw [sameRunning]
        exact other.symm
      obtain ⟨rfl, sem, argument, designates, isCall, rfl⟩ := permitted
      refine .inr (.inl ⟨⟨⟨n, found, ?_, sameStack.trans stack⟩, ?_⟩, notOn,
        .inr ⟨⟨sem, argument, designates, isCall, applies.2.1⟩, ?_⟩⟩)
      · rw [state]
        trivial
      · exact fun elected => absurd elected.symm notOn
      · simpa [Move.setsReset] using after
  | deleteSem sem x =>
      obtain ⟨rfl, isCall⟩ := permitted
      exact absurd isCall (stays sem (semOf_of_entry coherent applies))
  | endProcess h pid how father => exact .inr (.inr (Ended.endProcess applies))
  | endFatherless h pid how =>
      exact .inr (.inr (Ended.endFatherless ok applies))

end Moves

section Steps

variable {s t b c : KState} {a : Action} {r : ProcRef} {x : SemRef}
  {k : Context} {value : Bool}

/-- The step that takes a process out of the list of a semaphore leaves the
reason in the flag. -/
theorem Settled.explained (settled : Settled s)
    (parked : s.Parked r (.sem x) k)
    (stays : ∀ sem, semOf s sem = some x → a ≠ .call (.sdelete sem))
    (next : step a s = .next t) (removed : r ∉ t.lists (.sem x)) :
    t.Pending r k ∧ t.Explains x s a ∨ Ended t r := by
  have kept : t.Parked r (.sem x) k ∨
      s.PendingSince t r k ∧ t.Explains x s a ∨ Ended t r := by
    refine settled.keeps next (I := fun u => u.Parked r (.sem x) k ∨
      s.PendingSince u r k ∧ u.Explains x s a ∨ Ended u r) ?_ (.inl parked)
    rintro u m sound permitted applies (waits | ⟨pending, explains⟩ | ended)
    · refine (waits.freed sound.coherent stays settled.sound.coherent permitted
        applies).imp_right ?_
      refine Or.imp_left ?_
      rintro ⟨pending, notOn, explains⟩
      exact ⟨⟨pending, fun elected => absurd elected.symm notOn⟩, explains⟩
    · refine .inr ((pending.move sound parked.1.symm permitted applies).imp_left
        ?_)
      exact fun still => ⟨still, explains.move sound.coherent permitted applies⟩
    · exact .inr (.inr (ended.move sound.coherent applies))
  rcases kept with ⟨-, p, record, link, -⟩ | woken
  · have ok := (settled.after next).sound.coherent
    exact absurd (ok.lists.mem_of_link record link) removed
  · exact woken.imp_left (And.imp_left And.left)

/-- A step that keeps the flag. -/
theorem Settled.wasReset_after (settled : Settled b)
    (keeps : a.KeepsReset x b) (next : step a b = .next c)
    (flag : b.WasReset x value) : c.WasReset x value :=
  settled.keeps next (I := fun u => u.WasReset x value)
    (fun _ _ sound permitted applies flag =>
      flag.kept sound.coherent keeps permitted applies) flag

/-- The rest of `wait` returns what the flag says. -/
theorem KState.Pending.reads (pending : s.Pending r (.wait x))
    (settled : Settled s) (onCpu : r = s.running)
    (flag : s.WasReset x value) :
    step .resume s = .next { s with
      mode := .user
      eax := if value then -4 else 0 } := by
  obtain ⟨content, record, rfl⟩ := flag
  have mode := pending.2 onCpu
  have notDeleted :=
    (settled.sound.coherent.heap.shorts x content record).2.2
  refine step_of_wp (by rw [mode]; rfl) ?_
  rw [resume, waitTail, wp_bind, wp_derefSem record, wp_ite,
    if_neg (by simp [notDeleted]), wp_ite]
  split <;> rw [wp_ret]

end Steps

section Runs

variable {s t v : KState} {a : Action} {r : ProcRef} {x : SemRef}
  {k : Context} {value : Bool}

/-- While other processes run and no call changes the flag, the reason stays. -/
theorem Run.keeps_reason (settled : Settled t) (pending : t.Pending r k)
    (flag : t.WasReset x value)
    (run : Run (fun b c => b.running ≠ r ∧ c.KeepsReset x b) t v) :
    v.Pending r k ∧ v.WasReset x value ∨ Ended v r := by
  induction run with
  | refl => exact .inl ⟨pending, flag⟩
  | step front met next ih =>
      have settledB := front.settled settled
      rcases ih with ⟨pending, flag⟩ | ended
      · refine (settledB.pending_after met.1 next (.inl pending)).imp_left ?_
        exact fun still => ⟨still, settledB.wasReset_after met.2 next flag⟩
      · exact .inr (settledB.ended_after next ended)

/-- A process that was blocked on a semaphore that is not deleted comes back
with 0 exactly when it was taken out of the list by `signal` or `signaln`, and
with -4 exactly when it was taken out by `sreset`, as long as no call on the
semaphore changes `was_reset` before the process gets the processor. -/
theorem wait_returns_reason (reached : Reachable s)
    (waits : r ∈ s.lists (.sem x))
    (stays : ∀ sem, semOf s sem = some x → a ≠ .call (.sdelete sem))
    (next : step a s = .next t) (removed : r ∉ t.lists (.sem x))
    (run : Run (fun b c => b.running ≠ r ∧ c.KeepsReset x b) t v)
    (resumes : v.running = r) :
    ∃ w, step .resume v = .next w ∧ w.running = r ∧ w.mode = .user ∧
      (w.eax = 0 ↔ a.Signals x s) ∧ (w.eax = -4 ↔ a.Resets x s) := by
  have settled := reached.settled
  have settledT := settled.after next
  have settledV := run.settled settledT
  obtain ⟨p, record, link⟩ := settled.sound.coherent.record_of_mem waits
  obtain ⟨state, -⟩ :=
    (settled.sound.coherent.procs.linked r p record).state_of_link link
  have other := settled.suspended_of_link record link
  have stack : p.stack = .wait x :=
    (settled.sound.context.blocked r p record
      (by simp [Process.Living, state]) other).sem x link
  have parked : s.Parked r (.sem x) (.wait x) := ⟨other, p, record, link, stack⟩
  -- what the process reads when it gets the processor
  have reads {value : Bool} (flag : t.WasReset x value)
      (pending : t.Pending r (.wait x)) :
      step .resume v = .next { v with
        mode := .user
        eax := if value then -4 else 0 } := by
    rcases run.keeps_reason settledT pending flag with
      ⟨still, flagV⟩ | ended
    · exact still.reads settledV resumes.symm flagV
    · exact absurd resumes (ended.not_running settledV)
  rcases settled.explained parked stays next removed with
    ⟨pending, ⟨signals, flag⟩ | ⟨resets, flag⟩⟩ | ended
  · refine ⟨_, reads flag pending, resumes, rfl, ?_, ?_⟩
    · simp [signals]
    · simp [signals.not_resets]
  · refine ⟨_, reads flag pending, resumes, rfl, ?_, ?_⟩
    · have notSignals : ¬ a.Signals x s := fun signals =>
        signals.not_resets resets
      simp [notSignals]
    · simp [resets]
  · exact absurd resumes ((run.ended settledT ended).not_running settledV)

/-- A child above the first process blocks on an empty semaphore, and is then
put below it. -/
def waiterBelow : List Action :=
  firstTicks ++ [.call (.screate 0), .call (.start "a" 4096 200), .resume,
    .call (.wait 0), .resume, .call (.chprio 2 50), .resume]

/-- The first process goes on and falls asleep. -/
def thenSleep : List Action :=
  [.resume, .call (.waitClock 1000)]

/-- No step is one of the waiter, and none is a call on the semaphore. -/
def keepsReset (b : KState) : Action → Bool
  | .call (.signal _) | .call (.signaln _ _) | .call (.sreset _ _) => false
  | _ => b.running != 3

theorem keepsReset_of_test {b : KState} {c : Action}
    (test : keepsReset b c = true) :
    b.running ≠ 3 ∧ c.KeepsReset 2 b := by
  refine ⟨?_, ?_, ?_⟩
  · rintro isRunning
    unfold keepsReset at test
    split at test <;> simp [isRunning] at test
  · rintro ⟨sem, content, -, -, ⟨rfl, -⟩ | ⟨count, rfl, -⟩⟩ <;> cases test
  · rintro ⟨sem, count, -, rfl, -⟩
    cases test

/-- The waiter learns that the semaphore was reset. -/
theorem wait_returns_reset :
    ∃ s t v w, Reachable s ∧ 3 ∈ s.lists (.sem 2) ∧
      step (.call (.sreset 0 0)) s = .next t ∧ v.running = 3 ∧
      Run (fun b c => b.running ≠ 3 ∧ c.KeepsReset 2 b) t v ∧
      step .resume v = .next w ∧ w.eax = -4 := by
  obtain ⟨v, performed, -, resumes⟩ := exists_of_runActions
    ["idle", "autotest", "a"]
    ((waiterBelow ++ [.call (.sreset 0 0)]) ++ thenSleep)
    (fun v => v.running == 3) (by decide) (by decide) (by decide +kernel)
  rw [runActions_append, Option.bind_eq_some_iff] at performed
  obtain ⟨t, toT, toV⟩ := performed
  have keeps := check_of_runActions toT
    (fun t => allAlong keepsReset thenSleep t && 3 ∉ t.lists (.sem 2))
    (by decide +kernel)
  rw [Bool.and_eq_true, decide_eq_true_eq] at keeps
  rw [runActions_append, Option.bind_eq_some_iff] at toT
  obtain ⟨s, toS, resets⟩ := toT
  have reached : Reachable s :=
    reachable_of_runActions (by decide) (by decide) toS
  have start := check_of_runActions toS (fun s =>
    decide (3 ∈ s.lists (.sem 2)) && semOf s 0 == some 2) (by decide +kernel)
  rw [Bool.and_eq_true, decide_eq_true_eq, beq_iff_eq] at start
  have next := step_of_runActions resets
  have run : Run (fun b c => b.running ≠ 3 ∧ c.KeepsReset 2 b) t v := by
    exact run_of_allAlong (reached.settled.after next) toV keepsReset
      (fun _ _ _ test => keepsReset_of_test test) keeps.1
  obtain ⟨w, comesBack, -, -, -, isReset⟩ := wait_returns_reason reached start.1
    (fun sem _ isCall => by cases isCall) next keeps.2 run
    (beq_iff_eq.mp resumes)
  exact ⟨s, t, v, w, reached, start.1, next, beq_iff_eq.mp resumes, run,
    comesBack, isReset.mpr ⟨0, 0, start.2, rfl, by decide⟩⟩

/-- No step is one of the waiter, and none resets or deletes a semaphore. -/
def sparesWaiter (b : KState) : Action → Bool
  | .call (.sdelete _) | .call (.sreset _ _) => false
  | _ => b.running != 3

theorem spares_of_test {b : KState} {c : Action}
    (test : sparesWaiter b c = true) : b.running ≠ 3 ∧ c.Spares 2 b := by
  refine ⟨?_, ?_⟩
  · rintro isRunning
    unfold sparesWaiter at test
    split at test <;> simp [isRunning] at test
  · intro sem _
    refine ⟨?_, ?_⟩
    · rintro rfl
      cases test
    · rintro value rfl
      cases test

/-- A `signaln` of no units at all, before the waiter gets the processor, makes
it return 0 although it was taken out of the list by `sreset`. -/
theorem wait_forgets_reset :
    ∃ s t v w, Reachable s ∧ 3 ∈ s.lists (.sem 2) ∧
      step (.call (.sreset 0 0)) s = .next t ∧ 3 ∉ t.lists (.sem 2) ∧
      Run (fun b c => b.running ≠ 3 ∧ c.Spares 2 b) t v ∧ v.running = 3 ∧
      step .resume v = .next w ∧ w.mode = .user ∧ w.eax = 0 := by
  obtain ⟨w, performed, -, checked⟩ := exists_of_runActions
    ["idle", "autotest", "a"]
    (((waiterBelow ++ [.call (.sreset 0 0)]) ++
      ([.resume, .call (.signaln 0 0)] ++ thenSleep)) ++ [.resume])
    (fun w => w.mode == .user && w.eax == 0) (by decide) (by decide)
    (by decide +kernel)
  rw [Bool.and_eq_true, beq_iff_eq, beq_iff_eq] at checked
  rw [runActions_append, Option.bind_eq_some_iff] at performed
  obtain ⟨v, toV, comesBack⟩ := performed
  have onCpu := check_of_runActions toV (fun v => v.running == 3)
    (by decide +kernel)
  rw [runActions_append, Option.bind_eq_some_iff] at toV
  obtain ⟨t, toT, toV⟩ := toV
  have others := check_of_runActions toT
    (fun t => allAlong sparesWaiter
      ([.resume, .call (.signaln 0 0)] ++ thenSleep) t && 3 ∉ t.lists (.sem 2))
    (by decide +kernel)
  rw [Bool.and_eq_true, decide_eq_true_eq] at others
  rw [runActions_append, Option.bind_eq_some_iff] at toT
  obtain ⟨s, toS, resets⟩ := toT
  have reached : Reachable s :=
    reachable_of_runActions (by decide) (by decide) toS
  have waits := check_of_runActions toS
    (fun s => decide (3 ∈ s.lists (.sem 2))) (by decide +kernel)
  have next := step_of_runActions resets
  have run : Run (fun b c => b.running ≠ 3 ∧ c.Spares 2 b) t v :=
    run_of_allAlong (reached.settled.after next) toV sparesWaiter
      (fun _ _ _ test => spares_of_test test) others.1
  exact ⟨s, t, v, w, reached, decide_eq_true_eq.mp waits, next, others.2, run,
    beq_iff_eq.mp onCpu, step_of_runActions comesBack, checked⟩

end Runs

end Nebulea
