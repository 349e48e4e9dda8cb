import Nebulea.KernelEvents

/-!
# Semaphores in every run

The counter of a semaphore stays in the range of its type and tells how many
processes wait.  Between its creation and the next reset or deletion, the units
signalled, granted and still in the counter balance.
-/

namespace Nebulea

section Balance

variable {s t u : KState} {m : Move} {x : SemRef}

theorem Move.signals_events (applies : m.Guard s) :
    Nebulea.signals x (m.events s) = m.signals x := by
  cases m with
  | note e => cases e <;> first | rfl | exact absurd applies id
  | endProcess pid r p how father => cases how <;> rfl
  | endFatherless pid r p how => cases how <;> rfl
  | post y content | postWake y content r p clear =>
      by_cases same : y = x <;>
        simp [Move.events, Move.signals, Nebulea.signals, same]
  | _ => rfl

theorem Move.grants_events (applies : m.Guard s) :
    Nebulea.grants x (m.events s) = m.grants x := by
  cases m with
  | note e => cases e <;> first | rfl | exact absurd applies id
  | endProcess pid r p how father => cases how <;> rfl
  | endFatherless pid r p how => cases how <;> rfl
  | acquire y content | postWake y content r p clear =>
      by_cases same : y = x <;>
        simp [Move.events, Move.grants, Nebulea.grants, Event.isGrant, same]
  | _ => rfl

/-- A semaphore exists until it is deleted. -/
theorem Move.hasSem_effect (ok : Coherent s) (applies : m.Guard s)
    {content : Semaphore} (has : s.HasSem x content)
    (kept : ∀ sem, m ≠ .deleteSem sem x) :
    ∃ n, (m.effect s).HasSem x n := by
  have assigned (y : SemRef) (c : Semaphore) :
      ∃ n, (s.setSem y c).HasSem x n := by
    by_cases same : x = y
    · exact ⟨c, has.1, by simp [same]⟩
    · exact ⟨content, has.1, by simp [same, has.2]⟩
  have given (p : Process) : ∃ n, (s.giveBack p).HasSem x n := by
    unfold KState.giveBack
    split
    · split
      · rename_i y _
        split
        · rename_i c _
          exact assigned y { c with count := short (c.count + 1) }
        · exact ⟨content, has⟩
      · exact ⟨content, has⟩
    · exact ⟨content, has⟩
  cases m with
  | endProcess pid r p how father => cases father <;> exact given p
  | endFatherless pid r p how => exact given p
  | awaitSem p sem y c => exact assigned y _
  | acquire y c => exact assigned y _
  | post y c => exact assigned y _
  | postWake y c r p clear => exact assigned y _
  | clearReset y c => exact assigned y _
  | resetSem y c count =>
      obtain ⟨n, table, record⟩ := assigned y
        { c with count := count, wasReset := true }
      refine ⟨n, ?_, ?_⟩
      · simpa [Move.effect] using table
      · simpa [Move.effect] using record
  | newSem sem count =>
      obtain ⟨⟨sem', entry⟩, record⟩ := has
      have other : sem' ≠ sem := by
        rintro rfl
        rw [applies.2.2.1] at entry
        cases entry
      have old : x ≠ s.nextRef := by
        rintro rfl
        rw [(ok.heap.fresh s.nextRef (Nat.le_refl _)).2.2] at record
        cases record
      exact ⟨content, ⟨sem', by simp [Move.effect, other, entry]⟩,
        by simp [Move.effect, old, record]⟩
  | deleteSem sem y =>
      obtain ⟨⟨sem', entry⟩, record⟩ := has
      have other : sem' ≠ sem := by
        rintro rfl
        have same : some y = some x := applies.symm.trans entry
        cases same
        exact kept sem' rfl
      exact ⟨content, ⟨sem', by simp [Move.effect, other, entry]⟩,
        by simp [Move.effect, record]⟩
  | _ => exact ⟨content, has⟩

/-- The action neither resets nor deletes the semaphore `x`. -/
def Action.Spares (x : SemRef) (s : KState) (a : Action) : Prop :=
  ∀ sem, semOf s sem = some x →
    a ≠ .call (.sdelete sem) ∧ ∀ value, a ≠ .call (.sreset sem value)

/-- The books of `x` since it had `n` units. -/
def Balanced (x : SemRef) (n : Int) (since : List Event) (s : KState) : Prop :=
  ∃ content, s.HasSem x content ∧
    (signals x since : Int) + n =
      grants x since + content.count + (s.lists (.sem x)).length

theorem semOf_of_entry (ok : Coherent s) {sem : Int}
    (entry : s.semaphoreTable sem = some x) : semOf s sem = some x := by
  obtain ⟨low, high, -⟩ := ok.heap.semTable sem x entry
  unfold semOf
  rw [if_neg (by omega), entry]

/-- The books stay balanced in runs that spare the semaphore. -/
theorem Balanced.run {n : Int} (settled : Settled t)
    (balanced : Balanced x n [] t) (run : Run (Action.Spares x) t u) :
    ∃ since, u.trace = since ++ t.trace ∧ Balanced x n since u := by
  refine run.keeps_since settled ?_ balanced
  rintro b a v m past since spares settledB - sound permitted applies
    ⟨content, has, balance⟩
  have ok := sound.coherent
  have notDeleted : ∀ sem, m ≠ .deleteSem sem x := by
    rintro sem rfl
    obtain ⟨rfl, isDelete⟩ := permitted
    exact (spares sem (semOf_of_entry ok applies)).1 isDelete
  have notRestarted : ¬ m.Restarts v x := by
    intro restarts
    cases m with
    | newSem sem count =>
        have isNew : x = v.nextRef := restarts
        have record := has.2
        rw [isNew, (ok.heap.fresh v.nextRef (Nat.le_refl _)).2.2] at record
        cases record
    | resetSem y c count =>
        have same : x = y := restarts
        subst same
        obtain ⟨rfl, sem, value, designates, isReset, -⟩ := permitted
        exact (spares sem designates).2 value isReset
    | _ => exact absurd restarts id
  obtain ⟨c, after⟩ := m.hasSem_effect ok applies has notDeleted
  obtain ⟨restarts | ⟨before, hasBefore, kept⟩, -⟩ :=
    Move.keepsBooks sound.sem ok applies after
  · exact absurd restarts notRestarted
  · have same := hasBefore.2.symm.trans has.2
    rw [Option.some.injEq] at same
    subst same
    refine ⟨c, after, ?_⟩
    have moreSignals : Nebulea.signals x (m.events v ++ since) =
        m.signals x + Nebulea.signals x since := by
      rw [← Move.signals_events applies]
      exact List.countP_append
    have moreGrants : Nebulea.grants x (m.events v ++ since) =
        m.grants x + Nebulea.grants x since := by
      rw [← Move.grants_events applies]
      exact List.countP_append
    rw [moreSignals, moreGrants]
    unfold KState.waiters at kept
    omega

end Balance

end Nebulea
