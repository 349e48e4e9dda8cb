import Nebulea.KernelFootprints
import Nebulea.KernelRuns

/-!
# Records are made by `start`

Every entry leaves the records it finds in place or frees them; a new record
appears only when `start` accepts, and then it takes the next reference.
-/

namespace Nebulea

open ExceptState

/-! ## Moves -/

section Moves

variable {s : KState} {m : Move}

theorem Move.nextRef_le (m : Move) (s : KState) :
    s.nextRef ≤ (m.effect s).nextRef := by
  cases m with
  | create | createElect | newQueue | newSem => exact Nat.le_succ _
  | endProcess pid r p how father => cases father <;> exact Nat.le_refl _
  | resetSem x content count | deleteSem sem x =>
      obtain ⟨_, _, _, released⟩ := s.release_eq x (s.lists (.sem x)).reverse
      simp [Move.effect, released]
  | _ => exact Nat.le_refl _

/-- The move makes a record. -/
def Move.Creates : Move → Prop
  | .create _ _ _ _ | .createElect _ _ _ _ => True
  | _ => False

/-- Other records are old ones. -/
theorem Move.old_record (ok : Coherent s) (applies : m.Guard s) {x : ProcRef}
    (found : (m.effect s).procs x ≠ none) :
    s.procs x ≠ none ∨ x = s.nextRef ∧ m.Creates := by
  have steady (isSteady : m.IsSteady) : s.procs x ≠ none := by
    obtain ⟨n, isRecord⟩ := Option.ne_none_iff_exists'.mp found
    obtain ⟨p, record, -⟩ := (m.steady isSteady ok applies).procs x n isRecord
    rw [record]
    exact Option.some_ne_none p
  have present {r : ProcRef} {p : Process} (record : s.procs r = some p)
      (isR : x = r) : s.procs x ≠ none := by
    rw [isR, record]
    exact Option.some_ne_none p
  have updated {r : ProcRef} {p n : Process} (record : s.procs r = some p)
      (found : Function.update s.procs r (some n) x ≠ none) :
      s.procs x ≠ none := by
    by_cases isR : x = r
    · exact present record isR
    · rwa [Function.update_of_ne isR] at found
  cases m with
  | dispatch k r p old restored =>
      left
      rw [Move.dispatch_procs] at found
      split at found
      · rename_i isNew
        exact present applies.2.1.2 isNew
      · intro isNone
        simp [isNone] at found
  | create pid prio p children =>
      obtain ⟨-, onCpu, -⟩ := applies
      rw [Move.create_procs (ok.lt_nextRef onCpu.1).ne] at found
      split at found
      · rename_i isNew
        exact .inr ⟨isNew, trivial⟩
      · split at found
        · rename_i isRunning
          exact .inl (present onCpu.1 isRunning)
        · exact .inl found
  | createElect pid prio p children =>
      obtain ⟨-, onCpu, -⟩ := applies
      rw [Move.createElect_procs (ok.lt_nextRef onCpu.1).ne] at found
      split at found
      · rename_i isNew
        exact .inr ⟨isNew, trivial⟩
      · split at found
        · rename_i isRunning
          exact .inl (present onCpu.1 isRunning)
        · exact .inl found
  | handOver q content message sender r p restored =>
      obtain ⟨-, -, -, next, onCpu, -⟩ := applies
      left
      rw [Move.handOver_procs (ok.running_ne_of_nextOut next onCpu)] at found
      split at found
      · rename_i isNew
        exact present next.2 isNew
      · split at found
        · rename_i isRunning
          exact present onCpu.1 isRunning
        · exact found
  | endProcess pid r p how father =>
      obtain ⟨has, -, -, -, woken⟩ := applies
      left
      cases father with
      | none => exact updated has.2 found
      | some father =>
          obtain ⟨f, content⟩ := father
          obtain ⟨distinct, isFather, -⟩ := woken
          rw [Move.endProcess_procs distinct] at found
          split at found
          · rename_i isF
            exact present isFather isF
          · split at found
            · rename_i isR
              exact present has.2 isR
            · exact found
  | endFatherless pid r p how => exact .inl (updated applies.1.2 found)
  | orphan r p => exact .inl (updated applies.1 found)
  | finish pid r p => exact .inl (updated applies.1.2 found)
  | reap pid r p caller children =>
      obtain ⟨-, -, has, -, -, distinct, onCpu, -⟩ := applies
      left
      rw [Move.reap_procs distinct] at found
      split at found
      · rename_i isR
        exact present has.2 isR
      · split at found
        · rename_i isRunning
          exact present onCpu.1 isRunning
        · exact found
  | _ => exact .inl (steady trivial)

end Moves

/-! ## Entries -/

section Entries

variable {s t : KState} {a : Action}

theorem Settled.nextRef_le (settled : Settled s) (next : step a s = .next t) :
    s.nextRef ≤ t.nextRef := by
  apply settled.keeps next (I := fun u => s.nextRef ≤ u.nextRef)
  · exact fun u m _ _ _ kept => kept.trans (m.nextRef_le u)
  · exact Nat.le_refl _

/-- `start` is called, and does not return -1. -/
def Action.Accepted (s : KState) (a : Action) : Prop :=
  getFreePid s ≠ -1 ∧ ∃ name ssize prio, a = .call (.start name ssize prio) ∧
    ssize ≤ 0x10000000 ∧ prio ≤ maxPrio

theorem Settled.old_record (settled : Settled s) (next : step a s = .next t)
    {x : ProcRef} (found : t.procs x ≠ none) :
    s.procs x ≠ none ∨ x = s.nextRef ∧ a.Accepted s := by
  refine settled.keeps next
    (I := fun u => ∀ x, u.procs x ≠ none →
      s.procs x ≠ none ∨ x = s.nextRef ∧ a.Accepted s) ?_
    (fun _ isOld => .inl isOld) x found
  intro u m sound permitted applies kept y isRecord
  rcases m.old_record sound.coherent applies isRecord with isOld | ⟨isNew, creates⟩
  · exact kept y isOld
  · right
    cases m with
    | create pid prio p children | createElect pid prio p children =>
        obtain ⟨rfl, isPid, name, ssize, isStart, small, prioLe⟩ := permitted
        have nonneg : 0 ≤ pid := applies.2.2.2.2.1
        refine ⟨isNew, ?_, name, ssize, prio, isStart, small, prioLe⟩
        omega
    | _ => exact absurd creates id

end Entries

/-! ## An accepted `start` -/

section Start

/-- `start` has made a record. -/
def MoreThan (n : Nat) (s : KState) : Prop :=
  n < s.nextRef

variable {n : Nat}

theorem offRecord_moreThan : OffRecord (MoreThan n) :=
  fun _ _ _ _ _ _ more => more

theorem offProcessor_moreThan : OffProcessor (MoreThan n) :=
  fun _ _ _ _ _ more => more

theorem keeps_startTail (r : ProcRef) : Keeps (MoreThan n) (startTail r) := by
  apply Keeps.bind (keeps_modifyProc offRecord_moreThan r _)
  intro _
  apply Keeps.bind (keeps_derefProc r)
  intro p
  exact keeps_ret offProcessor_moreThan _

/-- `start` makes a record unless it returns -1. -/
theorem moreThan_start {s : KState} {name : String} {ssize : Nat} {prio : Int}
    (small : ssize ≤ 0x10000000) (known : name ∈ s.symbolsTable)
    (accepted : ¬ (getFreePid s = -1 ∨ prio > maxPrio)) :
    wp (start name ssize prio) (fun _ => MoreThan s.nextRef)
      (fun _ => MoreThan s.nextRef) s := by
  have placed : Keeps (MoreThan s.nextRef) (do
      activate s.nextRef
      startTail s.nextRef) :=
    Keeps.bind (keeps_activate offRecord_moreThan _) fun _ => keeps_startTail _
  rw [start, wp_bind, wp_get, if_neg (by omega), if_neg (not_not.mpr known),
    if_neg accepted, wp_bind, wp_modify]
  refine (show Keeps (MoreThan s.nextRef) _ from ?_) _ (Nat.lt_succ_self _)
  have elects : Keeps (MoreThan s.nextRef) (do
      let old ← entry s.currentPid
      let current ← derefProc old
      if prio > current.priority then do
        activate old
        modifyProc s.nextRef fun p => { p with state := .elected }
        modify fun t => { t with currentPid := getFreePid s }
        virtualCtxSw (.start s.nextRef) old s.nextRef
      else do
        activate s.nextRef
        startTail s.nextRef) := by
    apply Keeps.bind (keeps_entry _)
    intro old
    apply Keeps.bind (keeps_derefProc old)
    intro current
    split
    · apply Keeps.bind (keeps_activate offRecord_moreThan old)
      intro _
      apply Keeps.bind (keeps_modifyProc offRecord_moreThan _ _)
      intro _
      refine Keeps.bind (Keeps.modify ?_) fun _ =>
        keeps_virtualCtxSw offRecord_moreThan offProcessor_moreThan _ _ _
      exact fun _ more => more
    · exact placed
  have places : ∀ _ : PUnit, Keeps (MoreThan s.nextRef)
      (if 0 ≤ s.currentPid then do
        let old ← entry s.currentPid
        let current ← derefProc old
        if prio > current.priority then do
          activate old
          modifyProc s.nextRef fun p => { p with state := .elected }
          modify fun t => { t with currentPid := getFreePid s }
          virtualCtxSw (.start s.nextRef) old s.nextRef
        else do
          activate s.nextRef
          startTail s.nextRef
      else do
        activate s.nextRef
        startTail s.nextRef) := by
    intro _
    split
    · exact elects
    · exact placed
  simp only
  split
  · apply Keeps.bind (keeps_entry _)
    intro father
    apply Keeps.bind (keeps_derefProc father)
    intro p
    cases p.children with
    | none => exact Keeps.bind (Keeps.throw _) places
    | some children => exact Keeps.bind (keeps_modifyProc offRecord_moreThan _ _) places
  · exact places ⟨⟩

/-- The next reference is taken. -/
theorem nextRef_lt_of_start {s t : KState} {name : String} {ssize : Nat}
    {prio : Int} (next : step (.call (.start name ssize prio)) s = .next t)
    (small : ssize ≤ 0x10000000) (known : name ∈ s.symbolsTable)
    (accepted : ¬ (getFreePid s = -1 ∨ prio > maxPrio)) :
    s.nextRef < t.nextRef := by
  have rule := moreThan_start small known accepted
  have user := mode_of_call next
  unfold step at next
  rw [user] at next
  simp only [kernelEntry, syscall] at next
  unfold wp at rule
  cases outcome : start name ssize prio s with
  | ok value u =>
      rw [outcome] at next rule
      cases next
      exact rule
  | error failure u =>
      rw [outcome] at next rule
      cases failure with
      | page =>
          cases next
          exact rule
      | panic | assertion | useAfterFree | lostContext | noActivable
      | nullHead | endlessLoop => cases next

end Start

end Nebulea
