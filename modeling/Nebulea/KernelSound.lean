import Nebulea.KernelFamilies
import Nebulea.SemaphoreBooks

/-!
# Soundness of a kernel state

The invariant that every move keeps without any condition.  Its last part is
about `skip_message`: the flag is set only while its owner has not yet resumed
the `psend` or `preceive` that has to fail.
-/

namespace Nebulea

/-- A set `skip_message` belongs to a process that is about to resume. -/
def SkipOk (s : KState) : Prop :=
  ∀ r p, s.procs r = some p → p.Living → p.skipMessage = true →
    (∃ q, p.stack = .psend r q ∨ ∃ message, p.stack = .preceive r q message) ∧
      (r ≠ s.running → p.state = .activable) ∧
      (r = s.running → s.mode = .kernel p.stack)

namespace SkipOk

variable {s t : KState}

/-- A process in user mode, or handling a page fault, has no set flag. -/
theorem clear (skip : SkipOk s) (outside : ∀ k, s.mode ≠ .kernel k)
    {p : Process} (record : s.procs s.running = some p) (living : p.Living) :
    p.skipMessage = false := by
  by_contra isSet
  rw [Bool.not_eq_false] at isSet
  exact outside p.stack ((skip s.running p record living isSet).2.2 rfl)

theorem not_skipping (skip : SkipOk s) (calm : ¬ s.Skipping) {p : Process}
    (record : s.procs s.running = some p) (living : p.Living) :
    p.skipMessage = false := by
  by_contra isSet
  rw [Bool.not_eq_false] at isSet
  have mode := (skip s.running p record living isSet).2.2 rfl
  exact calm ⟨p.stack, p, mode, record, isSet⟩

theorem unswitched (skip : SkipOk s) (ctx : ContextOk s)
    (same : Unswitched s t)
    (mode : t.mode = s.mode ∨ ∀ n, t.procs t.running = some n → n.Living →
      n.skipMessage = false) : SkipOk t := by
  intro r n found living isSet
  obtain ⟨p, record, context⟩ := same.procs r n found
  have before := context.living living
  rcases context.skip isSet with wasSet | ⟨other, state, q, link⟩
  · obtain ⟨stack, suspended, onCpu⟩ := skip r p record before wasSet
    rw [context.stack]
    refine ⟨stack, ?_, ?_⟩
    · intro other
      rw [same.running] at other
      rcases context.state with
        ⟨state, -⟩ | ⟨isRunning, -⟩ | ⟨-, state, -⟩ | ⟨ended, -⟩
      · exact state.trans (suspended other)
      · exact absurd isRunning other
      · exact state
      · exact absurd living ended
    · intro isRunning
      rcases mode with sameMode | cleared
      · rw [sameMode]
        exact onCpu (isRunning.trans same.running)
      · rw [cleared n (isRunning ▸ found) living] at isSet
        simp at isSet
  · have blocked := ctx.blocked r p record before other
    rw [context.stack]
    refine ⟨⟨q, blocked.queue q link⟩, fun _ => state, ?_⟩
    intro isRunning
    exact absurd (isRunning.trans same.running) other

end SkipOk

/-- What holds in every state of the kernel, between any two moves. -/
structure Sound (s : KState) : Prop where
  coherent : Coherent s
  cpu : CpuOk s
  context : ContextOk s
  family : FamilyOk s
  sem : SemOk s
  skip : SkipOk s

namespace Sound

variable {s : KState}

/-- The context in the processor names the process on it. -/
theorem owner_running (sound : Sound s) {k : Context}
    (mode : s.mode = .kernel k) : k.Owner s.running := by
  obtain ⟨p, record, -⟩ := sound.cpu.current
  rw [← sound.context.loaded k p mode record]
  exact sound.context.owner s.running p record

theorem skip_move (sound : Sound s) {m : Move} (applies : m.Guard s) :
    SkipOk (m.effect s) := by
  have ok := sound.coherent
  have same (stays : ¬ m.Switches) := Move.unswitched stays ok applies
  have after := sound.context.move ok sound.cpu applies
  cases m with
  | settle mode eax =>
      refine sound.skip.unswitched sound.context (same id) (.inr ?_)
      intro n found living
      exact sound.skip.not_skipping applies.2.2 found living
  | fault =>
      refine sound.skip.unswitched sound.context (same id) (.inr ?_)
      intro n found living
      exact sound.skip.not_skipping applies found living
  | reap pid r p caller children =>
      refine sound.skip.unswitched sound.context (same id) (.inr ?_)
      obtain ⟨-, calm, -, -, -, distinct, onCpu, -⟩ := applies
      intro n found _
      have record := (Move.reap_procs distinct s.running).symm.trans found
      rw [if_neg distinct.symm, if_pos rfl, Option.some.injEq] at record
      have cleared := sound.skip.not_skipping calm onCpu.1
        (by simp [Process.Living, onCpu.2])
      rw [← record]
      exact cleared
  | refuse r p =>
      refine sound.skip.unswitched sound.context (same id) (.inr ?_)
      have isRunning : r = s.running := by
        rcases applies.2.2 with ⟨q, mode⟩ | ⟨q, message, mode⟩
        · exact sound.owner_running mode
        · exact sound.owner_running mode
      intro n found _
      have record : { p with skipMessage := false } = n := by
        simpa [Move.effect, isRunning] using found
      rw [← record]
  | receive r q content =>
      refine sound.skip.unswitched sound.context (same id) (.inr ?_)
      obtain ⟨-, ⟨message, mode⟩, p, record, cleared⟩ := applies
      have isRunning : r = s.running := sound.owner_running mode
      intro n found _
      have isRecord : s.procs r = some n := isRunning ▸ found
      rw [record, Option.some.injEq] at isRecord
      exact isRecord ▸ cleared
  | dispatch k r p old restored =>
      obtain ⟨outside, next, -, -, -, ⟨content, record, -⟩, -⟩ := applies
      have state := ok.activable_of_nextOut next
      intro x n found living isSet
      have present := found
      rw [Move.dispatch_procs] at found
      split at found
      · rename_i isNew
        subst isNew
        cases found
        have notRunning : x ≠ s.running := by
          rintro rfl
          have cleared := sound.skip.clear outside next.2
            (by simp [Process.Living, state])
          simp [cleared] at isSet
        obtain ⟨stack, -⟩ := sound.skip x p next.2
          (by simp [Process.Living, state]) isSet
        refine ⟨by simpa [notRunning] using stack, fun other => absurd rfl other,
          ?_⟩
        intro _
        exact congrArg Mode.kernel (after.loaded restored _ rfl present).symm
      · rename_i notNew
        obtain ⟨before, wasRecord, rfl⟩ := Option.map_eq_some_iff.mp found
        have notRunning : x ≠ s.running := by
          rintro rfl
          have cleared := sound.skip.clear outside wasRecord living
          simp [cleared] at isSet
        obtain ⟨stack, suspended, -⟩ := sound.skip x before wasRecord living
          isSet
        exact ⟨by simpa [notRunning] using stack,
          fun _ => suspended notRunning, fun isNew => absurd isNew notNew⟩
  | create pid prio p children =>
      obtain ⟨user, onCpu, -⟩ := applies
      have distinct : s.running ≠ s.nextRef := (ok.lt_nextRef onCpu.1).ne
      intro x n found living isSet
      rw [Move.create_procs distinct] at found
      split at found
      · cases found
        simp [KState.created, Process.zeroed] at isSet
      · split at found
        · cases found
          have cleared := sound.skip.clear (by simp [user]) onCpu.1
            (by simp [Process.Living, onCpu.2])
          simp [cleared] at isSet
        · exact sound.skip x n found living isSet
  | createElect pid prio p children =>
      obtain ⟨user, onCpu, -⟩ := applies
      have distinct : s.running ≠ s.nextRef := (ok.lt_nextRef onCpu.1).ne
      intro x n found living isSet
      rw [Move.createElect_procs distinct] at found
      split at found
      · cases found
        simp [KState.created, Process.zeroed] at isSet
      · rename_i notNew
        split at found
        · cases found
          have cleared := sound.skip.clear (by simp [user]) onCpu.1
            (by simp [Process.Living, onCpu.2])
          simp [cleared] at isSet
        · rename_i notRunning
          obtain ⟨stack, suspended, -⟩ := sound.skip x n found living isSet
          exact ⟨stack, fun _ => suspended notRunning,
            fun isNew => absurd isNew notNew⟩
  | handOver q content message sender r p restored =>
      obtain ⟨-, user, -, next, onCpu, -⟩ := applies
      have distinct := ok.running_ne_of_nextOut next onCpu
      have state := ok.inMsgqueue_of_nextOut next
      intro x n found living isSet
      rw [Move.handOver_procs distinct] at found
      split at found
      · rename_i isNew
        subst isNew
        cases found
        have suspended := (sound.skip x p next.2
          (by simp [Process.Living, state]) isSet).2.1 distinct.symm
        simp [state] at suspended
      · rename_i notNew
        split at found
        · cases found
          have cleared := sound.skip.clear (by simp [user]) onCpu.1
            (by simp [Process.Living, onCpu.2])
          simp [cleared] at isSet
        · rename_i notRunning
          obtain ⟨stack, suspended, -⟩ := sound.skip x n found living isSet
          exact ⟨stack, fun _ => suspended notRunning,
            fun isNew => absurd isNew notNew⟩
  | endProcess pid r p how father =>
      cases father <;>
        exact sound.skip.unswitched sound.context (same id) (.inl rfl)
  | resetSem x content count =>
      refine sound.skip.unswitched sound.context (same id) (.inl ?_)
      obtain ⟨_, _, _, released⟩ :=
        s.release_eq x (s.lists (.sem x)).reverse
      simp [Move.effect, released]
  | deleteSem sem x =>
      refine sound.skip.unswitched sound.context (same id) (.inl ?_)
      obtain ⟨_, _, _, released⟩ :=
        s.release_eq x (s.lists (.sem x)).reverse
      simp [Move.effect, released]
  | note | tick | yield | sleep | awaitChild | awaitSend | awaitReceive
  | awaitSem | purge | wakeSleeper | endFatherless | orphan | finish | reprio
  | clearSkip | newQueue | flush | deleteQueue | resetQueue | put | take
  | refill | newSem | acquire | post | postWake | clearReset =>
      exact sound.skip.unswitched sound.context (same id) (.inl rfl)

theorem move (sound : Sound s) {m : Move} (applies : m.Guard s) :
    Sound (m.effect s) where
  coherent := sound.coherent.move applies
  cpu := sound.cpu.move sound.coherent applies
  context := sound.context.move sound.coherent sound.cpu applies
  family := sound.family.move sound.coherent sound.cpu applies
  sem := sound.sem.move sound.coherent applies
  skip := sound.skip_move applies

/-- Soundness along sequences of moves. -/
theorem moves {allowed : Move → KState → Prop} {t : KState}
    (sound : Sound s) (path : Moves allowed s t) : Sound t :=
  path.keeps (fun _ _ _ applies kept => kept.move applies) sound

end Sound

end Nebulea
