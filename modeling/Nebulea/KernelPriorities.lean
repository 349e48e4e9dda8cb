import Nebulea.SemaphoreRuns

/-!
# Who runs

`__scheduler` leaves the processor to a process of highest priority.  The calls
that switch or wake up processes without calling it keep that law, with two
exceptions: `psend` gives the processor to a blocked receiver whatever its
priority is, and `kill` may wake up a father above the killer.
-/

namespace Nebulea

namespace KState

/-- The running process is the one of the current pid, and no activable process
has a higher priority. -/
def HighestRuns (s : KState) : Prop :=
  ∃ p, s.HasPid s.currentPid s.running p ∧
    ∀ r ∈ s.lists .activable, s.prio r ≤ p.priority

end KState

theorem Settled.highestRuns {s : KState} (settled : Settled s)
    (top : s.Top) : s.HighestRuns := by
  obtain ⟨p, onCpu⟩ := settled.onCpu
  refine ⟨p, settled.sound.hasPid_current onCpu, ?_⟩
  intro r member
  rw [← KState.prio_eq onCpu.1]
  exact top r member

/-- The law along a run of calm steps. -/
theorem Run.top {t u : KState} (settled : Settled t)
    (top : t.mode ≠ .pageFault → t.Top)
    (run : Run (fun s a => a.Calm s) t u) :
    u.mode ≠ .pageFault → u.Top := by
  induction run with
  | refl => exact top
  | step front calm next ih =>
      intro outside
      have stepped := (front.settled settled).stepped next
      refine stepped.top outside ?_
      rename_i v _ _
      by_cases faulted : v.mode = .pageFault
      · exact .inr (.inl faulted)
      · exact .inr (.inr ⟨calm, ih faulted⟩)

/-- Once `__scheduler` has switched processes, every return to user mode leaves
the processor to a process of highest priority, until a message is handed over
to a receiver below its sender or a kill wakes up a father above the killer. -/
theorem highest_runs_since_scheduler {s t u : KState} {a : Action}
    (reached : Reachable s) (next : step a s = .next t)
    (ran : switches s.trace < switches t.trace)
    (run : Run (fun b c => c.Calm b) t u) (user : u.mode = .user) :
    u.HighestRuns := by
  have settledT := (reached.step next).settled
  have stepped := reached.settled.stepped next
  have top : t.mode ≠ .pageFault → t.Top := fun outside =>
    stepped.top outside (.inl ran)
  exact (run.settled settledT).highestRuns
    (run.top settledT top (by simp [user]))

/-- After the first scheduling tick the first process, and not idle, runs. -/
theorem highest_runs_after_ticks :
    ∃ s t u, Reachable s ∧ step .tick s = .next t ∧
      switches s.trace < switches t.trace ∧ step .resume t = .next u ∧
      u.mode = .user ∧ u.currentPid = 1 ∧ u.HighestRuns := by
  obtain ⟨u, performed, -, checked⟩ := exists_of_runActions
    ["idle", "autotest"] (([.tick, .tick, .tick, .tick] ++ [.tick]) ++
      [.resume]) (fun u => u.mode == .user && u.currentPid == 1)
    (by decide) (by decide) (by decide +kernel)
  rw [Bool.and_eq_true, beq_iff_eq, beq_iff_eq] at checked
  rw [runActions_append, Option.bind_eq_some_iff] at performed
  obtain ⟨t, toT, resumes⟩ := performed
  have switched := check_of_runActions toT
    (fun t => switches t.trace == 1) (by decide +kernel)
  rw [beq_iff_eq] at switched
  rw [runActions_append, Option.bind_eq_some_iff] at toT
  obtain ⟨s, toS, ticks⟩ := toT
  have before := check_of_runActions toS
    (fun s => switches s.trace == 0) (by decide +kernel)
  rw [beq_iff_eq] at before
  have reached : Reachable s :=
    reachable_of_runActions (by decide) (by decide) toS
  have next := step_of_runActions ticks
  have resumed := step_of_runActions resumes
  have ran : switches s.trace < switches t.trace := by omega
  have run : Run (fun b c => c.Calm b) t u := by
    refine Run.refl.step ?_ resumed
    trivial
  exact ⟨s, t, u, reached, next, ran, resumed, checked.1, checked.2,
    highest_runs_since_scheduler reached next ran run checked.1⟩

/-- A sender above a blocked receiver. -/
def handOverRun : List Action :=
  firstTicks ++ [.call (.start "a" 4096 100), .call (.pcreate 1),
    .call (.waitClock 6), .resume, .call (.preceive 0 ⟨0, false⟩), .resume,
    .tick, .tick, .tick, .tick, .tick, .resume, .call (.psend 0 7)]

/-- The receiver comes back to user mode although its sender is activable and
has a higher priority. -/
theorem handOver_breaks_priorities :
    ∃ s a t, Reachable s ∧ step a s = .next t ∧ t.mode = .user ∧
      ¬ t.HighestRuns := by
  obtain ⟨t, performed, -, checked⟩ := exists_of_runActions
    ["idle", "autotest", "a"] (handOverRun ++ [.resume])
    (fun t => t.mode == .user && t.lists .activable == [0, 1] &&
      t.prio 1 == 128 && t.prio t.running == 100)
    (by decide) (by decide) (by decide +kernel)
  simp only [Bool.and_eq_true, beq_iff_eq] at checked
  obtain ⟨⟨⟨user, activable⟩, sender⟩, receiver⟩ := checked
  rw [runActions_append, Option.bind_eq_some_iff] at performed
  obtain ⟨s, toS, resumes⟩ := performed
  refine ⟨s, .resume, t, reachable_of_runActions (by decide) (by decide) toS,
    step_of_runActions resumes, user, ?_⟩
  rintro ⟨p, has, highest⟩
  have above := highest 1 (by simp [activable])
  rw [KState.prio_eq has.2] at receiver
  omega

end Nebulea
