import Mathlib.Data.List.Induction
import Mathlib.Tactic.Common

/-!
# Logs of a partial machine

A machine answers calls, or does not answer at all.  A log lists the calls of a
run with their answers, oldest first.  One machine simulates another when a
relation between their states is kept by every call that the first answers.
-/

namespace Logged

variable {Call Answer Store Model : Type}

/-- The logs of the runs from `start` through allowed states. -/
inductive Runs (step : Call → Store → Option (Answer × Store))
    (allowed : Store → Prop) (start : Store) :
    List (Call × Answer) → Store → Prop
  | nothing : Runs step allowed start [] start
  | call {log : List (Call × Answer)} {before after : Store} {answer : Answer}
      (front : Runs step allowed start log before) (call : Call)
      (answers : step call before = some (answer, after))
      (permitted : allowed after) :
      Runs step allowed start (log ++ [(call, answer)]) after

variable {step : Call → Store → Option (Answer × Store)}
variable {allowed : Store → Prop} {start last : Store}
variable {log : List (Call × Answer)}

/-- What every answered call keeps holds at the end of a run. -/
theorem Runs.keeps {I : Store → Prop} (runs : Runs step allowed start log last)
    (initially : I start)
    (keep : ∀ {call answer before after}, I before →
      step call before = some (answer, after) → allowed after → I after) :
    I last := by
  induction runs with
  | nothing => exact initially
  | call _ _ answers permitted ih => exact keep ih answers permitted

/-- The last call of a log. -/
theorem Runs.last_call {call : Call} {answer : Answer}
    (runs : Runs step allowed start (log ++ [(call, answer)]) last) :
    ∃ before, Runs step allowed start log before ∧
      step call before = some (answer, last) ∧ allowed last := by
  generalize isLog : log ++ [(call, answer)] = whole at runs
  cases runs with
  | nothing => exact absurd isLog (by simp)
  | call front call' answers permitted =>
      obtain ⟨rfl, same⟩ := List.append_inj' isLog rfl
      cases same
      exact ⟨_, front, answers, permitted⟩

theorem Runs.of_nil (runs : Runs step allowed start [] last) :
    last = start := by
  generalize isNil : ([] : List (Call × Answer)) = log at runs
  cases runs with
  | nothing => rfl
  | call => exact absurd isNil (by simp)

/-- The earlier part of a log belongs to a run. -/
theorem Runs.front {front back : List (Call × Answer)}
    (runs : Runs step allowed start (front ++ back) last) :
    ∃ middle, Runs step allowed start front middle := by
  induction back using List.reverseRecOn generalizing last with
  | nil => exact ⟨last, by rwa [List.append_nil] at runs⟩
  | append_singleton back entry ih =>
      rw [← List.append_assoc] at runs
      obtain ⟨before, runs', -⟩ := runs.last_call
      exact ih runs'

/-- A log determines the state. -/
theorem Runs.unique {last' : Store} (runs : Runs step allowed start log last)
    (runs' : Runs step allowed start log last') : last = last' := by
  induction log using List.reverseRecOn generalizing last last' with
  | nil => exact runs.of_nil.trans runs'.of_nil.symm
  | append_singleton log entry ih =>
      obtain ⟨before, front, answers, -⟩ := runs.last_call
      obtain ⟨before', front', answers', -⟩ := runs'.last_call
      cases ih front front'
      cases answers.symm.trans answers'
      rfl

/-- A simulated machine has the same log. -/
theorem Runs.simulated {step' : Call → Model → Option (Answer × Model)}
    {start' : Model} {R : Store → Model → Prop}
    (runs : Runs step allowed start log last) (initially : R start start')
    (simulate : ∀ {call answer before after model}, R before model →
      step call before = some (answer, after) → allowed after →
        ∃ model', step' call model = some (answer, model') ∧ R after model') :
    ∃ model, Runs step' (fun _ => True) start' log model ∧ R last model := by
  induction runs with
  | nothing => exact ⟨start', .nothing, initially⟩
  | call _ call answers permitted ih =>
      obtain ⟨model, front, related⟩ := ih
      obtain ⟨model', answers', related'⟩ := simulate related answers permitted
      exact ⟨model', front.call call answers' trivial, related'⟩

end Logged
