import Nebulea.KernelRuns

/-!
# What runs record

Each move adds its own events to the trace and removes none, so that what
happened since a given state is a list of events in front of the trace of that
state.
-/

namespace Nebulea

/-- The events a move records, the last one first. -/
def Move.events (s : KState) : Move → List Event
  | .note e => [e]
  | .awaitSend _ _ q message => [.sending s.running q message]
  | .dispatch _ _ _ old _ =>
      [.contextSwitch s.running old (s.lists .finished)]
  | .endProcess _ r _ how _ => [how.event r]
  | .endFatherless _ r _ how => [how.event r]
  | .put q _ _ message =>
      [.put q s.running message, .sending s.running q message]
  | .take q content => [.take q s.running (content.buffer content.tail)]
  | .refill q content r p =>
      [.put q r p.message, .take q s.running (content.buffer content.tail)]
  | .handOver q _ message _ _ _ _ =>
      [.put q s.running message, .sending s.running q message]
  | .receive r q content => [.take q r (content.buffer content.tail)]
  | .acquire x _ => [.granted x s.running]
  | .post x _ => [.signalled x]
  | .postWake x _ r _ _ => [.granted x r, .signalled x]
  | .resetSem x _ _ => [.reset x]
  | _ => []

theorem Move.trace_effect (m : Move) (s : KState) :
    (m.effect s).trace = m.events s ++ s.trace := by
  cases m with
  | endProcess pid r p how father => cases father <;> rfl
  | resetSem x content count =>
      simp [Move.effect, Move.events]
  | deleteSem sem x =>
      simp [Move.effect, Move.events]
  | _ => rfl

/-- What a list of events says of one kind, in the order in which it happened;
the last event comes first. -/
def recorded {α : Type} (kind : Event → Option α) (since : List Event) :
    List α :=
  (since.filterMap kind).reverse

@[simp]
theorem recorded_nil {α : Type} (kind : Event → Option α) :
    recorded kind [] = [] :=
  rfl

@[simp]
theorem recorded_cons {α : Type} (kind : Event → Option α) (e : Event)
    (since : List Event) :
    recorded kind (e :: since) = recorded kind since ++ (kind e).toList := by
  cases isKind : kind e <;> simp [recorded, isKind]

theorem recorded_append {α : Type} (kind : Event → Option α)
    (new since : List Event) :
    recorded kind (new ++ since) = recorded kind since ++ recorded kind new := by
  rw [recorded, recorded, recorded, List.filterMap_append, List.reverse_append]

/-- A fact about the events since `s`, kept by every move. -/
theorem Run.keeps_since {meets : KState → Action → Prop} {s t : KState}
    (run : Run meets s t) (settled : Settled s)
    {I : List Event → KState → Prop}
    (keep : ∀ b a u (m : Move) past since, meets b a → Settled b → I past b →
      Sound u → m.By b a u → m.Guard u → I since u →
        I (m.events u ++ since) (m.effect u))
    (start : I [] s) :
    ∃ since, t.trace = since ++ s.trace ∧ I since t := by
  refine run.keeps settled
    (I := fun u => ∃ since, u.trace = since ++ s.trace ∧ I since u) ?_
    ⟨[], rfl, start⟩
  rintro b a u m met settledB ⟨past, -, before⟩ sound permitted applies
    ⟨since, trace, kept⟩
  refine ⟨m.events u ++ since, ?_, keep b a u m past since met settledB before
    sound permitted applies kept⟩
  rw [m.trace_effect, trace, List.append_assoc]

end Nebulea
