import Mathlib.Tactic.Common

/-!
# Weakest preconditions for state-and-fault programs

A program in `EStateM` either returns a value or stops with a fault, and keeps
the state it had reached in both cases.  The weakest precondition below takes
one postcondition for each outcome, so that a fault handler can rely on what
was established before the fault.
-/

namespace ExceptState

variable {Fault Store Value Result : Type}

/-- The precondition under which a program ends either in `post` or, when it
faults, in `fault`. -/
def wp (program : EStateM Fault Store Value) (post : Value → Store → Prop)
    (fault : Fault → Store → Prop) (store : Store) : Prop :=
  match program store with
  | .ok value next => post value next
  | .error failure next => fault failure next

variable {post : Value → Store → Prop} {fault : Fault → Store → Prop}
variable {store : Store}

@[simp]
theorem wp_pure (value : Value) :
    wp (pure value) post fault store = post value store :=
  rfl

@[simp]
theorem wp_bind (first : EStateM Fault Store Result)
    (second : Result → EStateM Fault Store Value) :
    wp (first >>= second) post fault store =
      wp first (fun value => wp (second value) post fault) fault store := by
  change (match EStateM.bind first second store with
    | .ok value next => post value next
    | .error failure next => fault failure next) = _
  unfold wp EStateM.bind
  cases first store <;> rfl

/-- Sequencing below a postcondition, where the store is still open. -/
theorem wp_bind_eq (first : EStateM Fault Store Result)
    (second : Result → EStateM Fault Store Value) :
    wp (first >>= second) post fault =
      wp first (fun value => wp (second value) post fault) fault :=
  funext fun _ => wp_bind first second

@[simp]
theorem wp_get {post : Store → Store → Prop} :
    wp (get : EStateM Fault Store Store) post fault store =
      post store store :=
  rfl

@[simp]
theorem wp_modify {post : Unit → Store → Prop} (change : Store → Store) :
    wp (modify change : EStateM Fault Store Unit) post fault store =
      post () (change store) :=
  rfl

@[simp]
theorem wp_set {post : Unit → Store → Prop} (next : Store) :
    wp (set next : EStateM Fault Store Unit) post fault store =
      post () next :=
  rfl

@[simp]
theorem wp_throw (failure : Fault) :
    wp (throw failure : EStateM Fault Store Value) post fault store =
      fault failure store :=
  rfl

@[simp]
theorem wp_ite (condition : Prop) [Decidable condition]
    (yes no : EStateM Fault Store Value) :
    wp (if condition then yes else no) post fault store =
      if condition then wp yes post fault store
      else wp no post fault store := by
  split <;> rfl

/-- Both postconditions may be weakened. -/
theorem wp_mono {program : EStateM Fault Store Value}
    {post' : Value → Store → Prop} {fault' : Fault → Store → Prop}
    (holds : wp program post fault store)
    (onReturn : ∀ value next, post value next → post' value next)
    (onFault : ∀ failure next, fault failure next → fault' failure next) :
    wp program post' fault' store := by
  unfold wp at holds ⊢
  cases outcome : program store with
  | ok value next =>
      rw [outcome] at holds
      exact onReturn value next holds
  | error failure next =>
      rw [outcome] at holds
      exact onFault failure next holds

/-- Two rules for one program hold together. -/
theorem wp_and {program : EStateM Fault Store Value}
    {post' : Value → Store → Prop} {fault' : Fault → Store → Prop}
    (first : wp program post fault store)
    (second : wp program post' fault' store) :
    wp program (fun value next => post value next ∧ post' value next)
      (fun failure next => fault failure next ∧ fault' failure next) store := by
  unfold wp at first second ⊢
  cases outcome : program store with
  | ok value next =>
      rw [outcome] at first second
      exact ⟨first, second⟩
  | error failure next =>
      rw [outcome] at first second
      exact ⟨first, second⟩

/-- What a weakest precondition says about a program that returned. -/
theorem wp_ok {program : EStateM Fault Store Value} {value : Value}
    {next : Store} (holds : wp program post fault store)
    (returned : program store = .ok value next) : post value next := by
  unfold wp at holds
  rwa [returned] at holds

/-- What a weakest precondition says about a program that faulted. -/
theorem wp_error {program : EStateM Fault Store Value} {failure : Fault}
    {next : Store} (holds : wp program post fault store)
    (faulted : program store = .error failure next) :
    fault failure next := by
  unfold wp at holds
  rwa [faulted] at holds

/-- A sequence that returned, step by step. -/
theorem bind_ok {first : EStateM Fault Store Result}
    {second : Result → EStateM Fault Store Value} {value : Value}
    {next : Store} (returned : (first >>= second) store = .ok value next) :
    ∃ result between, first store = .ok result between ∧
      second result between = .ok value next := by
  change EStateM.bind first second store = _ at returned
  unfold EStateM.bind at returned
  split at returned
  · rename_i result between isFirst
    exact ⟨result, between, isFirst, returned⟩
  · cases returned

/-- A program that keeps a fact about the store, whether it returns or
faults. -/
def Keeps (fact : Store → Prop) (program : EStateM Fault Store Value) : Prop :=
  ∀ store, fact store → wp program (fun _ => fact) (fun _ => fact) store

namespace Keeps

variable {fact : Store → Prop}

theorem get : Keeps fact (MonadState.get : EStateM Fault Store Store) :=
  fun _ holds => holds

theorem pure (value : Value) :
    Keeps fact (Pure.pure value : EStateM Fault Store Value) :=
  fun _ holds => holds

theorem throw (failure : Fault) :
    Keeps fact (MonadExcept.throw failure : EStateM Fault Store Value) :=
  fun _ holds => holds

theorem modify {change : Store → Store}
    (kept : ∀ store, fact store → fact (change store)) :
    Keeps fact (modifyGet (fun store => (PUnit.unit, change store)) :
      EStateM Fault Store PUnit) :=
  kept

theorem bind {first : EStateM Fault Store Result}
    {second : Result → EStateM Fault Store Value} (before : Keeps fact first)
    (after : ∀ value, Keeps fact (second value)) :
    Keeps fact (first >>= second) := by
  intro store holds
  rw [wp_bind]
  exact wp_mono (before store holds) (fun value next => after value next)
    (fun _ _ kept => kept)

end Keeps

/-- Loop rule: a fact indexed by the elements still to be visited is kept by
every turn of a loop over a list. -/
theorem wp_forM {Element : Type} {body : Element → EStateM Fault Store Unit}
    {post : Unit → Store → Prop} (loop : List Element → Store → Prop)
    (turn : ∀ element rest next, loop (element :: rest) next →
      wp (body element) (fun _ => loop rest) fault next)
    (done : ∀ next, loop [] next → post () next)
    (elements : List Element) (start : loop elements store) :
    wp (elements.forM body) post fault store := by
  induction elements generalizing store with
  | nil => exact done store start
  | cons element rest ih =>
      change wp (body element >>= fun _ => rest.forM body) post fault store
      rw [wp_bind]
      exact wp_mono (turn element rest store start)
        (fun _ next kept => ih kept) (fun _ _ faulted => faulted)

theorem Keeps.forM {Element : Type} {fact : Store → Prop}
    {body : Element → EStateM Fault Store Unit}
    (turn : ∀ element, Keeps fact (body element)) (elements : List Element) :
    Keeps fact (elements.forM body) :=
  fun _ holds => wp_forM (fun _ => fact) (fun element _ => turn element)
    (fun _ kept => kept) elements holds

end ExceptState
