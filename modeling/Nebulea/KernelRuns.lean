import Nebulea.KernelActions

/-!
# Runs of the kernel

A run starts in the state `kernel_start` leaves and goes on as long as no fault
stops it.  What every move keeps holds in every state of a run, and what only
some moves keep holds along the runs whose steps meet a condition.
-/

namespace Nebulea

open ExceptState

/-- A run whose steps all meet a condition on the state and the action. -/
inductive Run (meets : KState → Action → Prop) (s : KState) : KState → Prop
  | refl : Run meets s s
  | step {t u : KState} {a : Action} (front : Run meets s t)
      (met : meets t a) (next : step a t = .next u) : Run meets s u

/-- `s` is reached from the state left by `kernel_start`. -/
def Reachable (s : KState) : Prop :=
  ∃ apps b, Booted apps b ∧ Run (fun _ _ => True) b s

/-- What holds between two steps. -/
structure Settled (s : KState) : Prop where
  sound : Sound s
  onCpu : ∃ p, s.OnCpu p

section Runs

variable {meets : KState → Action → Prop} {s t : KState} {a : Action}

theorem Settled.stepped (settled : Settled s) (next : step a s = .next t) :
    Stepped s a t := by
  obtain ⟨p, onCpu⟩ := settled.onCpu
  exact step_next settled.sound onCpu next

theorem Settled.after (settled : Settled s) (next : step a s = .next t) :
    Settled t := by
  have stepped := settled.stepped next
  exact ⟨settled.sound.moves stepped.path, stepped.onCpu⟩

/-- Only processes off the processor are in a list. -/
theorem Settled.suspended_of_link (settled : Settled s) {r : ProcRef}
    {p : Process} {h : Head} (record : s.procs r = some p)
    (link : p.link = some h) : r ≠ s.running := by
  rintro rfl
  obtain ⟨current, onCpu⟩ := settled.onCpu
  have unlinked := settled.sound.coherent.link_of_elected onCpu.1 onCpu.2
  cases onCpu.1.symm.trans record
  cases unlinked.symm.trans link

/-- An invariant of the moves of a step, given that it holds at the start. -/
theorem Settled.keeps (settled : Settled s) (next : step a s = .next t)
    {I : KState → Prop}
    (keep : ∀ u (m : Move), Sound u → m.By s a u → m.Guard u → I u →
      I (m.effect u))
    (start : I s) : I t := by
  have both : Sound t ∧ I t := by
    refine (settled.stepped next).path.keeps (I := fun u => Sound u ∧ I u) ?_
      ⟨settled.sound, start⟩
    rintro m u permitted applies ⟨sound, kept⟩
    exact ⟨sound.move applies, keep u m sound permitted applies kept⟩
  exact both.2

theorem Run.settled (run : Run meets s t) (settled : Settled s) :
    Settled t := by
  induction run with
  | refl => exact settled
  | step _ _ next ih => exact ih.after next

theorem Run.trans {u : KState} (front : Run meets s t)
    (back : Run meets t u) : Run meets s u := by
  induction back with
  | refl => exact front
  | step _ met next ih => exact ih.step met next

theorem Run.mono {meets' : KState → Action → Prop} (run : Run meets s t)
    (weaker : ∀ t a, meets t a → meets' t a) : Run meets' s t := by
  induction run with
  | refl => exact .refl
  | step _ met next ih => exact ih.step (weaker _ _ met) next

/-- An invariant of moves holds along runs. -/
theorem Run.keeps (run : Run meets s t) (settled : Settled s)
    {I : KState → Prop}
    (keep : ∀ b a u (m : Move), meets b a → Settled b → I b → Sound u → m.By b a u →
      m.Guard u → I u → I (m.effect u))
    (start : I s) : I t := by
  induction run with
  | refl => exact start
  | step front met next ih =>
      exact (front.settled settled).keeps next
        (fun u m => keep _ _ u m met (front.settled settled) ih) ih

end Runs

/-- System calls come from user mode. -/
theorem mode_of_call {s t : KState} {c : Syscall}
    (next : step (.call c) s = .next t) : s.mode = .user := by
  unfold step at next
  cases mode : s.mode with
  | user => rfl
  | kernel k =>
      rw [mode] at next
      cases next
  | pageFault =>
      rw [mode] at next
      cases next

/-- What a step achieves, whether its code returns or faults. -/
theorem post_of_step {s t : KState} {a : Action} {code : KM Unit}
    (post : KState → Prop) (entry : kernelEntry s.mode a = some code)
    (next : step a s = .next t)
    (rule : wp code (fun _ => post) (fun failure u => failure = .page →
      post { u with mode := .pageFault }) s) : post t := by
  unfold step at next
  rw [entry] at next
  simp only [] at next
  unfold wp at rule
  cases outcome : code s with
  | ok value u =>
      rw [outcome] at next rule
      cases next
      exact rule
  | error failure u =>
      rw [outcome] at next rule
      cases failure with
      | page =>
          cases next
          exact rule rfl
      | panic | assertion | useAfterFree | lostContext | noActivable
      | nullHead | endlessLoop => cases next

/-- A step whose code cannot fault and ends in one state. -/
theorem step_of_wp {s v : KState} {a : Action} {code : KM Unit}
    (entry : kernelEntry s.mode a = some code)
    (rule : wp code (fun _ u => u = v) (fun _ _ => False) s) :
    step a s = .next v := by
  unfold step
  rw [entry]
  simp only []
  unfold wp at rule
  cases outcome : code s with
  | ok value u =>
      rw [outcome] at rule
      simp only [] at rule
      rw [rule]
  | error failure u =>
      rw [outcome] at rule
      exact absurd rule id

/-- What a restored context that cannot fault achieves. -/
theorem post_of_resume {s t : KState} {k : Context}
    (post : Unit → KState → Prop) (mode : s.mode = .kernel k)
    (next : step .resume s = .next t)
    (rule : wp (resume k) post (fun failure _ => failure ≠ .page) s) :
    post () t := by
  refine post_of_step (post ()) (by rw [mode]; rfl) next ?_
  exact wp_mono rule (fun _ _ holds => holds)
    fun _ _ other isPage => absurd isPage other

/-- Perform a list of actions. -/
def runActions : List Action → KState → Option KState
  | [], s => some s
  | a :: rest, s =>
      match step a s with
      | .next t => runActions rest t
      | _ => none

/-- The first process runs from the fifth tick on. -/
def firstTicks : List Action :=
  [.tick, .tick, .tick, .tick, .tick, .resume]

theorem runActions_append (front back : List Action) (s : KState) :
    runActions (front ++ back) s =
      (runActions front s).bind (runActions back) := by
  induction front generalizing s with
  | nil => rfl
  | cons a rest ih =>
      simp only [List.cons_append, runActions]
      split
      · exact ih _
      · rfl

theorem step_of_runActions {a : Action} {s t : KState}
    (performed : runActions [a] s = some t) : step a s = .next t := by
  unfold runActions at performed
  split at performed
  · rename_i u next
    cases performed
    exact next
  · cases performed

/-- What holds of the last state, by evaluation. -/
theorem check_of_runActions {actions : List Action} {s t : KState}
    (performed : runActions actions s = some t) (check : KState → Bool)
    (evaluated : (runActions actions s).any check = true) :
    check t = true := by
  rw [performed] at evaluated
  exact evaluated

/-- A test of every state and action of a list of actions. -/
def allAlong (check : KState → Action → Bool) : List Action → KState → Bool
  | [], _ => true
  | a :: rest, s =>
      check s a && match step a s with
        | .next t => allAlong check rest t
        | _ => false

/-- A run whose steps pass a test, by evaluation. -/
theorem run_of_allAlong {meets : KState → Action → Prop}
    {actions : List Action} {s t : KState} (settled : Settled s)
    (performed : runActions actions s = some t)
    (check : KState → Action → Bool)
    (means : ∀ u a, Settled u → check u a = true → meets u a)
    (evaluated : allAlong check actions s = true) : Run meets s t := by
  induction actions generalizing s with
  | nil =>
      cases performed
      exact .refl
  | cons a rest ih =>
      unfold runActions at performed
      unfold allAlong at evaluated
      rw [Bool.and_eq_true] at evaluated
      split at performed
      · rename_i u next
        rw [next] at evaluated
        exact (Run.refl.step (means s a settled evaluated.1) next).trans
          (ih (settled.after next) performed evaluated.2)
      · cases performed

/-- A run whose actions meet the condition in every state. -/
theorem run_of_forall {meets : KState → Action → Prop}
    {actions : List Action} {s t : KState}
    (performed : runActions actions s = some t)
    (all : ∀ a ∈ actions, ∀ u, meets u a) : Run meets s t := by
  induction actions generalizing s with
  | nil =>
      cases performed
      exact .refl
  | cons a rest ih =>
      unfold runActions at performed
      split at performed
      · rename_i u next
        exact (Run.refl.step (all a List.mem_cons_self s) next).trans
          (ih performed fun b member =>
            all b (List.mem_cons_of_mem a member))
      · cases performed

theorem run_of_runActions {actions : List Action} {s t : KState}
    (performed : runActions actions s = some t) :
    Run (fun _ _ => True) s t :=
  run_of_forall performed fun _ _ _ => trivial

/-! ## Boot -/

/-- The record of idle. -/
def idleRecord : Process :=
  { Process.zeroed with priority := 1 }

/-- The record of the first process, which idle starts. -/
def autotestRecord : Process :=
  { Process.zeroed with
    pid := 1
    state := .activable
    priority := 128
    link := some .activable
    fatherPid := -1
    children := some []
    registers := some .fresh }

/-- The state that `kernel_start` leaves. -/
def bootState (apps : List String) : KState :=
  { KState.zeroed apps with
    currentPid := 0
    processTable := Function.update
      (Function.update (fun _ => none) 0 (some 0)) 1 (some 1)
    procs := Function.update
      (Function.update (fun _ => none) 0 (some idleRecord)) 1
        (some autotestRecord)
    lists := Function.update (fun _ => []) .activable [1]
    nextRef := 2
    stamp := 1
    eax := 1 }

/-- The state after `__init_idle`. -/
def idleState (apps : List String) : KState :=
  { KState.zeroed apps with
    processTable := Function.update (fun _ => none) 0 (some 0)
    procs := Function.update (fun _ => none) 0 (some idleRecord)
    nextRef := 1 }

theorem wp_bootStart {apps : List String} {post : Unit → KState → Prop}
    {fault : Fault → KState → Prop}
    (missing : "autotest" ∉ apps → ∀ failure t, fault failure t)
    (started : post () { bootState apps with
      currentPid := -1, mode := .user }) :
    wp (start "autotest" 4096 128) post fault (idleState apps) := by
  have free : getFreePid (idleState apps) = 1 := by rfl
  have inserted : ((idleState apps).inserted 1 128).procs 1 =
      some ((idleState apps).created 1 128) := by
    rfl
  have woken : ((idleState apps).inserted 1 128).wake 1
      ((idleState apps).created 1 128) none =
      { bootState apps with currentPid := -1, eax := 0 } := by
    apply KState.ext <;> try rfl
    exact Function.update_idem ..
  have record : KState.procs
      { bootState apps with currentPid := -1, eax := 0 } 1 =
        some autotestRecord := by
    rfl
  rw [start, wp_bind, wp_get, free, wp_ite, if_neg (by decide), wp_ite]
  split
  · rename_i absent
    exact missing absent _ _
  rw [wp_ite, if_neg (by decide), wp_bind, wp_modify]
  change wp (do activate 1; startTail 1) post _
    ((idleState apps).inserted 1 128)
  rw [wp_bind, wp_activate inserted rfl, woken, startTail, wp_bind,
    wp_modifyProc_same _ record rfl, wp_bind, wp_derefProc record, wp_ret]
  exact started

/-- `kernel_start` succeeds when both applications are there, and leaves the
state above. -/
theorem wp_kernelStart (apps : List String) :
    wp kernelStart (fun _ t => t = bootState apps)
      (fun _ _ => "idle" ∉ apps ∨ "autotest" ∉ apps) (KState.zeroed apps) := by
  rw [kernelStart, wp_bind, wp_get, wp_bind, initIdle, wp_bind, wp_get, wp_ite]
  split
  · rename_i absent
    exact .inl absent
  rw [wp_modify, wp_bind]
  exact wp_bootStart (fun absent _ _ => .inr absent) rfl

theorem booted_eq {apps : List String} {s : KState} (booted : Booted apps s) :
    s = bootState apps := by
  have rule := wp_kernelStart apps
  unfold wp at rule
  rw [show kernelStart (KState.zeroed apps) = .ok () s from booted] at rule
  exact rule

theorem booted_bootState {apps : List String} (idle : "idle" ∈ apps)
    (autotest : "autotest" ∈ apps) : Booted apps (bootState apps) := by
  have rule := wp_kernelStart apps
  unfold wp at rule
  unfold Booted
  cases outcome : kernelStart (KState.zeroed apps) with
  | ok value t =>
      rw [outcome] at rule
      simp only [] at rule
      rw [rule]
  | error failure t =>
      rw [outcome] at rule
      rcases rule with absent | absent
      · exact absurd idle absent
      · exact absurd autotest absent

section Boot

variable {apps : List String}

theorem bootState_procs {r : ProcRef} {p : Process}
    (found : (bootState apps).procs r = some p) :
    r = 0 ∧ p = idleRecord ∨ r = 1 ∧ p = autotestRecord := by
  by_cases isAutotest : r = 1
  · subst isAutotest
    exact .inr ⟨rfl, (Option.some.inj found).symm⟩
  · by_cases isIdle : r = 0
    · subst isIdle
      exact .inl ⟨rfl, (Option.some.inj found).symm⟩
    · simp [bootState, isAutotest, isIdle] at found

theorem bootState_coherent : Coherent (bootState apps) := by
  refine ⟨⟨?_, ?_, ?_⟩, ⟨?_, ?_, ?_⟩, ⟨?_, ?_, ?_, ?_⟩⟩
  · intro r h
    constructor
    · intro member
      by_cases isActivable : h = .activable
      · subst isActivable
        have isFirst : r = 1 := by simpa [bootState] using member
        subst isFirst
        exact ⟨autotestRecord, rfl, rfl⟩
      · simp [bootState, isActivable] at member
    · rintro ⟨p, found, link⟩
      rcases bootState_procs found with ⟨rfl, rfl⟩ | ⟨rfl, rfl⟩
      · simp [idleRecord, Process.zeroed] at link
      · cases Option.some.inj link
        simp [bootState]
  · intro h
    by_cases isActivable : h = .activable
    · subst isActivable
      exact List.pairwise_singleton _ _
    · have empty : (bootState apps).lists h = [] := by
        simp [bootState, isActivable]
      rw [empty]
      exact List.Pairwise.nil
  · intro r p found link
    rcases bootState_procs found with ⟨rfl, rfl⟩ | ⟨rfl, rfl⟩
    · exact absurd rfl link
    · exact Nat.zero_lt_one
  · intro pid r listed
    by_cases isFirst : pid = 1
    · subst isFirst
      cases Option.some.inj listed
      exact ⟨by decide, by decide, autotestRecord, rfl, rfl, by decide⟩
    · by_cases isIdle : pid = 0
      · subst isIdle
        cases Option.some.inj listed
        exact ⟨by decide, by decide, idleRecord, rfl, rfl, by decide⟩
      · simp [bootState, isFirst, isIdle] at listed
  · intro r p found _
    rcases bootState_procs found with ⟨rfl, rfl⟩ | ⟨rfl, rfl⟩ <;> rfl
  · intro r p found
    rcases bootState_procs found with ⟨rfl, rfl⟩ | ⟨rfl, rfl⟩ <;> rfl
  · intro fid q listed
    simp [bootState, KState.zeroed] at listed
  · intro sem x listed
    simp [bootState, KState.zeroed] at listed
  · intro x content found
    simp [bootState, KState.zeroed] at found
  · intro r fresh
    have large : 2 ≤ r := fresh
    have notIdle : r ≠ 0 := by omega
    have notFirst : r ≠ 1 := by omega
    simp [bootState, KState.zeroed, notIdle, notFirst]

theorem bootState_settled : Settled (bootState apps) := by
  refine ⟨⟨bootState_coherent, ⟨⟨idleRecord, rfl, rfl⟩, ?_⟩, ?_, ?_, ?_, ?_⟩,
    idleRecord, rfl, rfl⟩
  · intro r p found elected
    rcases bootState_procs found with ⟨rfl, rfl⟩ | ⟨rfl, rfl⟩
    · rfl
    · simp [autotestRecord] at elected
  · constructor
    · intro r p found
      rcases bootState_procs found with ⟨rfl, rfl⟩ | ⟨rfl, rfl⟩ <;> trivial
    · intro r p found _ other k saved
      rcases bootState_procs found with ⟨rfl, rfl⟩ | ⟨rfl, rfl⟩
      · exact absurd rfl other
      · exact (Option.some.inj saved).symm
    · intro p found
      rcases bootState_procs found with ⟨-, rfl⟩ | ⟨isFirst, -⟩
      · rfl
      · cases isFirst
    · intro k p mode
      cases mode
    · intro r p found _ other
      rcases bootState_procs found with ⟨rfl, rfl⟩ | ⟨rfl, rfl⟩
      · exact absurd rfl other
      · exact .of_activable rfl rfl
  · constructor
    · intro r p l found _ isList
      rcases bootState_procs found with ⟨rfl, rfl⟩ | ⟨rfl, rfl⟩
      · cases isList
      · cases Option.some.inj isList
        simp
    · intro r p found self
      rcases bootState_procs found with ⟨rfl, rfl⟩ | ⟨rfl, rfl⟩
      · rfl
      · simp [autotestRecord] at self
    · rintro r p pid retvalp found _ ⟨stack, -⟩
      rcases bootState_procs found with ⟨rfl, rfl⟩ | ⟨rfl, rfl⟩ <;> cases stack
  · rintro x c ⟨⟨sem, listed⟩, -⟩
    simp [bootState, KState.zeroed] at listed
  · intro r p found _ isSet
    rcases bootState_procs found with ⟨rfl, rfl⟩ | ⟨rfl, rfl⟩ <;> cases isSet

end Boot

theorem Reachable.settled {s : KState} (reached : Reachable s) :
    Settled s := by
  obtain ⟨apps, b, booted, run⟩ := reached
  cases booted_eq booted
  exact run.settled bootState_settled

theorem reachable_of_runActions {apps : List String} {actions : List Action}
    {s : KState} (idle : "idle" ∈ apps) (autotest : "autotest" ∈ apps)
    (performed : runActions actions (bootState apps) = some s) :
    Reachable s :=
  ⟨apps, _, booted_bootState idle autotest, run_of_runActions performed⟩

/-- A state that a list of actions reaches, with what evaluation says of it. -/
theorem exists_of_runActions (apps : List String) (actions : List Action)
    (check : KState → Bool) (idle : "idle" ∈ apps)
    (autotest : "autotest" ∈ apps)
    (evaluated : (runActions actions (bootState apps)).any check = true) :
    ∃ s, runActions actions (bootState apps) = some s ∧ Reachable s ∧
      check s = true := by
  cases performed : runActions actions (bootState apps) with
  | none =>
      rw [performed] at evaluated
      cases evaluated
  | some s =>
      exact ⟨s, rfl, reachable_of_runActions idle autotest performed,
        check_of_runActions performed check evaluated⟩

theorem Reachable.step {s t : KState} {a : Action} (reached : Reachable s)
    (next : step a s = .next t) : Reachable t := by
  obtain ⟨apps, b, booted, run⟩ := reached
  exact ⟨apps, b, booted, run.step trivial next⟩

theorem Reachable.run {meets : KState → Action → Prop} {s t : KState}
    (reached : Reachable s) (run : Run meets s t) : Reachable t := by
  obtain ⟨apps, b, booted, front⟩ := reached
  exact ⟨apps, b, booted, front.trans (run.mono fun _ _ _ => trivial)⟩

end Nebulea
