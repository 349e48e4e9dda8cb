import Nebulea.KernelRuns

/-!
# Kernel stacks

`start` reads the size of a kernel stack as bytes when it allocates the stack
and as a number of `int`s when it computes the top, and so does
`virtual_ctx_sw`.  The stack of idle has a size given in `int`s and fits both
ways.
-/

namespace Nebulea

/-- `pointer + count`, for a `pointer` of type `int *`. -/
def intOffset (pointer : Nat) (count : Int) : Nat :=
  (((pointer : Int) + 4 * count) % 0x100000000).toNat

/-- The fields of a process record that concern the kernel stack when the
process is made, the bytes allocated for the stack and the words stored
there. -/
structure KernelStack where
  initialKernelStack : Nat
  allocated : Nat
  kernelStackSize : Nat
  kernelStack : Nat
  esp : Nat
  ebp : Nat
  stored : List (Nat × Nat)
  deriving DecidableEq, Repr

/-- The part of `start` that sets up the kernel stack. -/
def startKernelStack (initialKernelStack arg newProcessStartFunction : Nat) :
    KernelStack :=
  let kernelStackSize : Nat := 8192
  let first := intOffset initialKernelStack ((kernelStackSize : Int) - 8)
  let second := intOffset first (-1)
  let third := intOffset second (-1)
  { initialKernelStack := initialKernelStack
    allocated := kernelStackSize
    kernelStackSize := kernelStackSize
    kernelStack := third
    esp := third
    ebp := third
    stored := [(first, arg), (second, 0), (third, newProcessStartFunction)] }

/-- The part of `__init_idle` that sets up the kernel stack. -/
def idleKernelStack (kernelStack : Nat) : KernelStack where
  initialKernelStack := kernelStack
  allocated := 2048
  kernelStackSize := 512
  kernelStack := kernelStack
  esp := intOffset kernelStack 511
  ebp := intOffset kernelStack 511
  stored := [(intOffset kernelStack 511, 0x40000000)]

namespace KernelStack

/-- `tss.esp0` after `virtual_ctx_sw` to the process. -/
def esp0 (stack : KernelStack) : Nat :=
  intOffset stack.kernelStack stack.kernelStackSize

/-- `tss.esp0` when `kernel_start` enters the process, in bytes. -/
def bootEsp0 (stack : KernelStack) : Nat :=
  (stack.kernelStack + stack.kernelStackSize) % 0x100000000

/-- The address is inside the stack or one past its end. -/
def Reaches (stack : KernelStack) (a : Nat) : Prop :=
  stack.initialKernelStack ≤ a ∧ a ≤ stack.initialKernelStack + stack.allocated

/-- The word at this address is inside the stack. -/
def Holds (stack : KernelStack) (a : Nat) : Prop :=
  stack.initialKernelStack ≤ a ∧
    a + 4 ≤ stack.initialKernelStack + stack.allocated

instance (stack : KernelStack) (a : Nat) : Decidable (stack.Reaches a) :=
  inferInstanceAs (Decidable (_ ∧ _))

instance (stack : KernelStack) (a : Nat) : Decidable (stack.Holds a) :=
  inferInstanceAs (Decidable (_ ∧ _))

/-- Everything that is written to the stack or loaded as a stack pointer lies
in the bytes allocated for it. -/
structure Fits (stack : KernelStack) : Prop where
  stored : ∀ word ∈ stack.stored, stack.Holds word.1
  esp : stack.Holds stack.esp
  esp0 : stack.Reaches stack.esp0

end KernelStack

/-- Where `mem_alloc` places the kernel stack of each process, in memory, and
what `start` stores there. -/
structure StackPlaces where
  place : ProcRef → Nat
  inMemory : ∀ r, place r + 8192 ≤ 0x100000000
  arg : ProcRef → Nat
  newProcessStartFunction : Nat

/-- The kernel stack of a process record. -/
def StackPlaces.stackOf (places : StackPlaces) (r : ProcRef) : KernelStack :=
  if r = idleRef then idleKernelStack (places.place idleRef)
  else
    startKernelStack (places.place r) (places.arg r)
      places.newProcessStartFunction

/-- The kernel with the field `esp0` of its task state segment. -/
structure Segmented where
  kernel : KState
  esp0 : Nat

namespace Segmented

/-- The kernel entry that leads to the state `s`.  It ends in
`virtual_ctx_sw` when it leaves another process on the processor or a context
to go on with. -/
def after (places : StackPlaces) (m : Segmented) (s : KState) : Segmented where
  kernel := s
  esp0 :=
    if s.running ≠ m.kernel.running then (places.stackOf s.running).esp0
    else
      match s.mode with
      | .kernel _ => (places.stackOf s.running).esp0
      | _ => m.esp0

/-- The state that `kernel_start` leaves. -/
def booted (places : StackPlaces) (s : KState) : Segmented where
  kernel := s
  esp0 := (places.stackOf idleRef).bootEsp0

/-- A run of kernel entries. -/
inductive Run (places : StackPlaces) (m : Segmented) : Segmented → Prop
  | refl : Run places m m
  | step {m' : Segmented} {a : Action} {s : KState} (front : Run places m m')
      (next : Nebulea.step a m'.kernel = .next s) :
      Run places m (m'.after places s)

/-- Perform a list of kernel entries. -/
def runActions (places : StackPlaces) : List Action → Segmented →
    Option Segmented
  | [], m => some m
  | a :: rest, m =>
      match Nebulea.step a m.kernel with
      | .next s => runActions places rest (m.after places s)
      | _ => none

end Segmented

/-! ## Addresses -/

section Addresses

variable {base : Nat} {places : StackPlaces} {r : ProcRef}

theorem intOffset_intOffset (pointer : Nat) (count count' : Int) :
    intOffset (intOffset pointer count) count' =
      intOffset pointer (count + count') := by
  unfold intOffset
  omega

/-- No address that `start` computes from the size of a stack is inside. -/
theorem intOffset_misses {count : Int} (inMemory : base + 8192 ≤ 0x100000000)
    (low : 2049 ≤ count) (high : count < 0x3FFFFFFF) :
    ¬ (base ≤ intOffset base count ∧ intOffset base count ≤ base + 8192) := by
  unfold intOffset
  omega

/-- The addresses that `start` and `virtual_ctx_sw` use. -/
theorem startKernelStack_addresses (arg function : Nat) :
    (startKernelStack base arg function).stored =
        [(intOffset base 8184, arg), (intOffset base 8183, 0),
          (intOffset base 8182, function)] ∧
      (startKernelStack base arg function).esp = intOffset base 8182 ∧
      (startKernelStack base arg function).esp0 = intOffset base 16374 := by
  unfold KernelStack.esp0 startKernelStack
  simp [intOffset_intOffset]

/-- What `start` uses as the stack of a process lies outside that stack. -/
structure KernelStack.Misses (stack : KernelStack) : Prop where
  stored : ∀ word ∈ stack.stored, ¬ stack.Reaches word.1
  esp : ¬ stack.Reaches stack.esp
  esp0 : ¬ stack.Reaches stack.esp0

theorem startKernelStack_misses (inMemory : base + 8192 ≤ 0x100000000)
    (arg function : Nat) : (startKernelStack base arg function).Misses := by
  obtain ⟨stored, esp, esp0⟩ := @startKernelStack_addresses base arg function
  have misses : ∀ count : Int, 2049 ≤ count → count < 0x3FFFFFFF →
      ¬ (startKernelStack base arg function).Reaches (intOffset base count) :=
    fun count low high => intOffset_misses inMemory low high
  constructor
  · intro word member
    rw [stored] at member
    simp only [List.mem_cons, List.not_mem_nil, or_false] at member
    rcases member with rfl | rfl | rfl
    · exact misses 8184 (by decide) (by decide)
    · exact misses 8183 (by decide) (by decide)
    · exact misses 8182 (by decide) (by decide)
  · rw [esp]
    exact misses 8182 (by decide) (by decide)
  · rw [esp0]
    exact misses 16374 (by decide) (by decide)

theorem KernelStack.Misses.not_fits {stack : KernelStack}
    (misses : stack.Misses) : ¬ stack.Fits :=
  fun fits => misses.esp0 fits.esp0

/-- The stack of idle, whose size is a number of `int`s, is used as it was
allocated. -/
theorem idleKernelStack_fits (inMemory : base + 8192 ≤ 0x100000000) :
    (idleKernelStack base).Fits ∧
      (idleKernelStack base).Reaches (idleKernelStack base).bootEsp0 := by
  have top : intOffset base 511 = base + 2044 := by
    unfold intOffset
    omega
  refine ⟨⟨?_, ?_, ?_⟩, ?_⟩
  · intro word member
    have isTop : word = (intOffset base 511, 0x40000000) :=
      List.mem_singleton.mp member
    rw [isTop, top]
    exact ⟨by simp [idleKernelStack], by simp [idleKernelStack]⟩
  · change (idleKernelStack base).Holds (intOffset base 511)
    rw [top]
    exact ⟨by simp [idleKernelStack], by simp [idleKernelStack]⟩
  · unfold KernelStack.Reaches KernelStack.esp0 idleKernelStack intOffset
    simp only
    omega
  · unfold KernelStack.Reaches KernelStack.bootEsp0 idleKernelStack
    simp only
    omega

theorem StackPlaces.misses (places : StackPlaces) (notIdle : r ≠ idleRef) :
    (places.stackOf r).Misses := by
  unfold StackPlaces.stackOf
  rw [if_neg notIdle]
  exact startKernelStack_misses (places.inMemory r) _ _

end Addresses

/-! ## Runs -/

section Runs

variable {places : StackPlaces} {m m' m'' : Segmented} {s : KState}

/-- The processor enters the kernel on the stack of the running process.  Until
the first switch this is the stack `kernel_start` gave to idle. -/
def Segmented.Installed (places : StackPlaces) (m : Segmented) : Prop :=
  m.kernel.running ≠ idleRef →
    m.esp0 = (places.stackOf m.kernel.running).esp0

theorem Segmented.Installed.after (installed : m.Installed places) (s : KState) :
    (m.after places s).Installed places := by
  intro notIdle
  unfold Segmented.after at notIdle ⊢
  simp only at notIdle ⊢
  split
  · rfl
  · rename_i same
    rw [not_not] at same
    split
    · rfl
    · rw [same] at notIdle ⊢
      exact installed notIdle

theorem Segmented.installed_booted {apps : List String} (isBoot : Booted apps s) :
    (Segmented.booted places s).Installed places := by
  intro notIdle
  rw [booted_eq isBoot] at notIdle
  exact absurd rfl notIdle

theorem Segmented.Run.installed (run : Segmented.Run places m m')
    (start : m.Installed places) : m'.Installed places := by
  induction run with
  | refl => exact start
  | step front next ih => exact ih.after _

theorem Segmented.Run.kernel (run : Segmented.Run places m m') :
    Nebulea.Run (fun _ _ => True) m.kernel m'.kernel := by
  induction run with
  | refl => exact .refl
  | step front next ih => exact ih.step trivial next

/-- In every state of every run, wherever `mem_alloc` places the stacks, no
process that `start` made has a stack that is used as it was allocated: every
word that `start` stored, the first stack pointer and the pointer that
`virtual_ctx_sw` installs whenever the process is elected lie outside. -/
theorem kernel_stacks_never_fit {apps : List String} (isBoot : Booted apps s)
    (run : Segmented.Run places (Segmented.booted places s) m) (r : ProcRef)
    (p : Process) (_record : m.kernel.procs r = some p) (notIdle : r ≠ idleRef) :
    ¬ (places.stackOf r).Fits ∧ (places.stackOf r).Misses ∧
      (m.kernel.running = r → ¬ (places.stackOf r).Reaches m.esp0) := by
  have misses := places.misses notIdle
  refine ⟨misses.not_fits, misses, ?_⟩
  intro isRunning
  have installed := run.installed (Segmented.installed_booted isBoot)
  rw [← isRunning] at notIdle misses ⊢
  rw [installed notIdle]
  exact misses.esp0

theorem Segmented.run_of_runActions {actions : List Action}
    (front : Segmented.Run places m m')
    (performed : Segmented.runActions places actions m' = some m'') :
    Segmented.Run places m m'' := by
  induction actions generalizing m' with
  | nil =>
      cases performed
      exact front
  | cons a rest ih =>
      unfold Segmented.runActions at performed
      split at performed
      · rename_i t next
        exact ih (front.step next) performed
      · cases performed

/-- Stacks that follow each other in the heap. -/
def samplePlaces : StackPlaces where
  place := fun r => 0x2000000 + 0x2000 * min r 0x1000
  inMemory := fun r => by omega
  arg := fun _ => 0
  newProcessStartFunction := 0x120000

/-- The kernel state that boot leaves. -/
def sampleBoot : KState := bootState ["idle", "autotest"]

theorem sample_of_evaluation (actions : List Action) (last : Segmented → Bool)
    (evaluated : (Segmented.runActions samplePlaces actions
      (Segmented.booted samplePlaces sampleBoot)).any last = true) :
    ∃ m, Segmented.Run samplePlaces
      (Segmented.booted samplePlaces sampleBoot) m ∧ last m = true := by
  obtain ⟨m, performed, isLast⟩ := (Option.any_eq_true _ _).mp evaluated
  exact ⟨m, Segmented.run_of_runActions .refl performed, isLast⟩

/-- The first process, when it gets the processor. -/
theorem first_stack_never_fits : ∃ m,
    Segmented.Run samplePlaces (Segmented.booted samplePlaces sampleBoot) m ∧
    m.kernel.running = 1 ∧ ¬ (samplePlaces.stackOf 1).Reaches m.esp0 := by
  obtain ⟨m, run, passed⟩ := sample_of_evaluation firstTicks
    (fun m => decide (m.kernel.running = 1) && (m.kernel.procs 1).isSome)
    (by decide +kernel)
  simp only [Bool.and_eq_true, decide_eq_true_eq] at passed
  obtain ⟨isRunning, isSome⟩ := passed
  obtain ⟨p, record⟩ := Option.isSome_iff_exists.mp isSome
  have isBoot : Booted ["idle", "autotest"] sampleBoot :=
    booted_bootState (by decide) (by decide)
  have fits := kernel_stacks_never_fit isBoot run 1 p record (by decide)
  exact ⟨m, run, isRunning, fits.2.2 isRunning⟩

/-- Of four processes with stacks that follow each other, the first has its
first stack pointer in the stack of the last. -/
theorem kernel_stacks_overlap : ∃ m,
    Segmented.Run samplePlaces (Segmented.booted samplePlaces sampleBoot) m ∧
    (∃ p q, m.kernel.procs 1 = some p ∧ m.kernel.procs 4 = some q ∧ p.Living ∧
      q.Living) ∧
    ¬ (samplePlaces.stackOf 1).Fits ∧
    (samplePlaces.stackOf 4).Holds (samplePlaces.stackOf 1).esp := by
  obtain ⟨m, run, passed⟩ := sample_of_evaluation
    (firstTicks ++ List.replicate 3 (.call (.start "autotest" 0 1)))
    (fun m => (m.kernel.procs 1).any (fun p : Process => decide p.Living) &&
      (m.kernel.procs 4).any (fun q : Process => decide q.Living)) (by decide +kernel)
  simp only [Bool.and_eq_true, Option.any_eq_true, decide_eq_true_eq] at passed
  obtain ⟨⟨p, record, living⟩, q, record', living'⟩ := passed
  exact ⟨m, run, ⟨p, q, record, record', living, living'⟩,
    (samplePlaces.misses (by decide)).not_fits, by decide⟩

end Runs

end Nebulea
