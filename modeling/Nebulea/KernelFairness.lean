import Mathlib.Data.List.Perm.Subperm
import Nebulea.KernelElectionCalls

/-!
# Bounded waiting

A process that waits for the processor is passed over by `__scheduler`, in
favour of others of at most its own priority, at most as often as there were
processes of its priority in line before it.
-/

namespace Nebulea

open StampedPriority

namespace KState

/-- The activable processes of the priority of `r` that were made activable
before it. -/
def inFront (s : KState) (r : ProcRef) : List ProcRef :=
  (s.lists .activable).filter fun x =>
    s.prio x = s.prio r ∧ s.stampOf x < s.stampOf r

/-- The number of processes in line before `r`. -/
def ahead (s : KState) (r : ProcRef) : Nat :=
  (s.inFront r).length

end KState

/-- From `s` to `t` the process `r` has been activable without interruption:
its stamp shows that it was not taken out in between.  `n` counts the times
`__scheduler` gave the processor to a process of no higher priority. -/
inductive PassedOver (s : KState) (r : ProcRef) : Nat → KState → Prop
  | start (waits : r ∈ s.lists .activable) : PassedOver s r 0 s
  | quiet {n : Nat} {t u : KState} {a : Action} (front : PassedOver s r n t)
      (next : step a t = .next u) (waits : r ∈ u.lists .activable)
      (place : u.stampOf r = t.stampOf r) : PassedOver s r n u
  | passed {n : Nat} {t u : KState} {a : Action} (front : PassedOver s r n t)
      (next : step a t = .next u) (waits : r ∈ u.lists .activable)
      (place : u.stampOf r = t.stampOf r)
      (switched : switches t.trace < switches u.trace)
      (lower : u.prio u.running ≤ u.prio r) : PassedOver s r (n + 1) u

section Steps

variable {s t u : KState} {a : Action} {r : ProcRef}

/-- What a process keeps while it stays in its place. -/
theorem Elects.same_place (elects : Elects t u) (okT : ListsOk t)
    (okU : ListsOk u) {x : ProcRef} (waits : x ∈ u.lists .activable)
    (older : u.stampOf x < t.stamp) :
    x ∈ t.lists .activable ∧ t.prio x = u.prio x ∧
      t.stampOf x = u.stampOf x := by
  obtain ⟨p, record, link⟩ := (okU.mem x _).mp waits
  rw [KState.stampOf_eq record] at older
  have kept := elects.places x p record (by simp [link]) older
  rw [Option.map_eq_some_iff] at kept
  obtain ⟨p₀, before, keys⟩ := kept
  simp only [Process.keys, Prod.mk.injEq] at keys
  rw [KState.prio_eq before, KState.prio_eq record, KState.stampOf_eq before,
    KState.stampOf_eq record]
  exact ⟨okT.mem_of_link before (keys.1.trans link), keys.2⟩

theorem ListsOk.stampOf_lt (ok : ListsOk s) {h : Head}
    (member : r ∈ s.lists h) : s.stampOf r < s.stamp := by
  obtain ⟨p, record, link⟩ := (ok.mem r h).mp member
  rw [KState.stampOf_eq record]
  exact ok.stamped r p record (by simp [link])

/-- Nobody gets in line before a process that waits. -/
theorem Elects.inFront_subset (elects : Elects t u) (okT : ListsOk t)
    (okU : ListsOk u) (waited : r ∈ t.lists .activable)
    (waits : r ∈ u.lists .activable) (place : u.stampOf r = t.stampOf r) :
    u.inFront r ⊆ t.inFront r := by
  have young := okT.stampOf_lt waited
  obtain ⟨-, samePrio, -⟩ := elects.same_place okT okU waits (place ▸ young)
  intro x inLine
  simp only [KState.inFront, List.mem_filter, decide_eq_true_eq] at inLine ⊢
  obtain ⟨listed, equal, earlier⟩ := inLine
  have before : u.stampOf x < t.stamp := by omega
  obtain ⟨wasListed, prioX, stampX⟩ :=
    elects.same_place okT okU listed before
  exact ⟨wasListed, by rw [prioX, samePrio, equal], by omega⟩

/-- Whoever is elected over a process that waits was in line before it. -/
theorem Elects.elected_inFront (elects : Elects t u) (okT : ListsOk t)
    (okU : ListsOk u) (waited : r ∈ t.lists .activable)
    (waits : r ∈ u.lists .activable) (place : u.stampOf r = t.stampOf r)
    (switched : switches t.trace < switches u.trace)
    (lower : u.prio u.running ≤ u.prio r) :
    u.running ∈ t.inFront r := by
  have young := okT.stampOf_lt waited
  obtain ⟨-, samePrio, -⟩ := elects.same_place okT okU waits (place ▸ young)
  have elected := elects.elected.resolve_left switched.ne'
  rcases elected.before r waits with lower' | ⟨same, earlier⟩
  · exact absurd lower (not_le.mpr lower')
  · obtain ⟨listed, prioX, stampX⟩ := elected.listed (by omega)
    simp only [KState.inFront, List.mem_filter, decide_eq_true_eq]
    exact ⟨listed, by rw [prioX, samePrio, same], by omega⟩

theorem KState.inFront_nodup (ok : ListsOk s) : (s.inFront r).Nodup :=
  (ok.nodup .activable).filter _

theorem Elects.ahead_le (elects : Elects t u) (okT : ListsOk t)
    (okU : ListsOk u) (waited : r ∈ t.lists .activable)
    (waits : r ∈ u.lists .activable) (place : u.stampOf r = t.stampOf r) :
    u.ahead r ≤ t.ahead r :=
  (List.subperm_of_subset (KState.inFront_nodup okU)
    (elects.inFront_subset okT okU waited waits place)).length_le

/-- The elected process is in line no more. -/
theorem Elects.ahead_lt (elects : Elects t u) (okT : ListsOk t)
    (okU : ListsOk u) (waited : r ∈ t.lists .activable)
    (waits : r ∈ u.lists .activable) (place : u.stampOf r = t.stampOf r)
    (switched : switches t.trace < switches u.trace)
    (lower : u.prio u.running ≤ u.prio r)
    (gone : u.running ∉ u.lists .activable) :
    u.ahead r < t.ahead r := by
  have wasInLine := elects.elected_inFront okT okU waited waits place switched
    lower
  have distinct : (u.running :: u.inFront r).Nodup := by
    refine List.nodup_cons.mpr ⟨?_, KState.inFront_nodup okU⟩
    exact fun inLine => gone (List.mem_of_mem_filter inLine)
  have subset : u.running :: u.inFront r ⊆ t.inFront r :=
    List.cons_subset.mpr
      ⟨wasInLine, elects.inFront_subset okT okU waited waits place⟩
  exact (List.subperm_of_subset distinct subset).length_le

/-- There are no more processes than entries of the process table. -/
theorem ProcsOk.length_le (ok : ProcsOk s) {refs : List ProcRef}
    (distinct : refs.Nodup)
    (active : ∀ r ∈ refs, ∃ p, s.procs r = some p ∧ p.state ≠ .finished) :
    refs.length ≤ nbProc := by
  let pidOf (r : ProcRef) : Nat := (((s.procs r).map Process.pid).getD 0).toNat
  have inTable {r : ProcRef} (member : r ∈ refs) :
      ∃ p, s.procs r = some p ∧ p.state ≠ .finished ∧
        p.pid = (pidOf r : Int) ∧ pidOf r < nbProc := by
    obtain ⟨p, record, state⟩ := active r member
    obtain ⟨above, below, -⟩ := ok.table p.pid r (ok.listed r p record state)
    have isPid : pidOf r = p.pid.toNat := by
      simp [pidOf, record]
    exact ⟨p, record, state, by omega, by omega⟩
  have distinctPids : (refs.map pidOf).Nodup := by
    refine distinct.map_on ?_
    intro x memberX y memberY same
    obtain ⟨p, recordX, stateX, pidX, -⟩ := inTable memberX
    obtain ⟨q, recordY, stateY, pidY, -⟩ := inTable memberY
    exact ok.eq_of_pid recordX recordY stateX stateY (by rw [pidX, pidY, same])
  have subset : refs.map pidOf ⊆ List.range nbProc := by
    intro pid member
    obtain ⟨r, inRefs, rfl⟩ := List.mem_map.mp member
    obtain ⟨-, -, -, -, below⟩ := inTable inRefs
    exact List.mem_range.mpr below
  simpa using (List.subperm_of_subset distinctPids subset).length_le

/-- The processes in line, the one that waits and the running one differ. -/
theorem Settled.ahead_le (settled : Settled s)
    (waits : r ∈ s.lists .activable) : s.ahead r + 2 ≤ nbProc := by
  have ok := settled.sound.coherent
  obtain ⟨current, onCpu, elected⟩ := settled.onCpu
  have active {x : ProcRef} (member : x ∈ s.lists .activable) :
      ∃ p, s.procs x = some p ∧ p.state = .activable := by
    obtain ⟨p, record, link⟩ := (ok.lists.mem x _).mp member
    exact ⟨p, record, (ok.procs.linked x p record).state_of_link link⟩
  have away {x : ProcRef} (member : x ∈ s.lists .activable) :
      s.running ≠ x := by
    rintro rfl
    obtain ⟨p, record, state⟩ := active member
    rw [onCpu, Option.some.injEq] at record
    rw [← record, elected] at state
    cases state
  have distinct : (s.running :: r :: s.inFront r).Nodup := by
    refine List.nodup_cons.mpr ⟨?_, List.nodup_cons.mpr ⟨?_,
      KState.inFront_nodup ok.lists⟩⟩
    · intro member
      rcases List.mem_cons.mp member with isR | inLine
      · exact away waits isR
      · exact away (List.mem_of_mem_filter inLine) rfl
    · intro inLine
      simp [KState.inFront] at inLine
  refine ok.procs.length_le distinct ?_
  intro x member
  rcases List.mem_cons.mp member with rfl | others
  · exact ⟨current, onCpu, by simp [elected]⟩
  rcases List.mem_cons.mp others with rfl | inLine
  · obtain ⟨p, record, state⟩ := active waits
    exact ⟨p, record, by simp [state]⟩
  · obtain ⟨p, record, state⟩ := active (List.mem_of_mem_filter inLine)
    exact ⟨p, record, by simp [state]⟩

theorem Settled.running_not_activable (settled : Settled s) :
    s.running ∉ s.lists .activable := by
  intro member
  have ok := settled.sound.coherent
  obtain ⟨current, onCpu, elected⟩ := settled.onCpu
  have link := ok.lists.link_of_mem onCpu member
  have state := (ok.procs.linked _ current onCpu).state_of_link link
  cases elected.symm.trans state

/-- Every election over the process that waits shortens the line before it. -/
theorem PassedOver.shortens {n : Nat} (passed : PassedOver s r n t)
    (settled : Settled s) :
    Settled t ∧ r ∈ t.lists .activable ∧ n + t.ahead r ≤ s.ahead r := by
  induction passed with
  | start waits => exact ⟨settled, waits, by omega⟩
  | quiet front next waits place ih =>
      obtain ⟨settledT, waited, shorter⟩ := ih
      have settledU := settledT.after next
      have noMore := (settledT.elects next).ahead_le
        settledT.sound.coherent.lists settledU.sound.coherent.lists waited
        waits place
      exact ⟨settledU, waits, by omega⟩
  | passed front next waits place switched lower ih =>
      obtain ⟨settledT, waited, shorter⟩ := ih
      have settledU := settledT.after next
      have fewer := (settledT.elects next).ahead_lt
        settledT.sound.coherent.lists settledU.sound.coherent.lists waited
        waits place switched lower settledU.running_not_activable
      exact ⟨settledU, waits, by omega⟩

end Steps

/-- While a process waits for the processor, `__scheduler` gives the processor
to others of no higher priority at most as often as there were processes of
its priority in line before it; there are at most `NBPROC - 2` of them. -/
theorem bounded_waiting {s t : KState} {r : ProcRef} {n : Nat}
    (reached : Reachable s) (passed : PassedOver s r n t) :
    n + t.ahead r ≤ s.ahead r ∧ s.ahead r + 2 ≤ nbProc := by
  have settled := reached.settled
  refine ⟨(passed.shortens settled).2.2, settled.ahead_le ?_⟩
  induction passed with
  | start waits => exact waits
  | quiet front next waits place ih => exact ih
  | passed front next waits place switched lower ih => exact ih

/-- Two processes of one priority are started by a higher one. -/
def twoInLine : List Action :=
  firstTicks ++ [.call (.start "a" 4096 50), .call (.start "b" 4096 50)]

/-- The second one is passed over once, in favour of the first. -/
theorem second_passed_over_once :
    ∃ s t, Reachable s ∧ PassedOver s 3 1 t ∧ s.ahead 3 = 1 ∧
      1 + t.ahead 3 ≤ s.ahead 3 := by
  obtain ⟨t, performed, -, checked⟩ := exists_of_runActions
    ["idle", "autotest", "a", "b"] (twoInLine ++ [.call (.waitClock 1000)])
    (fun t => t.lists .activable == [0, 3] && t.running == 2 &&
      t.stampOf 3 == 3 && t.prio 3 == 50 && t.prio 2 == 50 &&
      switches t.trace == 2)
    (by decide) (by decide) (by decide +kernel)
  simp only [Bool.and_eq_true, beq_iff_eq] at checked
  obtain ⟨⟨⟨⟨⟨listT, elected⟩, stampT⟩, prioT⟩, prioA⟩, switchesT⟩ := checked
  rw [runActions_append, Option.bind_eq_some_iff] at performed
  obtain ⟨s, toS, waits⟩ := performed
  have before := check_of_runActions toS
    (fun s => s.lists .activable == [0, 3, 2] && s.stampOf 3 == 3 &&
      switches s.trace == 1 && s.ahead 3 == 1) (by decide +kernel)
  simp only [Bool.and_eq_true, beq_iff_eq] at before
  obtain ⟨⟨⟨listS, stampS⟩, switchesS⟩, aheadS⟩ := before
  have reached : Reachable s :=
    reachable_of_runActions (by decide) (by decide) toS
  have passed : PassedOver s 3 1 t := by
    refine .passed (.start ?_) (step_of_runActions waits) ?_ ?_ ?_ ?_
    · simp [listS]
    · simp [listT]
    · rw [stampT, stampS]
    · omega
    · rw [elected, prioA, prioT]
  exact ⟨s, t, reached, passed, aheadS, (bounded_waiting reached passed).1⟩

end Nebulea
