import Nebulea.KernelFootprints
import Nebulea.KernelRuns

/-!
# Whom `__scheduler` elects

A process keeps its place in a list as long as its link, its priority and its
stamp stay what they are.  Kernel code never moves a record ahead of one that
was chained before: what it chains anew gets a later stamp.  So whom
`__scheduler` elects among processes of one priority is decided by the lists
the step started with.
-/

namespace Nebulea

open ExceptState StampedPriority

/-- What the place of a record in the lists depends on. -/
def Process.keys (p : Process) : Option Head × Int × Nat :=
  (p.link, p.priority, p.stamp)

namespace KState

/-- The lists and the places of all records in them are the same. -/
structure SameKeys (s t : KState) : Prop where
  procs : ∀ r, (t.procs r).map Process.keys = (s.procs r).map Process.keys
  lists : t.lists = s.lists
  stamp : t.stamp = s.stamp

/-- A record that is chained in `s` with a stamp from before `b` has been
chained there since `b`, with the same priority. -/
def KeepsPlaces (b s : KState) : Prop :=
  ∀ r p, s.procs r = some p → p.link ≠ none → p.stamp < b.stamp →
    (b.procs r).map Process.keys = some p.keys

/-- `x` has been taken from the activable processes: it goes before all that
are left, and it is one of those of `b` if it was chained before. -/
structure Elected (b s : KState) (x : ProcRef) : Prop where
  before : ∀ r ∈ s.lists .activable, Before s.prio s.stampOf r x
  listed : s.stampOf x < b.stamp →
    x ∈ b.lists .activable ∧ b.prio x = s.prio x ∧ b.stampOf x = s.stampOf x

namespace SameKeys

variable {s t : KState} (same : s.SameKeys t)

include same

theorem record {r : ProcRef} {n : Process} (found : t.procs r = some n) :
    ∃ p, s.procs r = some p ∧ p.keys = n.keys := by
  have both := same.procs r
  rw [found, Option.map_some, eq_comm, Option.map_eq_some_iff] at both
  exact both

theorem prio : t.prio = s.prio := by
  funext r
  have both := same.procs r
  unfold KState.prio
  cases found : t.procs r <;> cases record : s.procs r <;>
    simp_all [Process.keys]

theorem stampOf : t.stampOf = s.stampOf := by
  funext r
  have both := same.procs r
  unfold KState.stampOf
  cases found : t.procs r <;> cases record : s.procs r <;>
    simp_all [Process.keys]

theorem listsOk (ok : ListsOk s) : ListsOk t := by
  constructor
  · intro r h
    rw [same.lists, ok.mem]
    have both := same.procs r
    cases found : t.procs r <;> cases record : s.procs r <;>
      simp_all [Process.keys]
  · intro h
    rw [same.prio, same.stampOf, same.lists]
    exact ok.ordered h
  · intro r n found linked
    obtain ⟨p, record, keys⟩ := same.record found
    simp only [Process.keys, Prod.mk.injEq] at keys
    rw [same.stamp, ← keys.2.2]
    exact ok.stamped r p record (keys.1 ▸ linked)

theorem keepsPlaces {b : KState} (kept : b.KeepsPlaces s) :
    b.KeepsPlaces t := by
  intro r n found linked older
  obtain ⟨p, record, keys⟩ := same.record found
  have parts := keys
  simp only [Process.keys, Prod.mk.injEq] at parts
  rw [← keys]
  exact kept r p record (parts.1 ▸ linked) (parts.2.2 ▸ older)

theorem elected {b : KState} {x : ProcRef} (first : b.Elected s x) :
    b.Elected t x := by
  constructor
  · rw [same.lists, same.prio, same.stampOf]
    exact first.before
  · rw [same.prio, same.stampOf]
    exact first.listed

end SameKeys

/-- An assignment that spares link, priority and stamp. -/
theorem sameKeys_setProc {s : KState} {r : ProcRef} {p n : Process}
    (record : s.procs r = some p) (keys : n.keys = p.keys) :
    s.SameKeys (s.setProc r n) where
  procs := by
    intro x
    by_cases same : x = r
    · subst same
      simp [record, keys]
    · simp [same]
  lists := rfl
  stamp := rfl

theorem sameKeys_of_procs {s t : KState} (procs : t.procs = s.procs)
    (lists : t.lists = s.lists) (stamp : t.stamp = s.stamp) :
    s.SameKeys t :=
  ⟨fun r => by rw [procs], lists, stamp⟩

end KState

/-- `u` is where kernel code that started in `b` has got to before it calls
`__scheduler`. -/
structure Continues (b u : KState) : Prop where
  origin : ListsOk b
  lists : ListsOk u
  fresh : ∀ r, u.nextRef ≤ r → u.procs r = none
  stamps : b.stamp ≤ u.stamp
  places : b.KeepsPlaces u
  quiet : switches u.trace = switches b.trace

namespace Continues

variable {b u v : KState}

theorem start (settled : Settled b) : Continues b b where
  origin := settled.sound.coherent.lists
  lists := settled.sound.coherent.lists
  fresh := fun r free => (settled.sound.coherent.heap.fresh r free).1
  stamps := le_rfl
  places := by
    intro r p record _ _
    rw [record, Option.map_some]
  quiet := rfl

theorem frame (follows : Continues b u) (same : u.SameKeys v)
    (above : u.nextRef ≤ v.nextRef)
    (quiet : switches v.trace = switches u.trace) : Continues b v where
  origin := follows.origin
  lists := same.listsOk follows.lists
  fresh := by
    intro r free
    have both := same.procs r
    rw [follows.fresh r (above.trans free)] at both
    simpa using both
  stamps := follows.stamps.trans_eq same.stamp.symm
  places := same.keepsPlaces follows.places
  quiet := quiet.trans follows.quiet

/-- Moving a record from its list to another one gives it the last place. -/
theorem relink {r : ProcRef} {p n : Process} (follows : Continues b u)
    (record : u.procs r = some p) (target : Option Head) :
    Continues b (u.relink r n p.link target) where
  origin := follows.origin
  lists := follows.lists.relink record target
  fresh := by
    intro x free
    have other : x ≠ r := by
      rintro rfl
      simp [follows.fresh x free] at record
    simpa [other] using follows.fresh x free
  stamps := by
    rw [KState.relink_stamp]
    split
    · exact follows.stamps
    · exact follows.stamps.trans (Nat.le_succ _)
  places := by
    intro x content found linked older
    by_cases same : x = r
    · subst same
      simp only [KState.relink_procs, Function.update_self,
        Option.some.injEq] at found
      subst found
      have chained : target ≠ none := linked
      have above := follows.stamps
      simp only [if_neg chained] at older
      omega
    · simp only [KState.relink_procs, Function.update_of_ne same] at found
      exact follows.places x content found linked older
  quiet := follows.quiet

/-- A record that is in no list may change as it likes. -/
theorem assign {r : ProcRef} {p n : Process} (follows : Continues b u)
    (record : u.procs r = some p) (unlinked : p.link = none)
    (still : n.link = none) : Continues b (u.setProc r n) := by
  have moved := follows.relink (n := n) record none
  rwa [unlinked, KState.relink_none_none still] at moved

/-- Released records had no place. -/
theorem purge (follows : Continues b u) : Continues b (u.purge none) where
  origin := follows.origin
  lists := follows.lists.purge (by simp)
  fresh := by
    intro r free
    simp [follows.fresh r free]
  stamps := follows.stamps
  places := by
    intro r p found linked older
    rw [KState.purge_procs] at found
    split at found
    · simp at found
    · exact follows.places r p found linked older
  quiet := follows.quiet

/-- A new record has no place yet. -/
theorem create {n : Process} (follows : Continues b u)
    (unlinked : n.link = none)
    (procs : v.procs = Function.update u.procs u.nextRef (some n))
    (lists : v.lists = u.lists) (stamp : v.stamp = u.stamp)
    (nextRef : v.nextRef = u.nextRef + 1) (trace : v.trace = u.trace) :
    Continues b v where
  origin := follows.origin
  lists := follows.lists.insertFresh (follows.fresh _ le_rfl) unlinked procs
    lists stamp
  fresh := by
    intro r free
    have other : r ≠ u.nextRef := by omega
    rw [procs, Function.update_of_ne other]
    exact follows.fresh r (by omega)
  stamps := follows.stamps.trans_eq stamp.symm
  places := by
    intro r p found linked older
    rw [procs] at found
    by_cases same : r = u.nextRef
    · rw [same, Function.update_self, Option.some.injEq] at found
      exact absurd (found ▸ unlinked) linked
    · rw [Function.update_of_ne same] at found
      exact follows.places r p found linked older
  quiet := by rw [trace, follows.quiet]

end Continues

section Code

variable {b : KState}

theorem keeps_setProc (r : ProcRef) {change : Process → Process}
    (keys : ∀ p, (change p).keys = p.keys) :
    Keeps (Continues b) (modifyProc r change) := by
  intro u follows
  rw [modifyProc, wp_bind]
  refine wp_derefProc_of follows ?_
  intro p record
  rw [wp_modify]
  exact follows.frame (KState.sameKeys_setProc record (keys p)) le_rfl rfl

/-- The records, the lists and the switches. -/
def KState.core (u : KState) :=
  (u.procs, u.lists, u.stamp, u.nextRef, u.trace)

/-- Code that writes neither records nor lists. -/
theorem keeps_data {change : KState → KState}
    (same : ∀ u, (change u).core = u.core) :
    Keeps (Continues b) (modify change : KM Unit) := by
  refine Keeps.modify fun u follows => ?_
  have parts := same u
  simp only [KState.core, Prod.mk.injEq] at parts
  obtain ⟨procs, lists, stamp, nextRef, trace⟩ := parts
  exact follows.frame (KState.sameKeys_of_procs procs lists stamp) nextRef.ge
    (by rw [trace])

theorem keeps_note {e : Event} (other : e.isSwitch = false) :
    Keeps (Continues b) (emit e) :=
  Keeps.modify fun u follows =>
    follows.frame (KState.sameKeys_of_procs rfl rfl rfl) le_rfl
      (by simp [switches, other])

theorem keeps_setQueue (q : QueueRef) (change : MessageQueue → MessageQueue) :
    Keeps (Continues b) (modifyQueue q change) := by
  apply Keeps.bind (keeps_derefQueue q)
  intro content
  exact keeps_data fun _ => rfl

theorem keeps_derefSem (x : SemRef) : Keeps (Continues b) (derefSem x) := by
  apply Keeps.bind Keeps.get
  intro s
  cases s.sems x with
  | none => exact Keeps.throw _
  | some content => exact Keeps.pure _

theorem keeps_setSem (x : SemRef) (change : Semaphore → Semaphore) :
    Keeps (Continues b) (modifySem x change) := by
  apply Keeps.bind (keeps_derefSem x)
  intro content
  exact keeps_data fun _ => rfl

theorem keeps_return (value : Int) : Keeps (Continues b) (ret value) :=
  keeps_data fun _ => rfl

theorem keeps_storeUser (pointer : UserPtr) (value : Int) :
    Keeps (Continues b) (storeUser pointer value) := by
  unfold storeUser
  split
  · exact Keeps.throw _
  · exact keeps_note rfl

theorem keeps_storeThrough (pointer : UserPtr) (value : Int) :
    Keeps (Continues b) (storeMessage pointer value) := by
  unfold storeMessage
  split
  · exact keeps_storeUser pointer value
  · exact Keeps.pure _

theorem keeps_chain (r : ProcRef) (h : Head) :
    Keeps (Continues b) (queueAdd r h) := by
  intro u follows
  cases record : u.procs r with
  | none =>
      rw [queueAdd, wp_bind]
      refine wp_derefProc_of follows ?_
      intro p found
      simp [record] at found
  | some p =>
      cases link : p.link with
      | none =>
          rw [wp_queueAdd record link]
          have after := follows.relink (n := p) record (some h)
          rwa [link] at after
      | some g =>
          rw [queueAdd, wp_bind, wp_derefProc record, wp_ite,
            if_neg (by simp [link])]
          exact follows

theorem keeps_makeActivable (r : ProcRef) :
    Keeps (Continues b) (activate r) :=
  Keeps.bind (keeps_setProc r fun _ => rfl) fun _ => keeps_chain r _

theorem keeps_unchain (r : ProcRef) : Keeps (Continues b) (queueDel r) := by
  intro u follows
  cases record : u.procs r with
  | none =>
      rw [queueDel, wp_bind]
      refine wp_derefProc_of follows ?_
      intro p found
      simp [record] at found
  | some p =>
      cases link : p.link with
      | none =>
          rw [queueDel, wp_bind, wp_derefProc record]
          simp only [link]
          exact follows
      | some h =>
          rw [wp_queueDel record link]
          exact link ▸ follows.relink (n := p) record none

/-- What `queue_out` gives is unchained. -/
theorem Continues.out {u : KState} (follows : Continues b u) (h : Head)
    {post : Option ProcRef → KState → Prop}
    (empty : u.lists h = [] → post none u)
    (next : ∀ r p, u.NextOut h r p → p.link = some h →
      Continues b (u.relink r p (some h) none) →
        post (some r) (u.relink r p (some h) none))
    {fault : Fault → KState → Prop} :
    wp (queueOut h) post fault u := by
  cases last : (u.lists h).getLast? with
  | none =>
      have isEmpty := List.getLast?_eq_none_iff.mp last
      rw [wp_queueOut_nil isEmpty]
      exact empty isEmpty
  | some r =>
      have member := List.mem_of_getLast? last
      obtain ⟨p, record, link⟩ := (follows.lists.mem r h).mp member
      rw [wp_queueOut (follows.lists.nodup h) ⟨last, record⟩]
      exact next r p ⟨last, record⟩ link
        (link ▸ follows.relink (n := p) record none)

theorem keeps_out (h : Head) : Keeps (Continues b) (queueOut h) :=
  fun _ follows => follows.out h (fun _ => follows) fun _ _ _ _ kept => kept

theorem keeps_drainOut (h : Head) {body : ProcRef → KM Unit}
    (turn : ∀ r, Keeps (Continues b) (body r)) (fuel : Nat) :
    Keeps (Continues b) (drain h body fuel) := by
  induction fuel with
  | zero => exact Keeps.pure _
  | succ fuel ih =>
      apply Keeps.bind (keeps_out h)
      intro next
      cases next with
      | none => exact Keeps.pure _
      | some r => exact Keeps.bind (turn r) fun _ => ih

/-- What is left after the loop that releases finished records; the panic in it
ends the run. -/
theorem Continues.release {u : KState} (follows : Continues b u) :
    wp freeAll (fun _ => Continues b) (fun failure _ => failure ≠ .page) u := by
  rw [freeAll, wp_bind, wp_get]
  refine wp_freeAll rfl (follows.lists.nodup _) ?_ ?_ ?_
  · intro r member
    obtain ⟨p, record, -⟩ := (follows.lists.mem r _).mp member
    exact ⟨p, record⟩
  · exact fun _ => follows.purge
  · exact fun _ _ _ _ _ _ => by simp

theorem Continues.freeFinished {u : KState} (follows : Continues b u) :
    wp freeFinishedProcess (fun _ => Continues b)
      (fun failure v => failure = .page → Continues b v) u := by
  have released {v : KState} (kept : Continues b v) :
      wp freeAll (fun _ => Continues b)
        (fun failure w => failure = .page → Continues b w) v :=
    wp_mono kept.release (fun _ _ after => after)
      fun _ _ other isPage => absurd isPage other
  rw [freeFinishedProcess, wp_bind, wp_get]
  cases u.findPid .finished u.currentPid with
  | none => exact released follows
  | some current =>
      rw [wp_bind]
      refine wp_mono (keeps_unchain current u follows) ?_ fun _ _ kept _ => kept
      intro _ v unchained
      rw [wp_bind]
      refine wp_mono (released unchained) ?_ fun _ _ kept => kept
      intro _ w freed
      exact wp_mono (keeps_chain current _ w freed) (fun _ _ kept => kept)
        fun _ _ kept _ => kept

theorem keeps_wakeOne (pid : Int) : Keeps (Continues b) (wakeupOne pid) := by
  apply Keeps.bind Keeps.get
  intro s
  cases s.processTable pid with
  | none => exact Keeps.pure _
  | some r =>
      apply Keeps.bind (keeps_derefProc r)
      intro p
      split
      · exact keeps_makeActivable r
      · exact Keeps.pure _

theorem keeps_wakeAll : Keeps (Continues b) wakeupProcess :=
  Keeps.forM (fun pid : Nat => keeps_wakeOne pid) _

end Code

/-! ## The election -/

/-- `t` is where kernel code that started in `b` ends: every record has kept
its place, and if `__scheduler` has switched processes since, the running
process is the one that was first in line. -/
structure Elects (b t : KState) : Prop where
  places : b.KeepsPlaces t
  elected : switches t.trace = switches b.trace ∨ b.Elected t t.running

theorem Continues.elects {b u : KState} (follows : Continues b u) : Elects b u :=
  ⟨follows.places, .inl follows.quiet⟩

section Election

variable {b : KState}

/-- Places and an election are not disturbed by assignments that spare link,
priority and stamp. -/
theorem wp_modifyProc_elected {u : KState} {x : ProcRef}
    (places : b.KeepsPlaces u) (elected : b.Elected u x) (r : ProcRef)
    {change : Process → Process} (keys : ∀ p, (change p).keys = p.keys) :
    wp (modifyProc r change) (fun _ v => b.KeepsPlaces v ∧ b.Elected v x)
      (fun failure _ => failure ≠ .page) u := by
  rw [modifyProc, wp_bind]
  refine wp_derefProc_of (by simp) ?_
  intro p record
  rw [wp_modify]
  have same := KState.sameKeys_setProc record (keys p)
  exact ⟨same.keepsPlaces places, same.elected elected⟩

theorem elects_virtualCtxSw {u : KState} (k : Context) {old new : ProcRef}
    (places : b.KeepsPlaces u) (elected : b.Elected u new) :
    wp (virtualCtxSw k old new) (fun _ => Elects b)
      (fun failure _ => failure ≠ .page) u := by
  rw [virtualCtxSw, wp_bind, wp_get, wp_bind]
  refine wp_mono (wp_modifyProc_elected places elected _ fun _ => rfl) ?_
    fun _ _ other => other
  rintro _ v ⟨places, elected⟩
  rw [wp_bind]
  refine wp_mono (wp_modifyProc_elected places elected _ fun _ => rfl) ?_
    fun _ _ other => other
  rintro _ w ⟨places, elected⟩
  rw [wp_bind]
  refine wp_derefProc_of (by simp) ?_
  intro p record
  cases p.registers with
  | none => exact (by simp : Fault.lostContext ≠ .page)
  | some restored =>
      simp only [wp_bind]
      refine wp_mono (wp_modifyProc_elected places elected _ fun _ => rfl) ?_
        fun _ _ other => other
      rintro _ w' ⟨places, elected⟩
      rw [wp_modify]
      have same : w'.SameKeys
          { w' with running := new, mode := .kernel restored } :=
        KState.sameKeys_of_procs rfl rfl rfl
      exact ⟨same.keepsPlaces places, .inr (same.elected elected)⟩

/-- The last of the activable processes is first in line. -/
theorem Continues.elected {u : KState} (follows : Continues b u) {x : ProcRef}
    {p : Process} (next : u.NextOut .activable x p)
    (link : p.link = some .activable) :
    b.Elected (u.relink x p (some .activable) none) x := by
  have lists := follows.lists
  have keys (r : ProcRef) :
      (u.relink x p (some .activable) none).prio r = u.prio r ∧
        (u.relink x p (some .activable) none).stampOf r = u.stampOf r := by
    by_cases same : r = x
    · subst same
      simp [KState.prio, KState.stampOf, next.2]
    · simp [KState.prio, KState.stampOf, same]
  constructor
  · intro r member
    have listed : r ∈ (u.lists .activable).erase x := by
      simpa [KState.relinkLists] using member
    rw [(lists.nodup .activable).mem_erase_iff] at listed
    have before := ((lists.ordered .activable).before_last next.1
      listed.2).resolve_left listed.1
    simpa only [Before, (keys r).1, (keys r).2, (keys x).1, (keys x).2]
      using before
  · intro older
    rw [(keys x).2, KState.stampOf_eq next.2] at older
    rw [(keys x).1, (keys x).2, KState.prio_eq next.2,
      KState.stampOf_eq next.2]
    have kept := follows.places x p next.2 (by simp [link]) older
    rw [Option.map_eq_some_iff] at kept
    obtain ⟨p₀, before, same⟩ := kept
    simp only [Process.keys, Prod.mk.injEq] at same
    rw [KState.prio_eq before, KState.stampOf_eq before]
    exact ⟨follows.origin.mem_of_link before (same.1.trans link), same.2⟩

theorem Continues.schedules {u : KState} (follows : Continues b u) (k : Context) :
    wp (scheduler k) (fun _ => Elects b)
      (fun failure t => failure = .page → Elects b t) u := by
  rw [scheduler, wp_bind]
  refine wp_mono follows.freeFinished ?_ ?_
  · intro _ v freed
    rw [wp_bind]
    refine wp_mono (keeps_wakeAll v freed) ?_ fun _ _ kept _ => kept.elects
    intro _ w awake
    rw [wp_bind]
    refine awake.out .activable ?_ ?_
    · exact fun _ isPage => absurd isPage (by simp)
    · intro x p next link out
      have elected := awake.elected next link
      simp only []
      rw [wp_bind]
      have chosen (q : Process) :
          ({ q with state := .elected } : Process).keys = q.keys := rfl
      refine wp_mono (wp_and (keeps_setProc x chosen _ out)
        (wp_modifyProc_elected out.places elected x chosen)) ?_
        fun _ _ both isPage => absurd isPage both.2
      rintro _ w₁ ⟨follows₁, -, elected₁⟩
      rw [wp_bind]
      have keeps : Keeps (fun v => Continues b v ∧ b.Elected v x) oldProcess :=
        keeps_oldProcess
      refine wp_mono (keeps w₁ ⟨follows₁, elected₁⟩) ?_
        fun _ _ kept _ => kept.1.elects
      rintro old w₂ ⟨follows₂, elected₂⟩
      rw [wp_bind]
      refine wp_derefProc_of (fun _ => follows₂.elects) ?_
      intro content record
      simp only [wp_bind, wp_modify, wp_get, wp_emit]
      refine wp_mono (elects_virtualCtxSw k ?_ ?_) (fun _ _ done => done)
        fun _ _ other isPage => absurd isPage other
      · exact follows₂.places
      · exact ⟨elected₂.before, elected₂.listed⟩
  · exact fun _ _ kept isPage => (kept isPage).elects

end Election

end Nebulea
