import Nebulea.KernelKinship

/-!
# The end of a process performs moves

What `exit`, `kill` and page faults share: the process becomes a zombie or is
finished, its father is woken up, its children become orphans, and the
scheduler chooses another process if the one that ended was running.
-/

namespace Nebulea

open ExceptState

def Event.isSwitch : Event → Bool
  | .contextSwitch _ _ _ => true
  | _ => false

/-- The number of times `__scheduler` switched processes. -/
def switches (trace : List Event) : Nat :=
  trace.countP Event.isSwitch

/-- `t` is where a stretch of kernel code that started in `s` ends.  `calm`
is the condition under which the code that does not call `__scheduler` keeps
the running process on top. -/
structure Ends (allowed : Move → KState → Prop) (calm : Prop) (s t : KState) :
    Prop where
  path : Moves allowed s t
  onCpu : ∃ p, t.OnCpu p
  ran : switches s.trace < switches t.trace → t.Top
  top : calm → s.Top → t.Top

/-- `t` lies within a stretch that started in `s` and has not yet given the
processor away. -/
structure Underway (allowed : Move → KState → Prop) (calm : Prop)
    (s t : KState) : Prop where
  path : Moves allowed s t
  onCpu : ∃ p, t.OnCpu p
  mode : t.mode = s.mode
  switched : switches t.trace = switches s.trace
  top : calm → s.Top → t.Top

theorem Underway.refl {allowed : Move → KState → Prop} {calm : Prop}
    {s : KState} {p : Process} (onCpu : s.OnCpu p) :
    Underway allowed calm s s :=
  ⟨.refl s, ⟨p, onCpu⟩, rfl, rfl, fun _ top => top⟩

theorem Underway.move {allowed : Move → KState → Prop} {calm : Prop}
    {s t : KState} (here : Underway allowed calm s t) (m : Move)
    (permitted : allowed m t) (applies : m.Guard t)
    (onCpu : ∃ p, (m.effect t).OnCpu p) (mode : (m.effect t).mode = t.mode)
    (switched : switches (m.effect t).trace = switches t.trace)
    (top : t.Top → (m.effect t).Top) :
    Underway allowed calm s (m.effect t) :=
  ⟨here.path.move m permitted applies, onCpu, mode.trans here.mode,
    switched.trans here.switched, fun isCalm before =>
      top (here.top isCalm before)⟩

/-- The end of a system call that came from user mode. -/
theorem Underway.ret {allowed : Move → KState → Prop} {calm : Prop}
    {s t : KState} (here : Underway allowed calm s t)
    (plain : Allows allowed s) (user : s.mode = .user)
    (value : Int) :
    Ends allowed calm s { t with mode := .user, eax := value } := by
  have mode : t.mode = .user := here.mode.trans user
  have applies : (Move.settle .user value).Guard t := by
    refine ⟨rfl, by simp [mode, Mode.Receiving], ?_⟩
    rintro ⟨k, p, inKernel, -⟩
    simp [mode] at inKernel
  refine ⟨here.path.move (.settle .user value)
    (plain _ _ trivial fun _ => here.mode) applies, here.onCpu, ?_, here.top⟩
  intro more
  exact absurd here.switched more.ne'

theorem Scheduled.ends {allowed : Move → KState → Prop} {s t u : KState}
    (scheduled : Scheduled allowed s t u) (calm : Prop) :
    Ends allowed calm s u :=
  ⟨scheduled.path, scheduled.onCpu, fun _ => scheduled.top,
    fun _ _ => scheduled.top⟩

namespace KState

variable {s t : KState} {r : ProcRef} {p n : Process}

theorem setProc_prio (record : s.procs r = some p)
    (samePriority : n.priority = p.priority) :
    (s.setProc r n).prio = s.prio := by
  funext x
  by_cases same : x = r
  · subst same
    simp [prio, record, samePriority]
  · simp [prio, same]

/-- A list holds what it held, and what was chained to it. -/
theorem mem_of_mem_relinkLists {x : ProcRef} {source target : Option Head}
    {h : Head} (member : x ∈ s.relinkLists r p source target h) :
    x ∈ s.lists h ∨ x = r ∧ target = some h := by
  have unchained (y : ProcRef) (g : Head)
      (inside : y ∈ s.relinkLists r p source none g) : y ∈ s.lists g := by
    cases source with
    | none => exact inside
    | some f =>
        by_cases same : g = f
        · subst same
          simp only [relinkLists, Function.update_self] at inside
          exact List.mem_of_mem_erase inside
        · simpa [relinkLists, same] using inside
  cases target with
  | none => exact .inl (unchained x h member)
  | some g =>
      change x ∈ Function.update (s.relinkLists r p source none) g
        ((s.relinkLists r p source none g).orderedInsert _ r) h at member
      by_cases same : h = g
      · subst same
        rw [Function.update_self, List.mem_orderedInsert] at member
        rcases member with isR | inside
        · exact .inr ⟨isR, rfl⟩
        · exact .inl (unchained x h inside)
      · rw [Function.update_of_ne same] at member
        exact .inl (unchained x h member)

theorem Top.congr (top : s.Top)
    (lists : ∀ x ∈ t.lists .activable, x ∈ s.lists .activable)
    (prio : t.prio = s.prio) (running : t.running = s.running) : t.Top := by
  intro x member
  rw [prio, running]
  exact top x (lists x member)

theorem Top.setProc (top : s.Top) (record : s.procs r = some p)
    (samePriority : n.priority = p.priority) : (s.setProc r n).Top :=
  top.congr (fun _ member => member) (setProc_prio record samePriority) rfl

/-- A process that is not above the running one may be chained anywhere. -/
theorem Top.relink (top : s.Top) {h g : Option Head}
    (record : s.procs r = some p) (samePriority : n.priority = p.priority)
    (below : g = some .activable → s.prio r ≤ s.prio s.running) :
    (s.relink r n h g).Top := by
  intro x member
  rw [relink_prio, setProc_prio record samePriority, relink_running]
  rcases mem_of_mem_relinkLists member with listed | ⟨rfl, isTarget⟩
  · exact top x listed
  · exact below isTarget

theorem Top.finish (top : s.Top) (pid : Int) {h : Option Head}
    (record : s.procs r = some p) (samePriority : n.priority = p.priority) :
    (s.finish pid r n h).Top := by
  have moved := top.relink (n := { n with state := .finished }) (h := h)
    (g := some .finished) record samePriority (by simp)
  exact moved.congr (fun _ member => member) rfl rfl

end KState

section Ending

variable {allowed : Move → KState → Prop} {s : KState}

/-- `__finish_fatherless` on a record that is in no list. -/
theorem wp_finishFatherless {post : Unit → KState → Prop}
    {fault : Fault → KState → Prop} {pid : Int} {r : ProcRef} {p : Process}
    (has : s.HasPid pid r p) (unlinked : p.link = none) :
    wp (finishFatherless pid) post fault s =
      post () (s.finish pid r p none) := by
  have updated : (s.setProc r { p with state := .finished }).procs r =
      some { p with state := .finished } := by
    simp
  rw [finishFatherless, wp_bind, wp_entry has.1, wp_bind,
    wp_modifyProc _ has.2, wp_bind, wp_queueAdd updated unlinked, wp_modify,
    KState.setProc_relink]
  rfl

/-- The state of the loop of `__process_end` over the children still to be
visited, after the process `pid` has ended. -/
structure Orphaning (allowed : Move → KState → Prop) (calm : Prop)
    (s : KState) (pid : Int) (ended : ProcRef) (rest : List Child)
    (t : KState) : Prop where
  path : Moves allowed s t
  sons : ∀ c ∈ rest, c.pid ≠ pid ∧ t.HasSon c.pid pid
  distinct : (rest.map Child.pid).Nodup
  noFather : ∀ x c, t.procs x = some c → c.Living → c.pid ≠ pid
  cpu : ended = s.running ∧ t.currentPid = pid ∧
      (∃ c, t.procs t.running = some c ∧
        (c.state = .zombie ∨ c.state = .finished)) ∨
    ended ≠ s.running ∧ t.currentPid ≠ pid ∧ ∃ c, t.OnCpu c
  mode : t.mode = s.mode
  switched : switches t.trace = switches s.trace
  top : calm → s.Top → t.Top

variable {calm : Prop} {pid : Int} {ended : ProcRef} {rest : List Child}
variable {t : KState}

/-- The process on the processor after one record other than its own, or its
own without a change of state, was replaced. -/
theorem Orphaning.cpu_update {n p : Process} {r : ProcRef} {u : KState}
    (loop : Orphaning allowed calm s pid ended rest t)
    (record : t.procs r = some p)
    (procs : u.procs = Function.update t.procs r (some n))
    (running : u.running = t.running)
    (currentPid : u.currentPid = t.currentPid)
    (sameState : r = t.running → n.state = p.state) :
    ended = s.running ∧ u.currentPid = pid ∧
        (∃ c, u.procs u.running = some c ∧
          (c.state = .zombie ∨ c.state = .finished)) ∨
      ended ≠ s.running ∧ u.currentPid ≠ pid ∧ ∃ c, u.OnCpu c := by
  have after (c : Process) (found : t.procs t.running = some c) :
      ∃ c', u.procs u.running = some c' ∧ c'.state = c.state := by
    rw [running, procs]
    by_cases isR : t.running = r
    · rw [isR, record, Option.some.injEq] at found
      subst found
      exact ⟨n, by simp [isR], sameState isR.symm⟩
    · exact ⟨c, by simp [isR, found], rfl⟩
  rcases loop.cpu with
    ⟨isEnded, isPid, c, found, state⟩ | ⟨other, notPid, c, onCpu⟩
  · obtain ⟨c', found', state'⟩ := after c found
    exact .inl ⟨isEnded, currentPid.trans isPid, c', found',
      by rw [state']; exact state⟩
  · obtain ⟨c', found', state'⟩ := after c onCpu.1
    exact .inr ⟨other, currentPid.symm ▸ notPid, c', found',
      state'.trans onCpu.2⟩

theorem wp_orphan (sound : Sound s) (plain : Allows allowed s)
    {child : Child}
    (loop : Orphaning allowed calm s pid ended (child :: rest) t)
    (mayOrphan : ∀ u x n, n.fatherPid = pid → allowed (.orphan x n) u) :
    wp (orphan child)
      (fun _ u => Orphaning allowed calm s pid ended rest u ∧
        Orphaned child t u) (Stops allowed s) t := by
  have ok := (sound.moves loop.path).coherent
  have cpu := (sound.moves loop.path).cpu
  obtain ⟨notPid, r, p, has, isSon⟩ := loop.sons child (by simp)
  obtain ⟨isPid, active⟩ := ok.active_of_hasPid has
  have distinct := loop.distinct
  rw [List.map_cons, List.nodup_cons] at distinct
  have noFather : ∀ x c, t.procs x = some c → c.Living →
      c.pid ≠ p.fatherPid := by
    rw [isSon]
    exact loop.noFather
  have orphaned := loop.path.move (.orphan r p) (mayOrphan t r p isSon)
    ⟨has.2, active, noFather⟩
  have updated : (t.setProc r { p with fatherPid := -1 }).procs r =
      some { p with fatherPid := -1 } := by
    simp
  -- the loop invariant once the child has no father any more
  have next : Orphaning allowed calm s pid ended rest
      (t.setProc r { p with fatherPid := -1 }) := by
    refine ⟨orphaned, ?_, distinct.2, ?_, ?_, loop.mode, loop.switched, ?_⟩
    · intro c member
      obtain ⟨other, x, content, has', isSon'⟩ :=
        loop.sons c (List.mem_cons_of_mem child member)
      have notR : x ≠ r := by
        rintro rfl
        have samePid := (ok.active_of_hasPid has').1
        have sameRecord := has.2.symm.trans has'.2
        rw [Option.some.injEq] at sameRecord
        rw [← sameRecord, isPid] at samePid
        exact distinct.1 (List.mem_map.mpr ⟨c, member, samePid.symm⟩)
      exact ⟨other, x, content, ⟨has'.1, by simp [notR, has'.2]⟩, isSon'⟩
    · intro x c found living
      by_cases isR : x = r
      · subst isR
        simp only [KState.setProc_procs, Function.update_self,
          Option.some.injEq] at found
        subst found
        exact loop.noFather x p has.2 living
      · exact loop.noFather x c (by simpa [isR] using found) living
    · exact loop.cpu_update has.2 rfl rfl rfl (fun _ => rfl)
    · intro isCalm top
      exact (loop.top isCalm top).setProc has.2 rfl
  rw [orphan, wp_bind, wp_entry has.1, wp_bind, wp_modifyProc _ has.2, wp_bind,
    wp_derefProc updated, wp_ite]
  split
  · rename_i zombie
    have isZombie : p.state = .zombie := zombie
    have unlinked : p.link = none := by
      simpa [KState.LinkOk, isZombie] using ok.procs.linked r p has.2
    have notRunning : r ≠ t.running := by
      rcases loop.cpu with ⟨-, isCurrent, -⟩ | ⟨-, -, c, onCpu⟩
      · rintro rfl
        obtain ⟨content, found, current⟩ := cpu.current
        rw [has.2, Option.some.injEq] at found
        subst found
        exact notPid (isPid.symm.trans (current.trans isCurrent))
      · rintro rfl
        have same := has.2.symm.trans onCpu.1
        rw [Option.some.injEq] at same
        have elected := onCpu.2
        simp [← same, isZombie] at elected
    have has' : (t.setProc r { p with fatherPid := -1 }).HasPid child.pid r
        { p with fatherPid := -1 } := ⟨has.1, updated⟩
    rw [wp_finishFatherless has' unlinked]
    have finished := orphaned.move (.finish child.pid r
      { p with fatherPid := -1 }) (plain _ _ trivial False.elim)
        ⟨has', isZombie, rfl, notRunning⟩
    refine ⟨⟨finished, ?_, distinct.2, ?_, ?_, loop.mode, loop.switched, ?_⟩,
      r, p, has, .inr ⟨isZombie, rfl⟩⟩
    · intro c member
      obtain ⟨other, x, content, hasC, isSon'⟩ := next.sons c member
      have notPid' : c.pid ≠ child.pid := by
        intro same
        exact distinct.1 (List.mem_map.mpr ⟨c, member, same⟩)
      have notR : x ≠ r := by
        rintro rfl
        exact notPid' ((ok.active_of_hasPid ⟨hasC.1, has.2⟩).1.symm.trans isPid)
      exact ⟨other, x, content, ⟨by simpa [notPid'] using hasC.1,
        by simpa [notR] using hasC.2⟩, isSon'⟩
    · intro x c found living
      by_cases isR : x = r
      · subst isR
        simp only [KState.finish_procs, Function.update_self,
          Option.some.injEq] at found
        subst found
        exact absurd rfl living.2
      · refine next.noFather x c ?_ living
        simpa [isR] using found
    · exact next.cpu_update updated rfl rfl rfl
        (fun isRunning => absurd isRunning notRunning)
    · intro isCalm top
      exact (next.top isCalm top).finish child.pid updated rfl
  · rename_i notZombie
    exact ⟨next, r, p, has, .inl ⟨notZombie, rfl⟩⟩

/-- The loop starts when the process has ended. -/
theorem orphaning_endProcess (sound : Sound s) {r : ProcRef}
    {p current : Process} {how : Ending}
    {father : Option (ProcRef × Process)} {children : List Child}
    (onCpu : s.OnCpu current)
    (applies : (Move.endProcess pid r p how father).Guard s)
    (may : allowed (.endProcess pid r p how father) s)
    (isChildren : p.children = some children)
    (calmFather : calm → ∀ f content, father = some (f, content) →
      s.prio f ≤ s.prio s.running) :
    Orphaning allowed calm s pid r children
      ((Move.endProcess pid r p how father).effect s) := by
  have ok := sound.coherent
  have sons := FamilyOk.sonsKept_endProcess ok applies pid
  have after := sound.move applies
  have path := Moves.single _ may applies
  obtain ⟨has, living, -, -, woken⟩ := applies
  have isPid := (ok.active_of_hasPid has).1
  have family := sound.family.children r p children has.2 living isChildren
  have table : ((Move.endProcess pid r p how father).effect s).processTable
      pid = some r := by
    cases father <;> exact has.1
  have ended : ((Move.endProcess pid r p how father).effect s).procs r =
      some { p with retval := how.retval, state := .zombie, link := none } := by
    cases father with
    | none => simp [Move.effect]
    | some father =>
        rw [Move.endProcess_procs woken.1, if_neg woken.1.symm, if_pos rfl]
  have currentPid :
      ((Move.endProcess pid r p how father).effect s).currentPid =
        s.currentPid := by
    cases father <;> rfl
  have running : ((Move.endProcess pid r p how father).effect s).running =
      s.running := by
    cases father <;> rfl
  obtain ⟨content, record, isCurrent⟩ := sound.cpu.current
  have same := record.symm.trans onCpu.1
  rw [Option.some.injEq] at same
  subst same
  refine ⟨path, ?_, family.1, ?_, ?_, by cases father <;> rfl,
    by cases father <;> cases how <;> rfl, ?_⟩
  · intro c member
    have son := family.2 c member
    rw [isPid] at son
    refine ⟨?_, sons.hasSon son⟩
    intro isSelf
    rw [isSelf] at son
    obtain ⟨x, d, has', isSon⟩ := son
    have sameRef := has'.1.symm.trans has.1
    rw [Option.some.injEq] at sameRef
    subst sameRef
    have sameRecord := has'.2.symm.trans has.2
    rw [Option.some.injEq] at sameRecord
    subst sameRecord
    have noList := sound.family.self x d has.2 (isSon.trans isPid.symm)
    rw [isChildren] at noList
    simp at noList
  · intro x c found alive samePid
    have listed := after.coherent.procs.listed x c found alive.2
    rw [samePid, table, Option.some.injEq] at listed
    subst listed
    rw [ended, Option.some.injEq] at found
    subst found
    exact alive.1 rfl
  · by_cases isRunning : r = s.running
    · refine .inl ⟨isRunning, ?_, _, by rw [running, ← isRunning]; exact ended,
        .inl rfl⟩
      rw [currentPid, ← isCurrent, ← isPid]
      have sameRecord := (isRunning ▸ has.2).symm.trans onCpu.1
      rw [Option.some.injEq] at sameRecord
      rw [sameRecord]
    · have notPid : s.currentPid ≠ pid := by
        intro same
        exact isRunning (ok.procs.eq_of_pid has.2 onCpu.1 living.2
          (by simp [onCpu.2]) (by rw [isPid, isCurrent, same]))
      refine .inr ⟨isRunning, currentPid ▸ notPid, content, ?_, onCpu.2⟩
      rw [running]
      have other : s.running ≠ r := fun equal => isRunning equal.symm
      cases father with
      | none => simpa [Move.effect, other] using onCpu.1
      | some father =>
          have notFather : s.running ≠ father.1 := by
            intro isFather
            have link := woken.2.2.1
            have sameRecord := onCpu.1.symm.trans (isFather ▸ woken.2.1)
            rw [Option.some.injEq] at sameRecord
            rw [← sameRecord, ok.link_of_elected onCpu.1 onCpu.2] at link
            simp at link
          rw [Move.endProcess_procs woken.1, if_neg notFather, if_neg other]
          exact onCpu.1
  · intro isCalm top
    have zombie : KState.Top (((s.giveBack p).relink r
        { p with retval := how.retval, state := .zombie } p.link none).note
          (how.event r)) := by
      have given : (s.giveBack p).Top := top
      exact given.relink (n := { p with
        retval := how.retval, state := .zombie }) (h := p.link) (g := none)
          has.2 rfl (by simp)
    cases father with
    | none => exact zombie
    | some father =>
        obtain ⟨distinct, isRecord, -⟩ := woken
        have atFather : (((s.giveBack p).relink r
            { p with retval := how.retval, state := .zombie } p.link
              none).note (how.event r)).procs father.1 = some father.2 := by
          simpa [distinct] using isRecord
        have samePrio : (((s.giveBack p).relink r
            { p with retval := how.retval, state := .zombie } p.link
              none).note (how.event r)).prio = s.prio := by
          change ((s.giveBack p).relink r _ p.link none).prio = s.prio
          rw [KState.relink_prio]
          exact KState.setProc_prio has.2 rfl
        refine zombie.relink (n := { father.2 with
          waitedPid := pid, state := .activable }) atFather rfl ?_
        intro _
        rw [samePrio]
        exact calmFather isCalm father.1 father.2 rfl

theorem orphaning_endFatherless (sound : Sound s) {r : ProcRef}
    {p current : Process} {how : Ending} {children : List Child}
    (onCpu : s.OnCpu current)
    (applies : (Move.endFatherless pid r p how).Guard s)
    (may : allowed (.endFatherless pid r p how) s)
    (isChildren : p.children = some children) :
    Orphaning allowed calm s pid r children
      ((Move.endFatherless pid r p how).effect s) := by
  have ok := sound.coherent
  have after := sound.move applies
  have path := Moves.single _ may applies
  obtain ⟨has, living, fatherless, -⟩ := applies
  have isPid := (ok.active_of_hasPid has).1
  have nonneg := ok.pid_nonneg has.2 living.2
  have family := sound.family.children r p children has.2 living isChildren
  have sons : s.SonsKept ((Move.endFatherless pid r p how).effect s) pid :=
    KState.sonsKept_finish pid has rfl rfl (by omega)
  obtain ⟨content, record, isCurrent⟩ := sound.cpu.current
  have same := record.symm.trans onCpu.1
  rw [Option.some.injEq] at same
  subst same
  refine ⟨path, ?_, family.1, ?_, ?_, rfl, by cases how <;> rfl, ?_⟩
  · intro c member
    have son := family.2 c member
    rw [isPid] at son
    refine ⟨?_, sons.hasSon son⟩
    intro isSelf
    rw [isSelf] at son
    obtain ⟨x, n, stays, -⟩ := sons.hasSon son
    have gone := stays.1
    simp [Move.effect] at gone
  · intro x c found alive samePid
    have listed := after.coherent.procs.listed x c found alive.2
    simp [Move.effect, samePid] at listed
  · by_cases isRunning : r = s.running
    · refine .inl ⟨isRunning, ?_, { p with
        retval := how.retval
        state := .finished
        link := some .finished
        stamp := s.stamp }, ?_, .inr rfl⟩
      · change s.currentPid = pid
        rw [← isCurrent, ← isPid]
        have sameRecord := (isRunning ▸ has.2).symm.trans onCpu.1
        rw [Option.some.injEq] at sameRecord
        rw [sameRecord]
      · simp [Move.effect, isRunning]
    · have notPid : s.currentPid ≠ pid := by
        intro same
        exact isRunning (ok.procs.eq_of_pid has.2 onCpu.1 living.2
          (by simp [onCpu.2]) (by rw [isPid, isCurrent, same]))
      have other : s.running ≠ r := fun equal => isRunning equal.symm
      refine .inr ⟨isRunning, notPid, content, ?_, onCpu.2⟩
      simpa [Move.effect, other] using onCpu.1
  · intro _ top
    have given : (s.giveBack p).Top := top
    exact given.finish (n := { p with retval := how.retval }) pid has.2 rfl

/-- The state in which `r`, of record `p`, has become a zombie. -/
def KState.zombified (s : KState) (r : ProcRef) (p : Process)
    (how : Ending) : KState :=
  ((s.giveBack p).relink r { p with retval := how.retval, state := .zombie }
    p.link none).note (how.event r)

/-- `__awake_father`, just after the process became a zombie. -/
theorem wp_awakeFather {post : Unit → KState → Prop}
    {fault : Fault → KState → Prop} (ok : Coherent s) {r : ProcRef}
    {p : Process} {how : Ending} (has : s.HasPid pid r p)
    (woken : ∀ father, s.WokenFather r p father →
      post () ((Move.endProcess pid r p how father).effect s)) :
    wp (awakeFather pid) post fault (s.zombified r p how) := by
  have record : (s.zombified r p how).procs r =
      some { p with retval := how.retval, state := .zombie, link := none } := by
    simp [KState.zombified]
  have table : (s.zombified r p how).processTable pid = some r := has.1
  have inList (f : ProcRef) :
      f ∈ (s.zombified r p how).lists .waitingPid ↔
        f ≠ r ∧ f ∈ s.lists .waitingPid :=
    ok.lists.mem_unchained has.2 .waitingPid
  rw [awakeFather, wp_bind, wp_entry table, wp_bind, wp_derefProc record,
    wp_bind, wp_get]
  dsimp only
  cases search : (s.zombified r p how).findPid .waitingPid p.fatherPid with
  | none =>
      refine woken none ?_
      intro f father other found link isFather
      have listed := (inList f).mpr ⟨other, ok.lists.mem_of_link found link⟩
      have unmatched := List.find?_eq_none.mp search f listed
      simp [KState.zombified, other, found, isFather] at unmatched
  | some f =>
      obtain ⟨other, listed⟩ :=
        (inList f).mp (List.mem_of_find?_eq_some search)
      obtain ⟨father, found, link⟩ := ok.record_of_mem listed
      have atFather : (s.zombified r p how).procs f = some father := by
        simp [KState.zombified, other, found]
      have isFather : father.pid = p.fatherPid := by
        have matched := List.find?_some search
        simpa [atFather] using matched
      have unchained : ((s.zombified r p how).relink f father
          (some .waitingPid) none).procs f =
            some { father with link := none } := by
        simp
      have assigned : (((s.zombified r p how).relink f father
          (some .waitingPid) none).setProc f
            { father with link := none, waitedPid := pid }).procs f =
            some { father with link := none, waitedPid := pid } := by
        simp
      simp only [wp_bind, wp_queueDel atFather link,
        wp_modifyProc _ unchained, wp_activate assigned rfl]
      have normal : (((s.zombified r p how).relink f father
          (some .waitingPid) none).setProc f
            { father with link := none, waitedPid := pid }).wake f
              { father with link := none, waitedPid := pid } none =
          (s.zombified r p how).wake f { father with waitedPid := pid }
            (some .waitingPid) := by
        rw [KState.wake, KState.setProc_relink, KState.relink_relink]
        exact KState.relink_link (p := { father with
          waitedPid := pid, state := .activable }) none
      rw [normal]
      exact woken (some (f, father)) ⟨other, found, link, isFather⟩

/-- `__process_end`, from the point where the caller has taken the process out
of its list and set its `retval`. -/
theorem wp_processEnd (sound : Sound s)
    (plain : Allows allowed s) (calm : Prop) {r : ProcRef}
    {p current : Process} (how : Ending) {k : Context} {after : KM Unit}
    {post : Unit → KState → Prop} (has : s.HasPid pid r p)
    (living : p.Living) (onCpu : s.OnCpu current)
    (other : ∀ pid retvalp, k ≠ .waitpid pid retvalp)
    (outside : ∀ c, s.mode ≠ .kernel c)
    (mayEnd : ∀ father, (Move.endProcess pid r p how father).Guard s →
      allowed (.endProcess pid r p how father) s)
    (mayFinish : (Move.endFatherless pid r p how).Guard s →
      allowed (.endFatherless pid r p how) s)
    (mayOrphan : ∀ u x n, n.fatherPid = pid → allowed (.orphan x n) u)
    (calmFather : calm → r ≠ s.running → ∀ f content,
      s.procs f = some content → content.link = some .waitingPid →
        content.pid = p.fatherPid → s.prio f ≤ s.prio s.running)
    (leaves : ∀ (t : KState) c, (c.state = .zombie ∨ c.state = .finished) →
      t.Fits c k)
    (leaving : ∀ t u, Scheduled allowed s t u → KeepsKin s u → post () u)
    (afterwards : ∀ t, r ≠ s.running → Underway allowed calm s t →
      KeepsKin s t → wp after post (Stops allowed s) t) :
    wp (processEnd pid k after) post (Stops allowed s)
      (((s.giveBack p).relink r { p with retval := how.retval } p.link
        none).note (how.event r)) := by
  have ok := sound.coherent
  -- what follows the loop over the children
  have wholeLoop (children : List Child) (t : KState)
      (loop : Orphaning allowed (calm ∧ r ≠ s.running) s pid r children t)
      (kin : (Kinship s → KinshipBut t pid children) ∧
        (Fathered s → Fathered t)) :
      wp (children.forM orphan >>= fun _ => do
          if pid = (← get).currentPid then scheduler k else after)
        post (Stops allowed s) t := by
    rw [wp_bind]
    refine wp_forM (fun rest u =>
      Orphaning allowed (calm ∧ r ≠ s.running) s pid r rest u ∧
        (Kinship s → KinshipBut u pid rest) ∧ (Fathered s → Fathered u)) ?_ ?_
      children ⟨loop, kin⟩
    · rintro child rest u ⟨visiting, families, zombies⟩
      refine wp_mono (wp_orphan sound plain visiting mayOrphan) ?_
        (fun _ _ stops => stops)
      rintro _ v ⟨visited, orphaned⟩
      have okU := (sound.moves visiting.path).coherent
      obtain ⟨notSelf, isSon⟩ := visiting.sons child (by simp)
      refine ⟨visited, fun before => ?_, fun before => ?_⟩
      · exact (families before).orphaned okU (ok.procs.table pid r has.1).1
          isSon notSelf orphaned
      · exact (zombies before).orphaned okU orphaned
    rintro u ⟨done, families, zombies⟩
    have keeps : KeepsKin s u := ⟨fun before => (families before).done, zombies⟩
    rw [wp_bind, wp_get, wp_ite]
    rcases done.cpu with
      ⟨-, isPid, c, found, ended⟩ | ⟨notRunning, notPid, c, stays⟩
    · rw [if_pos isPid.symm]
      have notElected : c.state ≠ .elected := by
        rcases ended with state | state <;> simp [state]
      have leavingNow : u.Leaving k :=
        ⟨by rw [done.mode]; exact outside,
          c, found, notElected, leaves u c ended⟩
      exact wp_mono (wp_scheduler sound plain done.path done.mode leavingNow
        (plain.dispatch other))
        (fun _ v scheduled => leaving u v scheduled
          (keeps.trans (.serve (sound.moves done.path) scheduled.later)))
        (fun _ _ stops => stops)
    · rw [if_neg (fun same => notPid same.symm)]
      exact afterwards u notRunning ⟨done.path, ⟨c, stays⟩, done.mode,
        done.switched, fun isCalm => done.top ⟨isCalm, notRunning⟩⟩ keeps
  have record : (((s.giveBack p).relink r { p with retval := how.retval }
      p.link none).note (how.event r)).procs r =
        some { p with retval := how.retval, link := none } := by
    simp
  have listed : (((s.giveBack p).relink r { p with retval := how.retval }
      p.link none).note (how.event r)).processTable pid = some r := has.1
  rw [processEnd, wp_bind, wp_entry listed, wp_bind, wp_derefProc record]
  by_cases fatherless : p.fatherPid = -1
  · have finished : KState.finish (((s.giveBack p).relink r
        { p with retval := how.retval } p.link none).note (how.event r)) pid r
          { p with retval := how.retval, link := none } none =
        (Move.endFatherless pid r p how).effect s := by
      have relinked : ((s.giveBack p).relink r { p with retval := how.retval }
          p.link none).relink r
            { p with retval := how.retval, link := none, state := .finished }
            none (some .finished) =
          (s.giveBack p).relink r
            { p with retval := how.retval, state := .finished } p.link
            (some .finished) := by
        rw [KState.relink_relink]
        exact KState.relink_link (p := { p with
          retval := how.retval, state := .finished }) none
      simp only [Move.effect, KState.finish, ← relinked]
      rfl
    have applies : (Move.endFatherless pid r p how).Guard s :=
      ⟨has, living, fatherless, current, onCpu⟩
    simp only [if_neg (not_not.mpr fatherless), wp_bind]
    rw [wp_finishFatherless ⟨listed, record⟩ rfl, finished]
    cases isChildren : p.children with
    | none => trivial
    | some children =>
        exact wholeLoop children _
          (orphaning_endFatherless sound onCpu applies (mayFinish applies)
            isChildren)
          ⟨fun before => before.ended ok has isChildren .endFatherless,
            fun before => before.ended ok has .endFatherless⟩
  · have zombie : KState.setProc (((s.giveBack p).relink r
        { p with retval := how.retval } p.link none).note (how.event r)) r
          { p with retval := how.retval, link := none, state := .zombie } =
        s.zombified r p how := by
      have relinked : KState.setProc ((s.giveBack p).relink r
          { p with retval := how.retval } p.link none) r
            { p with retval := how.retval, link := none, state := .zombie } =
          (s.giveBack p).relink r
            { p with retval := how.retval, state := .zombie } p.link none := by
        rw [KState.relink_setProc rfl]
        exact KState.relink_link (p := { p with
          retval := how.retval, state := .zombie }) none
      simp only [KState.zombified, ← relinked]
      rfl
    simp only [if_pos (show p.fatherPid ≠ -1 from fatherless), wp_bind,
      wp_modifyProc _ record, zombie]
    refine wp_awakeFather ok has ?_
    intro father woken
    have applies : (Move.endProcess pid r p how father).Guard s :=
      ⟨has, living, fatherless, ⟨current, onCpu⟩, woken⟩
    cases isChildren : p.children with
    | none => trivial
    | some children =>
        refine wholeLoop children _ (orphaning_endProcess sound onCpu applies
          (mayEnd father applies) isChildren ?_)
          ⟨fun before => before.ended ok has isChildren (.endProcess ok applies),
            fun before => before.ended ok has (.endProcess ok applies)⟩
        rintro isCalm f content rfl
        exact calmFather isCalm.1 isCalm.2 f content woken.2.1 woken.2.2.1 woken.2.2.2

theorem KState.giveBack_of_ne {p : Process} (other : p.state ≠ .inSem) :
    s.giveBack p = s := by
  simp [KState.giveBack, other]

theorem KState.giveBack_of_inSem {p : Process} {x : SemRef}
    {content : Semaphore} (inSem : p.state = .inSem)
    (waited : s.semaphoreTable p.waitedSem = some x)
    (record : s.sems x = some content) :
    s.giveBack p =
      s.setSem x { content with count := short (content.count + 1) } := by
  simp [KState.giveBack, KState.setSem, inSem, waited, record]

/-- The process on the processor is the one of the current pid. -/
theorem Sound.hasPid_current (sound : Sound s) {p : Process}
    (onCpu : s.OnCpu p) : s.HasPid s.currentPid s.running p := by
  obtain ⟨content, record, isPid⟩ := sound.cpu.current
  rw [onCpu.1, Option.some.injEq] at record
  subst record
  rw [← isPid]
  exact ⟨sound.coherent.procs.listed _ p onCpu.1 (by simp [onCpu.2]), onCpu.1⟩

/-- `exit`, called by the process or by the handler of page faults. -/
theorem wp_exit (sound : Sound s) (plain : Allows allowed s)
    {p : Process} (onCpu : s.OnCpu p) (outside : ∀ c, s.mode ≠ .kernel c)
    (retval : Int)
    (mayEnd : ∀ pid father,
      (Move.endProcess pid s.running p (.exit retval) father).Guard s →
        allowed (.endProcess pid s.running p (.exit retval) father) s)
    (mayFinish : ∀ pid,
      (Move.endFatherless pid s.running p (.exit retval)).Guard s →
        allowed (.endFatherless pid s.running p (.exit retval)) s)
    (mayOrphan : ∀ u x n, n.fatherPid = s.currentPid →
      allowed (.orphan x n) u) :
    wp (exit retval)
      (fun _ t => Ends allowed calm s t ∧ t.Top ∧ KeepsKin s t)
      (Stops allowed s) s := by
  have has := sound.hasPid_current onCpu
  have living : p.Living := by simp [Process.Living, onCpu.2]
  have unlinked := sound.coherent.link_of_elected onCpu.1 onCpu.2
  have entered : (s.setProc s.running { p with retval := retval }).note
      (.exited s.running retval) =
      ((s.giveBack p).relink s.running { p with retval := retval } p.link
        none).note (.exited s.running retval) := by
    rw [KState.giveBack_of_ne (by simp [onCpu.2]), unlinked,
      KState.relink_none_none rfl]
  rw [exit, wp_bind, wp_get, wp_bind, wp_entry has.1, wp_bind,
    wp_modifyProc _ onCpu.1, wp_bind, wp_emit, entered]
  refine wp_processEnd sound plain True (.exit retval) has living onCpu
    (by simp) outside (mayEnd s.currentPid) (mayFinish s.currentPid)
    mayOrphan ?_ ?_ ?_ ?_
  · intro _ other
    exact absurd rfl other
  · exact fun _ _ ended => ended
  · exact fun _ _ scheduled keeps =>
      ⟨scheduled.ends calm, scheduled.top, keeps⟩
  · intro t other
    exact absurd rfl other

/-- `kill`. -/
theorem wp_kill (sound : Sound s) (plain : Allows allowed s)
    {current : Process} (onCpu : s.OnCpu current) (user : s.mode = .user)
    (pid : Int)
    (mayEnd : ∀ r p father, pid ≠ 0 →
      allowed (.endProcess pid r p .kill father) s)
    (mayFinish : ∀ r p, pid ≠ 0 →
      allowed (.endFatherless pid r p .kill) s)
    (mayOrphan : ∀ u x n, n.fatherPid = pid → allowed (.orphan x n) u)
    (calmFather : calm → ∀ r p, s.HasPid pid r p → r ≠ s.running →
      ∀ f content, s.procs f = some content →
        content.link = some .waitingPid → content.pid = p.fatherPid →
          s.prio f ≤ s.prio s.running) :
    wp (kill pid)
      (fun _ t => Ends allowed calm s t ∧ KeepsKin s t)
      (Stops allowed s) s := by
  have ok := sound.coherent
  have refused : Ends allowed calm s { s with mode := .user, eax := -1 } ∧
      KeepsKin s { s with mode := .user, eax := -1 } :=
    ⟨(Underway.refl onCpu).ret plain user (-1), .settle ok (-1)⟩
  rw [kill, wp_bind, wp_get, wp_ite]
  split
  · exact refused
  rename_i valid
  obtain ⟨r, listed⟩ : ∃ r, s.processTable pid = some r := by
    by_contra missing
    refine valid (.inl fun isValid => isValid.2.2 ?_)
    cases entry : s.processTable pid with
    | none => rfl
    | some r => exact absurd ⟨r, entry⟩ missing
  obtain ⟨-, -, p, record, -, active⟩ := ok.procs.table pid r listed
  have has : s.HasPid pid r p := ⟨listed, record⟩
  rw [wp_bind, wp_entry listed, wp_bind, wp_derefProc record, wp_ite]
  split
  · exact refused
  rename_i notZombie
  have living : p.Living := ⟨notZombie, active⟩
  have notIdle : pid ≠ 0 := fun isIdle => valid (.inr isIdle)
  -- the end of the process, once it is out of its list
  have ends : wp (do
      modifyProc r fun p => { p with retval := 0 }
      emit (.killed r)
      processEnd pid (.returning 0) (Nebulea.ret 0))
      (fun _ t => Ends allowed calm s t ∧ KeepsKin s t)
      (Stops allowed s) ((s.giveBack p).relink r p p.link none) := by
    have atR : ((s.giveBack p).relink r p p.link none).procs r =
        some { p with link := none } := by
      simp
    have assigned : ((s.giveBack p).relink r p p.link none).setProc r
        { p with link := none, retval := 0 } =
        (s.giveBack p).relink r { p with retval := 0 } p.link none := by
      rw [KState.relink_setProc rfl]
      exact KState.relink_link (p := { p with retval := 0 }) none
    rw [wp_bind, wp_modifyProc _ atR, assigned, wp_bind, wp_emit]
    refine wp_processEnd sound plain calm .kill has living onCpu (by simp)
      (by simp [user]) (fun father _ => mayEnd r p father notIdle)
      (fun _ => mayFinish r p notIdle) mayOrphan ?_ ?_ ?_ ?_
    · intro isCalm other
      exact calmFather isCalm r p has other
    · intro t c ended
      exact .inr (.inr ended)
    · exact fun _ _ scheduled keeps => ⟨scheduled.ends calm, keeps⟩
    · intro t _ here keeps
      rw [wp_ret]
      exact ⟨here.ret plain user 0,
        keeps.trans (.settle (sound.moves here.path).coherent 0)⟩
  cases link : p.link with
  | none =>
      have notInSem : p.state ≠ .inSem := by
        intro inSem
        have chained := ok.procs.linked r p record
        simp [KState.LinkOk, inSem, link] at chained
      rw [KState.giveBack_of_ne notInSem, link,
        KState.relink_none_none link] at ends
      rw [KState.setProc_eq_self record] at ends
      simpa using ends
  | some h =>
      rw [link] at ends
      simp only [ne_eq, reduceCtorEq, not_false_eq_true, if_true, wp_bind,
        wp_queueDel record link]
      by_cases inSem : p.state = .inSem
      · obtain ⟨x, waited, -⟩ : ∃ x, s.semaphoreTable p.waitedSem = some x ∧
            p.link = some (.sem x) := by
          simpa [KState.LinkOk, inSem] using ok.procs.linked r p record
        obtain ⟨-, -, content, isSem, -⟩ := ok.heap.semTable _ x waited
        rw [KState.giveBack_of_inSem inSem waited isSem] at ends
        simp only [if_pos inSem, wp_bind, wp_get]
        have entry : (s.relink r p (some h) none).semaphoreTable p.waitedSem =
            some x := waited
        have atSem : (s.relink r p (some h) none).sems x = some content := isSem
        rw [entry]
        simp only []
        rw [wp_bind, wp_modifySem _ atSem]
        exact ends
      · rw [KState.giveBack_of_ne inSem] at ends
        simp only [if_neg inSem]
        exact ends

end Ending

end Nebulea
