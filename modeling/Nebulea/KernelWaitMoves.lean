import Nebulea.KernelProcessMoves

/-!
# `waitpid` performs moves

Besides the moves, the rules of this module say what `waitpid` stores and
returns when it comes back to user mode with the pid of a child.
-/

namespace Nebulea

open ExceptState

/-- `waitpid(pid, retvalp)`, or its rest, has returned the pid of a child: what
it recorded on the way. -/
def Reaped (s : KState) (pid : Int) (retvalp : UserPtr) (t : KState) : Prop :=
  ∃ r p, (pid < 0 ∨ t.eax = pid) ∧ s.HasPid t.eax r p ∧
    t.trace = (if retvalp.addr = 0 then []
      else [.store retvalp.addr p.retval]) ++
        .finishZombie s.currentPid t.eax (some (r, p)) :: s.trace

section Waiting

variable {allowed : Move → KState → Prop} {calm : Prop} {s t : KState}

/-- No two children have the same pid. -/
theorem pid_ne_of_mem_erase {children : List Child} {child other : Child}
    (distinct : (children.map Child.pid).Nodup) (member : child ∈ children)
    (stays : other ∈ children.erase child) : other.pid ≠ child.pid := by
  intro same
  have inside := List.mem_of_mem_erase stays
  have equal := List.inj_on_of_nodup_map distinct inside member same
  have nodup : children.Nodup := List.Nodup.of_map Child.pid distinct
  exact (List.Nodup.mem_erase_iff nodup).mp stays |>.1 equal

/-- The end of `waitpid`, once the value has been stored. -/
theorem wp_reap (sound : Sound s)
    (here : Underway allowed calm s t)
    (heard : ¬ t.mode.Receiving ∧ ¬ t.Skipping) {caller p : Process}
    (onCpu : t.OnCpu caller) {pid : Int} {r : ProcRef}
    (has : t.HasPid pid r p) (isSon : p.fatherPid = t.currentPid)
    (mayReap : ∀ c l, allowed (.reap pid r p c l) t) :
    wp (do (do removeFromChildren pid t.currentPid; finishFatherless pid)
           ret pid)
      (fun _ u => Ends allowed calm s u ∧ u.eax = pid ∧ u.trace = t.trace)
      (Stops allowed s) t := by
  have soundT := sound.moves here.path
  have ok := soundT.coherent
  have self := soundT.hasPid_current onCpu
  obtain ⟨isCurrent, -⟩ := ok.active_of_hasPid self
  have isFather : t.currentPid ≠ -1 := by
    have nonneg := (ok.procs.table _ _ self.1).1
    omega
  have alive : caller.Living := by simp [Process.Living, onCpu.2]
  rw [wp_bind, wp_bind, removeFromChildren, wp_ite, if_neg isFather, wp_bind,
    wp_entry self.1, wp_bind, wp_derefProc self.2]
  cases isChildren : caller.children with
  | none => trivial
  | some children =>
      have distinct := (soundT.family.children _ caller children self.2 alive
        isChildren).1
      have notSelf : r ≠ t.running := by
        rintro rfl
        have same := has.2.symm.trans onCpu.1
        rw [Option.some.injEq] at same
        subst same
        have noList := soundT.family.self t.running p has.2
          (isSon.trans isCurrent.symm)
        simp [isChildren] at noList
      -- what follows the removal from the list of children
      have finishing (rest : List Child) (sub : rest.Sublist children)
          (gone : ∀ child ∈ rest, child.pid ≠ pid)
          (stays : ∀ child ∈ children, child.pid ≠ pid → child ∈ rest) :
          wp (finishFatherless pid)
            (fun _ => wp (ret pid) (fun _ u => Ends allowed calm s u ∧
              u.eax = pid ∧ u.trace = t.trace) (Stops allowed s))
            (Stops allowed s) (t.setProc t.running { caller with children := some rest }) := by
        have record : (t.setProc t.running
            { caller with children := some rest }).procs r = some p := by
          simp [notSelf, has.2]
        have hasThen : (t.setProc t.running
            { caller with children := some rest }).HasPid pid r p :=
          ⟨has.1, record⟩
        by_cases unlinked : p.link = none
        · have applies : (Move.reap pid r p caller rest).Guard t :=
            ⟨heard.1, heard.2, has, unlinked, isSon, notSelf, onCpu, children,
              isChildren, sub, gone, stays⟩
          rw [wp_finishFatherless hasThen unlinked, wp_ret]
          refine ⟨⟨here.path.move (.reap pid r p caller rest)
            (mayReap caller rest) applies, ?_, ?_, ?_⟩, rfl,
            rfl⟩
          · have onCpu' := Move.reap_procs (s := t) (i := pid) (p := p)
              (c := caller) (l := rest) notSelf t.running
            rw [if_neg notSelf.symm, if_pos rfl] at onCpu'
            exact ⟨_, onCpu', onCpu.2⟩
          · intro more
            exact absurd here.switched more.ne'
          · intro isCalm top
            have assigned := (here.top isCalm top).setProc
              (n := { caller with children := some rest }) onCpu.1 rfl
            have finished := assigned.finish (h := none) pid record rfl
            exact finished.congr (fun _ member => member) rfl rfl
        · -- `queue_add` refuses a record that is chained somewhere
          have assigned : ((t.setProc t.running
              { caller with children := some rest }).setProc r
                { p with state := .finished }).procs r =
                  some { p with state := .finished } := by
            simp
          rw [finishFatherless, wp_bind, wp_entry hasThen.1, wp_bind,
            wp_modifyProc _ record, wp_bind, queueAdd, wp_bind,
            wp_derefProc assigned, wp_ite, if_neg unlinked, wp_throw]
          simp [Stops]
      cases search : children.find? fun child => child.pid == pid with
      | none =>
          have gone : ∀ child ∈ children, child.pid ≠ pid := by
            intro child member
            simpa using List.find?_eq_none.mp search child member
          have kept : t.setProc t.running
              { caller with children := some children } = t := by
            rw [← isChildren]
            exact KState.setProc_eq_self onCpu.1
          have done := finishing children (List.Sublist.refl _) gone
            (fun _ member _ => member)
          rw [kept] at done
          simpa only [search, wp_pure] using done
      | some child =>
          have member := List.mem_of_find?_eq_some search
          have isPid : child.pid = pid := by
            simpa using List.find?_some search
          have gone : ∀ other ∈ children.erase child, other.pid ≠ pid := by
            intro other stays
            rw [← isPid]
            exact pid_ne_of_mem_erase distinct member stays
          simp only [search, wp_modifyProc _ onCpu.1]
          refine finishing (children.erase child) List.erase_sublist gone ?_
          intro other inside notPid
          refine (List.mem_erase_of_ne ?_).mpr inside
          rintro rfl
          exact notPid isPid

/-- `__finish_zombie` and the end of `waitpid`. -/
theorem wp_finishZombie (sound : Sound s)
    (heard : ¬ s.mode.Receiving ∧ ¬ s.Skipping) {caller p : Process} (onCpu : s.OnCpu caller) {pid : Int} {r : ProcRef}
    (has : s.HasPid pid r p) (isSon : p.fatherPid = s.currentPid)
    {asked : Int} (isAsked : asked < 0 ∨ pid = asked) (retvalp : UserPtr)
    (mayNote : allowed (.note (.finishZombie s.currentPid pid
      (some (r, p)))) s)
    (mayReap : ∀ c l trace,
      allowed (.reap pid r p c l) { s with trace := trace })
    (mayStore : ∀ t value, 0x4000000 ≤ retvalp.addr →
      allowed (.note (.store retvalp.addr value)) t)
    (mayFault : ∀ t, t.mode = s.mode → allowed .fault t) :
    wp (do finishZombie pid retvalp; ret pid)
      (fun _ t => Ends allowed calm s t ∧ Reaped s asked retvalp t)
      (Stops allowed s) s := by
  have found : ((s.processTable pid).bind fun r =>
      (s.procs r).map fun p => (r, p)) = some (r, p) := by
    simp [has.1, has.2]
  have entered : Underway allowed calm s
      (s.note (.finishZombie s.currentPid pid (some (r, p)))) :=
    ⟨.single (.note (.finishZombie s.currentPid pid (some (r, p)))) mayNote
      trivial, ⟨caller, onCpu⟩, rfl, rfl, fun _ top => top⟩
  rw [wp_bind, finishZombie, wp_bind, wp_get, wp_bind, wp_emit, found]
  by_cases isNull : retvalp.addr = 0
  · simp only [if_neg (not_not.mpr isNull), ← wp_bind_eq]
    refine wp_mono (wp_reap sound entered heard onCpu has isSon
      (fun c l => mayReap c l _)) ?_
      (fun _ _ stops => stops)
    rintro _ t ⟨ends, isPid, trace⟩
    refine ⟨ends, r, p, isPid ▸ isAsked, isPid ▸ has, ?_⟩
    simp [trace, isNull, isPid]
  · simp only [if_pos (show retvalp.addr ≠ 0 from isNull), wp_ite]
    split
    · intro text
      simp at text
    rename_i inUser
    rw [not_lt] at inUser
    have hasThen : (s.note (.finishZombie s.currentPid pid
        (some (r, p)))).HasPid pid r p := has
    rw [wp_bind, wp_entry hasThen.1, wp_bind, wp_derefProc hasThen.2, wp_bind,
      wp_storeUser]
    split
    · exact Moves.stops entered.path (mayFault _ rfl) heard.2 onCpu
    · have stored : Underway allowed calm s
          ((s.note (.finishZombie s.currentPid pid (some (r, p)))).note
            (.store retvalp.addr p.retval)) :=
        ⟨entered.path.move (.note (.store retvalp.addr p.retval))
          (mayStore _ _ inUser) trivial, ⟨caller, onCpu⟩, rfl, rfl,
          fun _ top => top⟩
      simp only [← wp_bind_eq]
      refine wp_mono (wp_reap sound stored heard onCpu has isSon
        (fun c l => mayReap c l _)) ?_
        (fun _ _ stops => stops)
      rintro _ t ⟨ends, isPid, trace⟩
      refine ⟨ends, r, p, isPid ▸ isAsked, isPid ▸ has, ?_⟩
      simp [trace, isNull, isPid]

/-- The loop of `waitpid` over the children. -/
theorem wp_firstZombie {post : Option Child → KState → Prop}
    {fault : Fault → KState → Prop} {children : List Child} {father : Int}
    (sons : ∀ c ∈ children, s.HasSon c.pid father)
    (notFound : (∀ c ∈ children, ∀ r p, s.HasPid c.pid r p →
      p.state ≠ .zombie) → post none s)
    (found : ∀ child r p, child ∈ children → s.HasPid child.pid r p →
      p.fatherPid = father → p.state = .zombie → post (some child) s) :
    wp (firstZombie children) post fault s := by
  induction children with
  | nil => exact notFound (by simp)
  | cons child others ih =>
      obtain ⟨r, p, has, isSon⟩ := sons child (by simp)
      rw [firstZombie, wp_bind, wp_entry has.1, wp_bind, wp_derefProc has.2,
        wp_ite]
      split
      · rename_i zombie
        exact found child r p (by simp) has isSon zombie
      · rename_i notZombie
        refine ih ?_ ?_ ?_
        · exact fun c member => sons c (List.mem_cons_of_mem child member)
        · intro none
          refine notFound fun c member x n has' => ?_
          rcases List.mem_cons.mp member with rfl | later
          · obtain ⟨-, rfl⟩ := has.unique has'
            exact notZombie
          · exact none c later x n has'
        · intro c r p member
          exact found c r p (List.mem_cons_of_mem child member)

/-- The part of `waitpid` that blocks the caller. -/
theorem wp_awaitChild (sound : Sound s)
    (plain : Allows allowed s) {p : Process}
    (onCpu : s.OnCpu p) (user : s.mode = .user) (pid : Int)
    (retvalp : UserPtr) (isSon : 0 ≤ pid → s.HasSon pid s.currentPid)
    (mayAwait : allowed (.awaitChild p) s)
    (mayDispatch : ∀ u r n old restored, u.mode = s.mode →
      allowed (.dispatch (.waitpid pid retvalp) r n old restored) u) :
    wp (awaitChild pid retvalp)
      (fun _ t => Ends allowed calm s t ∧ ∃ k, t.mode = .kernel k)
      (Stops allowed s) s := by
  have ok := sound.coherent
  have has := sound.hasPid_current onCpu
  have isCurrent := (ok.active_of_hasPid has).1
  have unlinked := ok.link_of_elected onCpu.1 onCpu.2
  have updated : (s.setProc s.running { p with state := .waitingPid }).procs
      s.running = some { p with state := .waitingPid } := by
    simp
  rw [awaitChild, wp_bind, wp_get, wp_bind, wp_entry has.1, wp_bind,
    wp_modifyProc _ has.2, wp_bind, wp_queueAdd updated unlinked,
    KState.setProc_relink]
  refine wp_mono (wp_scheduler sound plain
    (Moves.single (.awaitChild p) mayAwait onCpu) rfl ⟨?_, ?_⟩ mayDispatch)
    (fun _ _ scheduled => ⟨scheduled.ends calm, scheduled.inKernel⟩)
    (fun _ _ stops => stops)
  · intro c inKernel
    have mode : s.mode = .kernel c := inKernel
    simp [user] at mode
  · refine ⟨_, Function.update_self .., by simp, rfl, ?_⟩
    intro given
    obtain ⟨r, child, hasSon, isFather⟩ := isSon given
    by_cases isSelf : r = s.running
    · subst isSelf
      have same := hasSon.2.symm.trans onCpu.1
      rw [Option.some.injEq] at same
      subst same
      exact ⟨s.running, _, hasSon.1, Function.update_self ..,
        isFather.trans isCurrent.symm⟩
    · exact ⟨r, child, hasSon.1, by simp [isSelf, hasSon.2],
        isFather.trans isCurrent.symm⟩

/-- `waitpid`. -/
theorem wp_waitpid (sound : Sound s) (plain : Allows allowed s)
    {caller : Process} (onCpu : s.OnCpu caller) (user : s.mode = .user)
    (pid : Int) (retvalp : UserPtr)
    (mayNote : ∀ child r p, (pid < 0 ∨ child = pid) → s.HasPid child r p →
      p.fatherPid = s.currentPid → p.state = .zombie →
        allowed (.note (.finishZombie s.currentPid child (some (r, p)))) s)
    (mayReap : ∀ child r p c l trace, (pid < 0 ∨ child = pid) →
      p.state = .zombie →
        allowed (.reap child r p c l) { s with trace := trace })
    (mayAwait : (pid < 0 → ∃ children, caller.children = some children ∧
      children ≠ [] ∧ ∀ c ∈ children, ∀ r p, s.HasPid c.pid r p →
        p.state ≠ .zombie) → allowed (.awaitChild caller) s)
    (mayDispatch : ∀ u r n old restored, u.mode = s.mode →
      allowed (.dispatch (.waitpid pid retvalp) r n old restored) u)
    (mayStore : ∀ t value, 0x4000000 ≤ retvalp.addr →
      allowed (.note (.store retvalp.addr value)) t)
    (mayFault : ∀ t, t.mode = s.mode → allowed .fault t) :
    wp (waitpid pid retvalp)
      (fun _ t => Ends allowed calm s t ∧
        (t.mode = .user → t.eax ≠ -1 → Reaped s pid retvalp t))
      (Stops allowed s) s := by
  have ok := sound.coherent
  have self := sound.hasPid_current onCpu
  have isCurrent := (ok.active_of_hasPid self).1
  have heard : ¬ s.mode.Receiving ∧ ¬ s.Skipping := by
    refine ⟨by simp [user, Mode.Receiving], ?_⟩
    rintro ⟨k, p, inKernel, -⟩
    simp [user] at inKernel
  have refused : Ends allowed calm s { s with mode := .user, eax := -1 } ∧
      (Mode.user = .user → (-1 : Int) ≠ -1 →
        Reaped s pid retvalp { s with mode := .user, eax := -1 }) :=
    ⟨ends_ret plain onCpu user (-1), fun _ other => absurd rfl other⟩
  have blocks (isSon : 0 ≤ pid → s.HasSon pid s.currentPid)
      (may : allowed (.awaitChild caller) s) :
      wp (awaitChild pid retvalp)
        (fun _ t => Ends allowed calm s t ∧
          (t.mode = .user → t.eax ≠ -1 → Reaped s pid retvalp t))
        (Stops allowed s) s := by
    have waits : wp (awaitChild pid retvalp)
        (fun _ t => Ends allowed calm s t ∧ ∃ k, t.mode = .kernel k)
        (Stops allowed s) s :=
      wp_awaitChild sound plain onCpu user pid retvalp isSon may mayDispatch
    refine wp_mono waits ?_ (fun _ _ stops => stops)
    rintro _ t ⟨ends, k, inKernel⟩
    refine ⟨ends, ?_⟩
    intro isUser
    simp [inKernel] at isUser
  have reaps {child : Int} {r : ProcRef} {p : Process}
      (isAsked : pid < 0 ∨ child = pid) (has : s.HasPid child r p)
      (isSon : p.fatherPid = s.currentPid) (zombie : p.state = .zombie) :
      wp (do finishZombie child retvalp; ret child)
        (fun _ t => Ends allowed calm s t ∧
          (t.mode = .user → t.eax ≠ -1 → Reaped s pid retvalp t))
        (Stops allowed s) s :=
    wp_mono (wp_finishZombie sound heard onCpu has isSon isAsked retvalp
      (mayNote child r p isAsked has isSon zombie)
      (fun c l trace => mayReap child r p c l trace isAsked zombie) mayStore
      mayFault)
      (fun _ _ done => ⟨done.1, fun _ _ => done.2⟩) (fun _ _ stops => stops)
  rw [waitpid, wp_ite]
  split
  · exact refused
  rw [wp_ite]
  split
  · exact refused
  rw [wp_ite]
  split
  · rename_i any
    rw [wp_bind, wp_get, wp_bind, wp_entry self.1, wp_bind,
      wp_derefProc self.2]
    cases isChildren : caller.children with
    | none => trivial
    | some children =>
        have sons := (sound.family.children _ caller children self.2
          (by simp [Process.Living, onCpu.2]) isChildren).2
        rw [isCurrent] at sons
        simp only [wp_ite]
        split
        · exact refused
        rename_i some
        rw [wp_bind]
        refine wp_firstZombie sons ?_ ?_
        · intro noZombie
          exact blocks (by omega) (mayAwait fun _ =>
            ⟨children, isChildren, some, noZombie⟩)
        · intro child r p _ has isSon zombie
          exact reaps (.inl any) has isSon zombie
  · rename_i given
    rw [wp_bind, wp_get]
    cases entry : s.processTable pid with
    | none => exact refused
    | some r =>
        obtain ⟨-, -, p, record, -⟩ := ok.procs.table pid r entry
        have has : s.HasPid pid r p := ⟨entry, record⟩
        simp only []
        rw [wp_bind, wp_derefProc record, wp_bind, wp_get, wp_ite]
        split
        · exact refused
        rename_i isSon
        rw [not_not] at isSon
        rw [wp_ite]
        split
        · rename_i zombie
          exact reaps (.inr rfl) has isSon zombie
        · exact blocks (fun _ => ⟨r, p, has, isSon⟩)
            (mayAwait fun any => absurd any given)

/-- The rest of `waitpid`, when the caller gets the processor back. -/
theorem wp_waitpidTail (sound : Sound s) (heard : ¬ s.Skipping)
    {caller : Process} (onCpu : s.OnCpu caller) {pid : Int}
    {retvalp : UserPtr} (mode : s.mode = .kernel (.waitpid pid retvalp))
    (mayNote : ∀ child r p, (pid < 0 ∧ p.state = .zombie ∨ child = pid) →
      s.HasPid child r p → p.fatherPid = s.currentPid →
        allowed (.note (.finishZombie s.currentPid child (some (r, p)))) s)
    (mayReap : ∀ child r p c l trace,
      (pid < 0 ∧ p.state = .zombie ∨ child = pid) →
        allowed (.reap child r p c l) { s with trace := trace })
    (mayStore : ∀ t value, 0x4000000 ≤ retvalp.addr →
      allowed (.note (.store retvalp.addr value)) t)
    (mayFault : ∀ t, t.mode = s.mode → allowed .fault t) :
    wp (waitpidTail pid retvalp)
      (fun _ t => Ends allowed calm s t ∧ Reaped s pid retvalp t)
      (Stops allowed s) s := by
  have heard : ¬ s.mode.Receiving ∧ ¬ s.Skipping :=
    ⟨by simp [mode, Mode.Receiving], heard⟩
  have self := sound.hasPid_current onCpu
  have isCurrent := (sound.coherent.active_of_hasPid self).1
  have stack := sound.context.loaded _ caller mode onCpu.1
  have awaits := sound.family.awaits s.running caller pid retvalp onCpu.1
    (by simp [Process.Living, onCpu.2]) ⟨stack, fun _ => mode⟩
  rw [waitpidTail, wp_ite]
  split
  · rename_i any
    obtain ⟨r, p, has, isSon, zombie⟩ := awaits.2 (by simp [onCpu.2])
    rw [isCurrent] at isSon
    rw [wp_bind, wp_get, wp_bind, wp_entry self.1, wp_bind,
      wp_derefProc self.2]
    have isAsked : pid < 0 ∧ p.state = .zombie ∨ caller.waitedPid = pid :=
      .inl ⟨any, zombie⟩
    exact wp_finishZombie sound heard onCpu has isSon (.inl any) retvalp
      (mayNote caller.waitedPid r p isAsked has isSon)
      (fun c l trace => mayReap caller.waitedPid r p c l trace isAsked)
      mayStore mayFault
  · rename_i given
    obtain ⟨r, p, has, isSon⟩ := awaits.1 (not_lt.mp given)
    rw [isCurrent] at isSon
    exact wp_finishZombie sound heard onCpu has isSon (.inr rfl) retvalp
      (mayNote pid r p (.inr rfl) has isSon)
      (fun c l trace => mayReap pid r p c l trace (.inr rfl)) mayStore
      mayFault

end Waiting

end Nebulea
