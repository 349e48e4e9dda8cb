import Nebulea.KernelProcessMoves

/-!
# The calls of `message_queue.c` perform moves
-/

namespace Nebulea

open ExceptState

section Queues

variable {allowed : Move → KState → Prop} {calm : Prop} {s t : KState}

/-- The queue that a call designates exists. -/
theorem exists_of_queueOf (ok : Coherent s) {fid : Int} {q : QueueRef}
    (designates : queueOf s fid = some q) :
    0 ≤ fid ∧ fid < nbQueue ∧ s.queueTable fid = some q ∧
      ∃ content, s.queues q = some content := by
  unfold queueOf at designates
  split at designates
  · simp at designates
  · obtain ⟨low, high, content, record, -⟩ :=
      ok.heap.queueTable fid q designates
    exact ⟨low, high, designates, content, record⟩

/-- `pcreate`. -/
theorem wp_pcreate (plain : Allows allowed s)
    {p : Process} (onCpu : s.OnCpu p) (user : s.mode = .user) (count : Int) :
    wp (pcreate count) (fun _ => Ends allowed calm s) (Stops allowed s) s := by
  rw [pcreate, wp_bind, wp_get, wp_ite]
  split
  · exact ends_ret plain onCpu user (-1)
  rename_i accepted
  rw [not_or, not_or] at accepted
  obtain ⟨positive, free, -⟩ := accepted
  obtain ⟨low, high, isFree⟩ : 0 ≤ getFreeFid s ∧ getFreeFid s < nbQueue ∧
    s.queueTable (getFreeFid s) = none := firstFree_free free
  have created : Underway allowed calm s
      ((Move.newQueue (getFreeFid s) count).effect s) := by
    refine (Underway.refl onCpu).move (.newQueue (getFreeFid s) count)
      (plain _ _ trivial False.elim) ⟨low, high, isFree, not_le.mp positive⟩
      ⟨p, onCpu⟩ rfl rfl ?_
    intro top
    exact top.congr (fun _ member => by simpa [Move.effect] using member) rfl
      rfl
  rw [wp_bind, wp_modify, wp_ret]
  exact created.ret plain user (getFreeFid s)

/-! ## Emptying a queue -/

/-- What the loop of `pdelete` and `preset` keeps. -/
structure Flushing (allowed : Move → KState → Prop) (s t : KState) :
    Prop where
  path : Moves allowed s t
  onCpu : ∃ p, t.OnCpu p
  mode : t.mode = s.mode
  queueTable : t.queueTable = s.queueTable
  queues : t.queues = s.queues

/-- The loop of `pdelete` and `preset`. -/
theorem wp_flushAll {post : Unit → KState → Prop}
    {fault : Fault → KState → Prop} (sound : Sound s) {current : Process}
    (onCpu : s.OnCpu current) {fid : Int} {q : QueueRef}
    (entry : s.queueTable fid = some q)
    (mayFlush : ∀ r p t, allowed (.flush r p q) t)
    (flushed : ∀ t, Flushing allowed s t → t.lists (.queue q) = [] →
      post () t) :
    wp (flushAll q) post fault s := by
  rw [flushAll, wp_bind, wp_get]
  refine wp_drain (Flushing allowed s) ?_ ?_ flushed
    ⟨.refl s, ⟨current, onCpu⟩, rfl, rfl, rfl⟩
  · intro t loop
    have ok := (sound.moves loop.path).coherent
    refine ⟨ok.lists.nodup _, ?_⟩
    intro r member
    obtain ⟨p, record, -⟩ := ok.record_of_mem member
    exact ⟨p, record⟩
  · intro t r p loop next
    have ok := (sound.moves loop.path).coherent
    obtain ⟨c, onCpu'⟩ := loop.onCpu
    have applies : (Move.flush r p q).Guard t :=
      ⟨next, ⟨fid, by rw [loop.queueTable, entry]⟩, c, onCpu'⟩
    have distinct := ok.running_ne_of_nextOut next onCpu'
    have unchained : (t.relink r p (some (.queue q)) none).procs r =
        some { p with link := none } := by
      simp
    have assigned : ((t.relink r p (some (.queue q)) none).setProc r
        { p with
          link := none, state := .activable, skipMessage := true }).procs r =
        some { p with
          link := none, state := .activable, skipMessage := true } := by
      simp
    have woken : ((t.relink r p (some (.queue q)) none).setProc r
        { p with
          link := none, state := .activable, skipMessage := true }).relink r
        { p with link := none, state := .activable, skipMessage := true } none
          (some .activable) = (Move.flush r p q).effect t := by
      rw [KState.setProc_relink, KState.relink_relink]
      exact KState.relink_link (p := { p with
        state := .activable, skipMessage := true }) none
    rw [flushOne, wp_bind, wp_modifyProc _ unchained, wp_queueAdd assigned rfl,
      woken]
    refine ⟨⟨loop.path.move _ (mayFlush r p t) applies, ⟨c, ?_, onCpu'.2⟩,
      loop.mode, loop.queueTable, loop.queues⟩, ?_⟩
    · simp [Move.effect, distinct, onCpu'.1]
    · simp [Move.effect, KState.relinkLists]

/-- The end of `pdelete` and `preset`. -/
theorem wp_rescheduleEmpty (sound : Sound s)
    (plain : Allows allowed s) (path : Moves allowed s t)
    (mode : t.mode = s.mode) {p : Process} (onCpu : t.OnCpu p)
    (user : t.mode = .user) {q : QueueRef} (empty : t.lists (.queue q) = []) :
    wp (reschedule (.returning 0))
      (fun _ u => Ends allowed calm s u ∧ ∀ x, some q = some x →
        u.lists (.queue x) = []) (Stops allowed s) t := by
  refine wp_mono (wp_reschedule sound plain path mode onCpu user 0) ?_
    (fun _ _ stops => stops)
  intro _ u scheduled
  refine ⟨scheduled.ends calm, ?_⟩
  intro x same
  cases same
  rw [scheduled.waiters.lists _ (by simp) (by simp), empty]

/-- `pdelete`. -/
theorem wp_pdelete (sound : Sound s) (plain : Allows allowed s)
    {current : Process} (onCpu : s.OnCpu current) (user : s.mode = .user)
    (fid : Int)
    (mayFlush : ∀ q, queueOf s fid = some q →
      ∀ r p t, allowed (.flush r p q) t)
    (mayDelete : ∀ q, queueOf s fid = some q →
      ∀ t, allowed (.deleteQueue fid q) t) :
    wp (pdelete fid)
      (fun _ t => Ends allowed calm s t ∧ ∀ q, queueOf s fid = some q →
        t.lists (.queue q) = []) (Stops allowed s) s := by
  rw [pdelete, wp_bind, wp_get]
  cases designates : queueOf s fid with
  | none =>
      exact ⟨ends_ret plain onCpu user (-1), by simp⟩
  | some q =>
      obtain ⟨-, -, entry, -⟩ := exists_of_queueOf sound.coherent designates
      simp only [wp_bind]
      refine wp_flushAll sound onCpu entry (mayFlush q designates) ?_
      intro t loop empty
      have applies : (Move.deleteQueue fid q).Guard t :=
        ⟨by rw [loop.queueTable, entry], empty⟩
      obtain ⟨c, onCpu'⟩ := loop.onCpu
      rw [wp_bind, wp_modify]
      exact wp_rescheduleEmpty sound plain
        (loop.path.move (.deleteQueue fid q) (mayDelete q designates t)
          applies) loop.mode onCpu' (loop.mode.trans user) empty

/-- `preset`. -/
theorem wp_preset (sound : Sound s) (plain : Allows allowed s)
    {current : Process} (onCpu : s.OnCpu current) (user : s.mode = .user)
    (fid : Int)
    (mayFlush : ∀ q, queueOf s fid = some q →
      ∀ r p t, allowed (.flush r p q) t)
    (mayReset : ∀ q, queueOf s fid = some q →
      ∀ content t, allowed (.resetQueue q content) t) :
    wp (preset fid)
      (fun _ t => Ends allowed calm s t ∧ ∀ q, queueOf s fid = some q →
        t.lists (.queue q) = []) (Stops allowed s) s := by
  rw [preset, wp_bind, wp_get]
  cases designates : queueOf s fid with
  | none =>
      exact ⟨ends_ret plain onCpu user (-1), by simp⟩
  | some q =>
      obtain ⟨-, -, entry, content, record⟩ :=
        exists_of_queueOf sound.coherent designates
      simp only [wp_bind]
      refine wp_flushAll sound onCpu entry (mayFlush q designates) ?_
      intro t loop empty
      have recordThen : t.queues q = some content := by
        rw [loop.queues, record]
      have applies : (Move.resetQueue q content).Guard t :=
        ⟨⟨⟨fid, by rw [loop.queueTable, entry]⟩, recordThen⟩, empty⟩
      obtain ⟨c, onCpu'⟩ := loop.onCpu
      rw [wp_bind, wp_modifyQueue _ recordThen]
      exact wp_rescheduleEmpty sound plain
        (loop.path.move (.resetQueue q content)
          (mayReset q designates content t) applies) loop.mode onCpu'
          (loop.mode.trans user) empty

end Queues

/-! ## Sending -/

/-- Moving one record commutes with an assignment to another. -/
theorem KState.setProc_relink_comm {s : KState} {a r : ProcRef}
    {old n p : Process} {h g : Option Head} (other : a ≠ r)
    (record : s.procs a = some old) (samePriority : n.priority = old.priority) :
    (s.setProc a n).relink r p h g = (s.relink r p h g).setProc a n := by
  have samePrio : ((s.setProc a n).setProc r p).prio =
      (s.setProc r p).prio := by
    funext x
    by_cases isR : x = r
    · simp [prio, isR]
    · by_cases isA : x = a
      · subst isA
        simp [prio, isR, record, samePriority]
      · simp [prio, isR, isA]
  have lists : (s.setProc a n).relinkLists r p h g =
      s.relinkLists r p h g := by
    cases g with
    | none => rfl
    | some g =>
        simp only [relinkLists]
        rw [samePrio]
        rfl
  apply KState.ext <;> try rfl
  · exact Function.update_comm other _ _ _
  · exact lists

section Sending

variable {allowed : Move → KState → Prop} {calm : Prop} {s t : KState}

/-- The sender has left its message in its record. -/
def KState.addressed (s : KState) (sender : Process) (q : QueueRef)
    (message : Int) : KState :=
  (s.setProc s.running { sender with message := message }).note
    (.sending s.running q message)

/-- The message is in the buffer as well. -/
def KState.delivered (s : KState) (sender : Process) (q : QueueRef)
    (content : MessageQueue) (message : Int) : KState :=
  ((s.addressed sender q message).setQueue q (content.push message)).note
    (.put q s.running message)

/-- The assignments of `psend` when it hands a message over. -/
theorem handOver_eq {q : QueueRef} {content : MessageQueue} {message : Int}
    {sender p : Process} {r : ProcRef} (distinct : s.running ≠ r)
    (onCpu : s.procs s.running = some sender) :
    (((s.delivered sender q content message).relink r p (some (.queue q))
      none).wake s.running { sender with message := message } none).setProc r
        { p with link := none, state := .elected } =
    ((((s.note (.sending s.running q message)).setQueue q
      (content.push message)).note (.put q s.running message)).relink r
        { p with state := .elected } (some (.queue q)) none).wake
          s.running { sender with message := message } none := by
  generalize isBase : ((s.note (.sending s.running q message)).setQueue q
    (content.push message)).note (.put q s.running message) = base
  have assigned : s.delivered sender q content message =
      base.setProc s.running { sender with message := message } := by
    rw [← isBase]
    rfl
  have onCpu' : base.procs s.running = some sender := by
    rw [← isBase]
    exact onCpu
  have electing : (base.relink r p (some (.queue q)) none).setProc r
      { p with link := none, state := .elected } =
      base.relink r { p with state := .elected } (some (.queue q)) none := by
    rw [KState.relink_setProc rfl]
    exact KState.relink_link (p := { p with state := .elected }) none
  have out : (base.relink r p (some (.queue q)) none).procs r =
      some { p with link := none } := by
    simp
  rw [assigned, KState.setProc_relink_comm
      (n := { sender with message := message }) distinct onCpu' rfl,
    KState.wake, KState.setProc_relink, ← KState.setProc_relink_comm
      (n := { p with link := none, state := .elected }) distinct.symm out rfl,
    electing]
  rfl

/-- A receiver that is not below the sender may take its place. -/
theorem top_handOver {q : QueueRef} {content : MessageQueue} {message : Int}
    {sender p : Process} {r : ProcRef} {restored : Context} (ok : Coherent s)
    (next : s.NextOut (.queue q) r p) (onCpu : s.OnCpu sender)
    (notBelow : sender.priority ≤ p.priority) (top : s.Top) :
    ((Move.handOver q content message sender r p restored).effect s).Top := by
  have distinct := ok.running_ne_of_nextOut next onCpu
  have samePrio (x : ProcRef) :
      ((Move.handOver q content message sender r p restored).effect s).prio x =
        s.prio x := by
    unfold KState.prio
    rw [Move.handOver_procs distinct]
    by_cases isNew : x = r
    · rw [if_pos isNew, isNew, next.2]
    · by_cases isOld : x = s.running
      · rw [if_neg isNew, if_pos isOld, isOld, onCpu.1]
      · rw [if_neg isNew, if_neg isOld]
  have newPrio : s.prio r = p.priority := KState.prio_eq next.2
  have oldPrio : s.prio s.running = sender.priority := KState.prio_eq onCpu.1
  intro x member
  change _ ≤ KState.prio _ r
  rw [samePrio, samePrio, newPrio]
  have moved : x ∈ ((((s.note (.sending s.running q message)).setQueue q
      (content.push message)).note (.put q s.running message)).relink r
        { p with state := .elected } (some (.queue q)) none).relinkLists
          s.running { sender with message := message, state := .activable }
            none (some .activable) .activable := member
  rcases KState.mem_of_mem_relinkLists moved with listed | ⟨isOld, -⟩
  · have wasListed : x ∈ s.lists .activable := by
      simpa [KState.relinkLists] using listed
    have below := top x wasListed
    omega
  · rw [isOld, oldPrio]
    exact notBelow

/-- `psend` to a queue on which a receiver is blocked, once the message is in
the buffer: the state is the one that the move leads to. -/
theorem wp_handOver {post : Unit → KState → Prop}
    {fault : Fault → KState → Prop} (sound : Sound s) {sender : Process}
    (onCpu : s.OnCpu sender) (user : s.mode = .user) {q : QueueRef}
    {content : MessageQueue} {message : Int} (has : s.HasQueue q content)
    (empty : content.nbMsg = 0) (notEmpty : s.lists (.queue q) ≠ [])
    (lost : ∀ r p u, s.NextOut (.queue q) r p → p.registers = none →
      fault .lostContext u)
    (handed : ∀ r p restored,
      (Move.handOver q content message sender r p restored).Guard s →
        post () ((Move.handOver q content message sender r p
          restored).effect s)) :
    wp (do
        match ← queueOut (.queue q) with
        | none => throw .page
        | some new => do
            activate s.running
            modifyProc new fun receiver => { receiver with state := .elected }
            let receiver ← derefProc new
            modify fun s => { s with currentPid := receiver.pid }
            virtualCtxSw .handedOver s.running new)
      post fault (s.delivered sender q content message) := by
  have ok := sound.coherent
  obtain ⟨r, last⟩ :=
    Option.ne_none_iff_exists'.mp (mt List.getLast?_eq_none_iff.mp notEmpty)
  obtain ⟨p, found, -⟩ := ok.record_of_mem (List.mem_of_getLast? last)
  have next : s.NextOut (.queue q) r p := ⟨last, found⟩
  have distinct := ok.running_ne_of_nextOut next onCpu
  have unlinked := ok.link_of_elected onCpu.1 onCpu.2
  have nodup : ((s.delivered sender q content message).lists
      (.queue q)).Nodup := ok.lists.nodup (.queue q)
  have nextThen : (s.delivered sender q content message).NextOut (.queue q) r
      p := by
    refine ⟨last, ?_⟩
    simp [KState.delivered, KState.addressed, distinct.symm, found]
  have senderThen : ((s.delivered sender q content message).relink r p
      (some (.queue q)) none).procs s.running =
        some { sender with message := message } := by
    simp [KState.delivered, KState.addressed, distinct]
  have receiverThen : (((s.delivered sender q content message).relink r p
      (some (.queue q)) none).wake s.running { sender with message := message }
        none).procs r = some { p with link := none } := by
    simp [distinct.symm]
  rw [wp_bind, wp_queueOut nodup nextThen]
  simp only [wp_bind]
  rw [wp_activate senderThen unlinked, wp_bind, wp_modifyProc _ receiverThen,
    handOver_eq distinct onCpu.1]
  have elected : (((((s.note (.sending s.running q message)).setQueue q
      (content.push message)).note (.put q s.running message)).relink r
        { p with state := .elected } (some (.queue q)) none).wake s.running
          { sender with message := message } none).procs r =
      some { p with state := .elected, link := none } := by
    simp [distinct.symm]
  rw [wp_bind, wp_derefProc elected, wp_bind, wp_modify]
  refine wp_virtualCtxSw (Function.update_self ..) (Function.update_self ..)
    elected ?_ ?_
  · intro unsaved
    rw [if_neg distinct.symm] at unsaved
    exact lost r p _ next unsaved
  · intro restored restores
    rw [if_neg distinct.symm] at restores
    exact handed r p restored ⟨has, user, empty, next, onCpu, restores⟩

/-- A hand-over is a move. -/
theorem ends_handOver (ok : Coherent s) {q : QueueRef}
    {content : MessageQueue} {message : Int} {sender p : Process}
    {r : ProcRef} {restored : Context}
    (permitted : allowed (.handOver q content message sender r p restored) s)
    (applies : (Move.handOver q content message sender r p restored).Guard s)
    (notBelow : calm → sender.priority ≤ p.priority) :
    Ends allowed calm s
      ((Move.handOver q content message sender r p restored).effect s) := by
  have next := applies.2.2.2.1
  have onCpu := applies.2.2.2.2.1
  have elected := Move.handOver_procs (q := q) (c := content) (m := message)
    (n := sender) (p := p) (k := restored)
    (ok.running_ne_of_nextOut next onCpu) r
  rw [if_pos rfl] at elected
  exact ⟨.single _ permitted applies, ⟨_, elected, rfl⟩,
    fun more => absurd more (lt_irrefl _),
    fun isCalm => top_handOver ok next onCpu (notBelow isCalm)⟩

/-- `psend`. -/
theorem wp_psend (sound : Sound s) (plain : Allows allowed s)
    {sender : Process} (onCpu : s.OnCpu sender) (user : s.mode = .user)
    (fid message : Int)
    (mayHandOver : ∀ q content r p restored, queueOf s fid = some q →
      allowed (.handOver q content message sender r p restored) s)
    (mayAwait : ∀ q, queueOf s fid = some q →
      allowed (.awaitSend sender fid q message) s)
    (mayPut : ∀ q content, queueOf s fid = some q →
      allowed (.put q content sender message) s)
    (calmSend : calm → ∀ q content r p, queueOf s fid = some q →
      s.queues q = some content → content.nbMsg = 0 →
        s.NextOut (.queue q) r p → sender.priority ≤ p.priority) :
    wp (psend fid message) (fun _ => Ends allowed calm s) (Stops allowed s)
      s := by
  have ok := sound.coherent
  have self := sound.hasPid_current onCpu
  have unlinked := ok.link_of_elected onCpu.1 onCpu.2
  rw [psend, wp_bind, wp_get]
  cases designates : queueOf s fid with
  | none => exact ends_ret plain onCpu user (-1)
  | some q =>
      obtain ⟨low, high, entry, content, record⟩ :=
        exists_of_queueOf ok designates
      have has : s.HasQueue q content := ⟨⟨fid, entry⟩, record⟩
      have recordThen : (s.addressed sender q message).queues q =
          some content := record
      have assigned : (s.addressed sender q message).procs s.running =
          some { sender with message := message } := by
        simp [KState.addressed]
      simp only [wp_bind, wp_get]
      rw [wp_entry self.1, wp_bind, wp_modifyProc _ self.2, wp_bind, wp_emit]
      change wp _ _ _ (s.addressed sender q message)
      rw [wp_bind, wp_derefQueue recordThen, wp_bind, wp_get, wp_ite]
      split
      · rename_i handing
        rw [wp_bind, wp_modifyQueue _ recordThen, wp_bind, wp_emit]
        refine wp_handOver sound onCpu user has handing.1 handing.2 ?_ ?_
        · intro r p _ next lost
          have state := ok.inMsgqueue_of_nextOut next
          exact ⟨s, .refl s, r, p, s.running, next.2, by simp [state], lost,
            (ok.running_ne_of_nextOut next onCpu).symm, .inl rfl⟩
        · intro r p restored applies
          exact ends_handOver ok
            (mayHandOver q content r p restored designates) applies
            fun isCalm => calmSend isCalm q content r p designates record
              handing.1 applies.2.2.2.1
      rename_i notHanding
      rw [wp_ite]
      split
      · rename_i full
        have blocked : ((s.addressed sender q message).setProc s.running
            { sender with message := message, state := .inMsgqueue }).procs
              s.running =
            some { sender with message := message, state := .inMsgqueue } := by
          simp
        have waits : ((s.addressed sender q message).setProc s.running
            { sender with message := message, state := .inMsgqueue }).relink
              s.running { sender with
                message := message, state := .inMsgqueue } none
                  (some (.queue q)) =
            (Move.awaitSend sender fid q message).effect s := by
          rw [KState.setProc_relink]
          exact KState.setProc_relink (s := s.note (.sending s.running q message))
        rw [wp_bind, wp_modifyProc _ assigned, wp_bind,
          wp_queueAdd blocked unlinked, waits]
        refine wp_leave sound plain
          (Moves.single (.awaitSend sender fid q message)
            (mayAwait q designates) ⟨onCpu, low, high, entry⟩) rfl
          ⟨?_, ?_⟩ (by simp)
        · intro c inKernel
          have mode : s.mode = .kernel c := inKernel
          simp [user] at mode
        · exact ⟨_, Function.update_self .., by simp, rfl, rfl, rfl, content,
            record, full⟩
      · rename_i notFull
        have sent : Underway allowed calm s
            ((Move.put q content sender message).effect s) := by
          refine (Underway.refl onCpu).move (.put q content sender message)
            (mayPut q content designates)
            ⟨has, user, onCpu, notHanding, notFull⟩
            ⟨_, Function.update_self .., onCpu.2⟩ rfl rfl ?_
          intro top
          exact (top.setProc (n := { sender with message := message }) onCpu.1
            rfl).congr (fun _ member => member) rfl rfl
        rw [wp_bind, wp_modifyQueue _ recordThen, wp_bind, wp_emit, wp_ret]
        exact sent.ret plain user 0

/-- The running process knows whether its queue was emptied or deleted. -/
theorem not_skipping_of_clear {p : Process}
    (record : s.procs s.running = some p) (clear : p.skipMessage = false) :
    ¬ s.Skipping := by
  rintro ⟨k, n, -, found, isSet⟩
  rw [record, Option.some.injEq] at found
  simp [← found, clear] at isSet

/-- The end of a system call that comes back from the kernel. -/
theorem ends_resume (plain : Allows allowed s)
    (here : Underway allowed calm s t) (calls : ¬ t.mode.Receiving)
    (heard : ¬ t.Skipping) (value : Int) :
    Ends allowed calm s { t with mode := .user, eax := value } := by
  refine ⟨here.path.move (.settle .user value)
    (plain _ _ trivial fun _ => here.mode) ⟨rfl, calls, heard⟩, here.onCpu, ?_, here.top⟩
  intro more
  exact absurd here.switched more.ne'

/-- A blocked sender or receiver learns that its queue is gone. -/
theorem ends_refuse (plain : Allows allowed s) {p : Process}
    (onCpu : s.OnCpu p) (isSet : p.skipMessage = true)
    (mode : (∃ q, s.mode = .kernel (.psend s.running q)) ∨
      ∃ q message, s.mode = .kernel (.preceive s.running q message)) :
    Ends allowed calm s ((Move.refuse s.running p).effect s) := by
  refine ⟨.single (.refuse s.running p) (plain _ _ trivial fun _ => rfl)
    ⟨onCpu.1, isSet, mode⟩, ⟨_, Function.update_self .., onCpu.2⟩, ?_, ?_⟩
  · exact fun more => absurd more (lt_irrefl _)
  · intro _ top
    exact (top.setProc (n := { p with skipMessage := false }) onCpu.1
      rfl).congr (fun _ member => member) rfl rfl

/-- The rest of `psend`, when the sender gets the processor back. -/
theorem wp_psendTail (plain : Allows allowed s) {p : Process}
    (onCpu : s.OnCpu p) {q : QueueRef}
    (mode : s.mode = .kernel (.psend s.running q)) :
    wp (psendTail s.running) (fun _ => Ends allowed calm s)
      (Stops allowed s) s := by
  rw [psendTail, wp_bind, wp_derefProc onCpu.1]
  split
  · rename_i isSet
    rw [wp_bind, wp_modifyProc _ onCpu.1, wp_ret]
    exact ends_refuse plain onCpu isSet (.inl ⟨q, mode⟩)
  · rename_i clear
    rw [Bool.not_eq_true] at clear
    rw [wp_ret]
    exact ends_resume plain (.refl onCpu) (by simp [mode, Mode.Receiving])
      (not_skipping_of_clear onCpu.1 clear) 0

end Sending

/-! ## Receiving -/

section Receiving

variable {allowed : Move → KState → Prop} {calm : Prop} {s t : KState}

/-- A store through a pointer argument that may be null. -/
theorem wp_storeMessage {post : Unit → KState → Prop}
    {fault : Fault → KState → Prop}
    (here : Underway allowed calm s t) (message : UserPtr) (value : Int)
    (mayStore : message.addr ≠ 0 → message.faults = false →
      allowed (.note (.store message.addr value)) t)
    (faulted : message.addr ≠ 0 → message.faults = true → fault .page t)
    (stored : ∀ trace, Underway allowed calm s { t with trace := trace } →
      post () { t with trace := trace }) :
    wp (storeMessage message value) post fault t := by
  rw [storeMessage, wp_ite]
  split
  · rename_i notNull
    rw [wp_storeUser]
    split
    · rename_i faults
      exact faulted notNull faults
    · rename_i present
      rw [Bool.not_eq_true] at present
      exact stored _ (here.move (.note (.store message.addr value))
        (mayStore notNull present) trivial here.onCpu rfl rfl
        (fun top => top))
  · exact stored t.trace here

/-- `pcount`. -/
theorem wp_pcount (sound : Sound s) (plain : Allows allowed s)
    {p : Process} (onCpu : s.OnCpu p) (user : s.mode = .user) (fid : Int)
    (count : UserPtr)
    (mayStore : ∀ q value, queueOf s fid = some q → count.addr ≠ 0 →
      count.faults = false → allowed (.note (.store count.addr value)) s)
    (mayFault : ∀ t, t.mode = s.mode → allowed .fault t) :
    wp (pcount fid count) (fun _ => Ends allowed calm s) (Stops allowed s)
      s := by
  rw [pcount, wp_bind, wp_get]
  cases designates : queueOf s fid with
  | none => exact ends_ret plain onCpu user (-1)
  | some q =>
      obtain ⟨-, -, -, content, record⟩ :=
        exists_of_queueOf sound.coherent designates
      simp only []
      have begun : Underway allowed calm s s := .refl onCpu
      rw [wp_bind, wp_derefQueue record, wp_bind, wp_get, wp_bind]
      refine wp_storeMessage begun count _ (mayStore q _ designates) ?_ ?_
      · intro _ _
        refine Moves.stops (.refl s) (mayFault s rfl) ?_ onCpu
        rintro ⟨k, n, inKernel, -⟩
        simp [user] at inKernel
      · intro trace here
        exact here.ret plain user 0

/-- `preceive` from a full buffer on which a sender is blocked, once the
message has been read. -/
theorem wp_refill (sound : Sound s) (plain : Allows allowed s)
    (here : Underway allowed calm s t) {current : Process}
    (onCpu : t.OnCpu current) (user : t.mode = .user) {q : QueueRef}
    {content : MessageQueue} (has : t.HasQueue q content)
    (stored : 0 < content.nbMsg) (full : content.nbMsg = content.capacity)
    (notEmpty : t.lists (.queue q) ≠ [])
    (mayRefill : ∀ r p, allowed (.refill q content r p) t) :
    wp (do
        match ← queueOut (.queue q) with
        | none => throw .page
        | some sender => do
            let blocked ← derefProc sender
            modifyQueue q fun content => content.skip.write blocked.message
            emit (.put q sender blocked.message)
            activate sender
            reschedule (.returning 0))
      (fun _ => Ends allowed calm s) (Stops allowed s)
      (t.note (.take q t.running (content.buffer content.tail))) := by
  have ok := (sound.moves here.path).coherent
  obtain ⟨r, last⟩ :=
    Option.ne_none_iff_exists'.mp (mt List.getLast?_eq_none_iff.mp notEmpty)
  obtain ⟨p, found, -⟩ := ok.record_of_mem (List.mem_of_getLast? last)
  have next : t.NextOut (.queue q) r p := ⟨last, found⟩
  have distinct := ok.running_ne_of_nextOut next onCpu
  generalize isRead : t.note (.take q t.running
    (content.buffer content.tail)) = read
  have nodup : (read.lists (.queue q)).Nodup := by
    rw [← isRead]
    exact ok.lists.nodup (.queue q)
  have nextThen : read.NextOut (.queue q) r p := by
    rw [← isRead]
    exact next
  have sender : (read.relink r p (some (.queue q)) none).procs r =
      some { p with link := none } := by
    simp
  have record : (read.relink r p (some (.queue q)) none).queues q =
      some content := by
    rw [← isRead]
    exact has.2
  have senderThen : (((read.relink r p (some (.queue q)) none).setQueue q
      (content.skip.write p.message)).note (.put q r p.message)).procs r =
        some { p with link := none } := by
    simp
  have woken : (((read.relink r p (some (.queue q)) none).setQueue q
      (content.skip.write p.message)).note (.put q r p.message)).wake r
        { p with link := none } none =
      (Move.refill q content r p).effect t := by
    change (((read.setQueue q (content.skip.write p.message)).note
      (.put q r p.message)).relink r p (some (.queue q)) none).relink r
        { p with link := none, state := .activable } none (some .activable) = _
    rw [KState.relink_relink, ← isRead]
    exact KState.relink_link (p := { p with state := .activable }) none
  rw [wp_bind, wp_queueOut nodup nextThen]
  simp only [wp_bind]
  rw [wp_derefProc sender, wp_bind, wp_modifyQueue _ record, wp_bind, wp_emit,
    wp_bind, wp_activate senderThen rfl, woken]
  have onCpu' : ((Move.refill q content r p).effect t).OnCpu current := by
    refine ⟨?_, onCpu.2⟩
    simp [Move.effect, distinct, onCpu.1]
  exact wp_mono (wp_reschedule sound plain
    (here.path.move (.refill q content r p) (mayRefill r p)
      ⟨has, user, stored, full, next⟩) here.mode onCpu' user 0)
    (fun _ _ scheduled => scheduled.ends calm) (fun _ _ stops => stops)

/-- `preceive`. -/
theorem wp_preceive (sound : Sound s)
    (plain : Allows allowed s) {p : Process}
    (onCpu : s.OnCpu p) (user : s.mode = .user) (fid : Int)
    (message : UserPtr)
    (mayStore : ∀ q content value, queueOf s fid = some q →
      s.queues q = some content → 0 < content.nbMsg → message.addr ≠ 0 →
        message.faults = false →
          allowed (.note (.store message.addr value)) s)
    (mayFault : ∀ t, t.mode = s.mode → allowed .fault t)
    (mayRefill : ∀ q content r n trace, queueOf s fid = some q →
      allowed (.refill q content r n) { s with trace := trace })
    (mayTake : ∀ q content trace, queueOf s fid = some q →
      allowed (.take q content) { s with trace := trace })
    (mayAwait : ∀ q, queueOf s fid = some q →
      allowed (.awaitReceive p fid q) s) :
    wp (preceive fid message) (fun _ => Ends allowed calm s)
      (Stops allowed s) s := by
  have ok := sound.coherent
  have self := sound.hasPid_current onCpu
  have unlinked := ok.link_of_elected onCpu.1 onCpu.2
  rw [preceive, wp_bind, wp_get]
  cases designates : queueOf s fid with
  | none => exact ends_ret plain onCpu user (-1)
  | some q =>
      obtain ⟨low, high, entry, content, record⟩ :=
        exists_of_queueOf ok designates
      have begun : Underway allowed calm s s := .refl onCpu
      simp only [wp_bind, wp_get]
      rw [wp_entry self.1, wp_bind, wp_derefQueue record, wp_ite]
      split
      · rename_i stored
        rw [wp_bind]
        refine wp_storeMessage begun message _
          (mayStore q content _ designates record stored) ?_ ?_
        · intro _ _
          refine Moves.stops (.refl s) (mayFault s rfl) ?_ onCpu
          rintro ⟨k, n, inKernel, -⟩
          simp [user] at inKernel
        intro trace here
        have has : KState.HasQueue { s with trace := trace } q content :=
          ⟨⟨fid, entry⟩, record⟩
        rw [wp_bind, wp_emit, wp_bind, wp_get, wp_ite]
        split
        · rename_i refilling
          have onCpu' : KState.OnCpu { s with trace := trace } p := onCpu
          exact wp_refill sound plain here onCpu' user has stored refilling.1
            refilling.2 (fun r n => mayRefill q content r n trace designates)
        · rename_i notRefilling
          have took := here.move (.take q content)
            (mayTake q content trace designates)
            ⟨has, user, stored, notRefilling⟩ ⟨p, onCpu⟩ rfl rfl
            (fun top => top)
          have recordThen : (KState.note { s with trace := trace }
              (.take q s.running (content.buffer content.tail))).queues q =
                some content := record
          rw [wp_bind, wp_modifyQueue _ recordThen, wp_ret]
          exact took.ret plain user 0
      · rename_i notStored
        have blocked : (s.setProc s.running
            { p with state := .inMsgqueue }).procs s.running =
              some { p with state := .inMsgqueue } := by
          simp
        rw [wp_bind, wp_modifyProc _ self.2, wp_bind,
          wp_queueAdd blocked unlinked, KState.setProc_relink]
        refine wp_leave sound plain
          (Moves.single (.awaitReceive p fid q) (mayAwait q designates)
            ⟨onCpu, low, high, entry⟩) rfl ⟨?_, ?_⟩ (by simp)
        · intro c inKernel
          have mode : s.mode = .kernel c := inKernel
          simp [user] at mode
        · exact ⟨_, Function.update_self .., by simp, rfl, rfl, rfl, content,
            record, notStored⟩

/-- The rest of `preceive`, when the receiver gets the processor back. -/
theorem wp_preceiveTail (plain : Allows allowed s)
    {p : Process} (onCpu : s.OnCpu p) {q : QueueRef} {message : UserPtr}
    (mode : s.mode = .kernel (.preceive s.running q message))
    (mayStore : ∀ value, p.skipMessage = false → message.addr ≠ 0 →
      message.faults = false → allowed (.note (.store message.addr value)) s)
    (mayFault : message.addr ≠ 0 → message.faults = true →
      allowed .fault s) :
    wp (preceiveTail s.running q message) (fun _ => Ends allowed calm s)
      (Stops allowed s) s := by
  rw [preceiveTail, wp_bind, wp_derefProc onCpu.1]
  split
  · rename_i isSet
    rw [wp_bind, wp_modifyProc _ onCpu.1, wp_ret]
    exact ends_refuse plain onCpu isSet (.inr ⟨q, message, mode⟩)
  · rename_i clear
    rw [Bool.not_eq_true] at clear
    have begun : Underway allowed calm s s := .refl onCpu
    rw [wp_bind]
    refine wp_derefQueue_of trivial ?_
    intro content record
    rw [wp_bind]
    refine wp_storeMessage begun message _ (mayStore _ clear) ?_ ?_
    · intro notNull faults
      exact Moves.stops (.refl s) (mayFault notNull faults)
        (not_skipping_of_clear onCpu.1 clear) onCpu
    intro trace here
    have recordThen : (KState.note { s with trace := trace }
        (.take q s.running (content.buffer content.tail))).queues q =
          some content := record
    rw [wp_bind, wp_emit, wp_bind, wp_modifyQueue _ recordThen, wp_ret]
    refine ⟨here.path.move (.receive s.running q content)
      (plain _ _ trivial fun _ => rfl)
      ⟨record, ⟨message, mode⟩, p, onCpu.1, clear⟩,
      ⟨p, onCpu⟩, ?_, here.top⟩
    intro more
    exact absurd here.switched more.ne'

end Receiving

end Nebulea
