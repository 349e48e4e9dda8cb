import Nebulea.KernelEvents
import Nebulea.KernelFrames
import Nebulea.RingBuffer

/-!
# Message queues as ring buffers

The `capacity`, `nb_msg`, `head`, `tail` and `buffer` of a message queue describe
a ring buffer as long as `head` is `nb_msg` cells after `tail` in the circle.
Each change the kernel makes to them is one operation of the ring buffer, and
the refill of a full buffer is two.
-/

namespace Nebulea

/-- Indices advance in the circle. -/
theorem advance_eq {capacity index : Int} (nonneg : 0 ≤ index)
    (small : index < capacity) :
    advance capacity index = (index + 1) % capacity := by
  unfold advance
  split
  · have isLast : index + 1 = capacity := by omega
    rw [isLast, Int.emod_self]
  · rw [Int.emod_eq_of_lt] <;> omega

namespace MessageQueue

/-- The record describes this ring buffer. -/
structure Shows (content : MessageQueue) (ring : RingBuffer Int) : Prop where
  capacity : content.capacity = ring.capacity
  nbMsg : content.nbMsg = ring.count
  head : content.head = ring.head
  tail : content.tail = ring.tail
  buffer : content.buffer = ring.cells

/-- The messages stored from `tail` on. -/
def stored (content : MessageQueue) : List Int :=
  (List.range content.nbMsg.toNat).map fun i : Nat =>
    content.buffer ((content.tail + i) % content.capacity)

namespace Shows

variable {content : MessageQueue} {ring : RingBuffer Int}

theorem stored_eq (shows_ : content.Shows ring) :
    content.stored = ring.toList := by
  rw [stored, shows_.nbMsg, shows_.tail, shows_.capacity, shows_.buffer]
  rfl

/-- The record of a new queue. -/
theorem new (fid : Int) {capacity : Int} (positive : 0 < capacity)
    (buffer : Int → Int) :
    Shows ⟨fid, capacity, 0, 0, 0, buffer⟩ (.empty capacity positive buffer) where
  capacity := rfl
  nbMsg := rfl
  head := (RingBuffer.index_zero (.empty capacity positive buffer)).symm
  tail := rfl
  buffer := rfl

/-- What `preset` makes of the record. -/
theorem reset (shows_ : content.Shows ring) :
    ∃ emptied, Shows { content with nbMsg := 0, head := 0, tail := 0 } emptied ∧
      emptied.toList = [] := by
  have positive : 0 < content.capacity :=
    shows_.capacity ▸ ring.capacity_pos
  exact ⟨_, new content.fid positive content.buffer, rfl⟩

theorem push (shows_ : content.Shows ring) (room : ring.count < ring.capacity)
    (message : Int) : (content.push message).Shows (ring.push message room) where
  capacity := shows_.capacity
  nbMsg := congrArg (· + 1) shows_.nbMsg
  head := by
    change advance content.capacity content.head = ring.index (ring.count + 1)
    rw [shows_.capacity, shows_.head, RingBuffer.head,
      advance_eq (ring.index_nonneg _) (ring.index_lt _), ring.index_succ]
  tail := shows_.tail
  buffer := by
    change Function.update content.buffer content.head message =
      Function.update ring.cells ring.head message
    rw [shows_.buffer, shows_.head]

theorem pop (shows_ : content.Shows ring) (stored : 0 < ring.count) :
    content.pop.Shows (ring.pop stored) where
  capacity := shows_.capacity
  nbMsg := congrArg (· - 1) shows_.nbMsg
  head := by
    change content.head =
      ((ring.tail + 1) % ring.capacity + (ring.count - 1)) % ring.capacity
    rw [shows_.head, RingBuffer.head, RingBuffer.index, Int.emod_add_emod]
    congr 1
    omega
  tail := by
    change advance content.capacity content.tail = _
    rw [shows_.capacity, shows_.tail,
      advance_eq ring.tail_nonneg ring.tail_lt]
    rfl
  buffer := shows_.buffer

end Shows

/-- `preceive` puts the message of a blocked sender in the cell it frees. -/
theorem refill_eq (content : MessageQueue) (message : Int) :
    content.skip.write message = content.pop.push message := by
  have same : content.nbMsg - 1 + 1 = content.nbMsg := by omega
  simp [write, push, skip, pop, same]

end MessageQueue

/-! ## What moves do to a queue -/

/-- The queue of a linked process exists. -/
theorem Coherent.hasQueue_of_link {s : KState} (ok : Coherent s)
    {q : QueueRef} {r : ProcRef} {p : Process} (record : s.procs r = some p)
    (link : p.link = some (.queue q)) :
    ∃ content, s.HasQueue q content := by
  obtain ⟨-, fid, entry⟩ := (ok.procs.linked r p record).state_of_link link
  obtain ⟨-, -, content, isContent, -⟩ := ok.heap.queueTable fid q entry
  exact ⟨content, ⟨fid, entry⟩, isContent⟩

namespace Move

/-- What a move makes of the record of `q`. -/
def rewrites (q : QueueRef) (content : MessageQueue) : Move → MessageQueue
  | .resetQueue x _ =>
      if x = q then { content with nbMsg := 0, head := 0, tail := 0 }
      else content
  | .put x _ _ message | .handOver x _ message _ _ _ _ =>
      if x = q then content.push message else content
  | .take x _ | .receive _ x _ => if x = q then content.pop else content
  | .refill x _ _ p =>
      if x = q then content.skip.write p.message else content
  | _ => content

variable {s : KState} {m : Move} {q : QueueRef} {content : MessageQueue}

/-- A queue whose record a move leaves alone or rewrites. -/
theorem hasQueue_setQueue {x : QueueRef} {old new n : MessageQueue}
    (record : s.queues x = some old) (has : (s.setQueue x new).HasQueue q n) :
    ∃ content, s.HasQueue q content ∧
      n = if x = q then new else content := by
  obtain ⟨entry, found⟩ := has
  by_cases same : x = q
  · subst same
    rw [KState.setQueue_queues, Function.update_self, Option.some.injEq] at found
    exact ⟨old, ⟨entry, record⟩, by rw [if_pos rfl, found]⟩
  · have other : q ≠ x := fun equal => same equal.symm
    rw [KState.setQueue_queues, Function.update_of_ne other] at found
    exact ⟨n, ⟨entry, found⟩, by rw [if_neg same]⟩

/-- Where the record of a queue comes from. -/
theorem queue_before (applies : m.Guard s) {n : MessageQueue}
    (has : (m.effect s).HasQueue q n) :
    (∃ content, s.HasQueue q content ∧ n = m.rewrites q content) ∨
      ∃ fid capacity, m = .newQueue fid capacity ∧ q = s.nextRef ∧
        n = ⟨fid, capacity, 0, 0, 0, fun _ => 0⟩ := by
  have rewritten {x : QueueRef} {old new : MessageQueue}
      (record : s.queues x = some old)
      (after : (s.setQueue x new).HasQueue q n)
      (same : ∀ content, s.queues q = some content →
        (if x = q then new else content) = m.rewrites q content) :
      ∃ content, s.HasQueue q content ∧ n = m.rewrites q content := by
    obtain ⟨content, before, isNew⟩ := hasQueue_setQueue record after
    exact ⟨content, before, isNew.trans (same content before.2)⟩
  have sameRecord {x : QueueRef} {old content : MessageQueue}
      (f : MessageQueue → MessageQueue) (record : s.queues x = some old)
      (found : s.queues q = some content) :
      (if x = q then f old else content) =
        if x = q then f content else content := by
    split
    · rename_i isQ
      subst isQ
      rw [record, Option.some.injEq] at found
      rw [found]
    · rfl
  cases m with
  | newQueue fid capacity =>
      obtain ⟨⟨entry, listed⟩, found⟩ := has
      by_cases isNew : q = s.nextRef
      · subst isNew
        refine .inr ⟨fid, capacity, rfl, rfl, ?_⟩
        simpa [effect] using found.symm
      · left
        refine ⟨n, ⟨⟨entry, ?_⟩, by simpa [effect, isNew] using found⟩, rfl⟩
        by_cases isEntry : entry = fid
        · have same : s.nextRef = q := by simpa [effect, isEntry] using listed
          exact absurd same.symm isNew
        · simpa [effect, isEntry] using listed
  | deleteQueue fid x =>
      left
      obtain ⟨⟨entry, listed⟩, found⟩ := has
      have isEntry : entry ≠ fid := by
        rintro rfl
        simp [effect] at listed
      have other : q ≠ x := by
        rintro rfl
        simp [effect] at found
      refine ⟨n, ⟨⟨entry, ?_⟩, ?_⟩, rfl⟩
      · simpa [effect, isEntry] using listed
      · simpa [effect, other] using found
  | resetQueue x old =>
      left
      exact rewritten applies.1.2 has fun content found =>
        sameRecord (fun c => { c with nbMsg := 0, head := 0, tail := 0 })
          applies.1.2 found
  | put x old p message =>
      left
      exact rewritten applies.1.2 has fun content found =>
        sameRecord (fun c => c.push message) applies.1.2 found
  | take x old =>
      left
      exact rewritten applies.1.2 has fun content found =>
        sameRecord MessageQueue.pop applies.1.2 found
  | refill x old r p =>
      left
      exact rewritten applies.1.2 has fun content found =>
        sameRecord (fun c => c.skip.write p.message) applies.1.2 found
  | handOver x old message sender r p restored =>
      left
      exact rewritten applies.1.2 has fun content found =>
        sameRecord (fun c => c.push message) applies.1.2 found
  | receive r x old =>
      left
      exact rewritten applies.1 has fun content found =>
        sameRecord MessageQueue.pop applies.1 found
  | endProcess pid r p how father => cases father <;> exact .inl ⟨n, has, rfl⟩
  | resetSem x c count | deleteSem sem x =>
      obtain ⟨_, _, _, released⟩ := s.release_eq x (s.lists (.sem x)).reverse
      refine .inl ⟨n, ?_, rfl⟩
      simpa [effect, released, KState.HasQueue] using has
  | _ => exact .inl ⟨n, has, rfl⟩

/-- The record of a queue that existed before. -/
theorem rewritten_of_has (ok : Coherent s) (applies : m.Guard s)
    (has : s.HasQueue q content) {n : MessageQueue}
    (hasN : (m.effect s).HasQueue q n) : n = m.rewrites q content := by
  rcases m.queue_before applies hasN with
    ⟨old, before, isN⟩ | ⟨-, -, -, isNew, -⟩
  · cases before.2.symm.trans has.2
    exact isN
  · subst isNew
    cases (ok.heap.fresh _ (Nat.le_refl _)).2.1.symm.trans has.2

/-- The record of a queue in whose list a process was. -/
theorem rewritten_of_link (ok : Coherent s) (applies : m.Guard s)
    {r : ProcRef} {p : Process} (record : s.procs r = some p)
    (link : p.link = some (.queue q)) {n : MessageQueue}
    (has : (m.effect s).HasQueue q n) :
    ∃ content, s.HasQueue q content ∧ n = m.rewrites q content := by
  obtain ⟨content, before⟩ := ok.hasQueue_of_link record link
  exact ⟨content, before, rewritten_of_has ok applies before has⟩

/-- A queue exists until it is deleted. -/
theorem hasQueue_effect (ok : Coherent s) (applies : m.Guard s)
    (has : s.HasQueue q content) (kept : ∀ fid, m ≠ .deleteQueue fid q) :
    ∃ n, (m.effect s).HasQueue q n := by
  have assigned (x : QueueRef) (new : MessageQueue) :
      ∃ n, (s.setQueue x new).HasQueue q n := by
    by_cases same : q = x
    · exact ⟨new, has.1, by simp [same]⟩
    · exact ⟨content, has.1, by simp [same, has.2]⟩
  cases m with
  | newQueue fid capacity =>
      obtain ⟨⟨entry, listed⟩, record⟩ := has
      have other : entry ≠ fid := by
        rintro rfl
        cases applies.2.2.1.symm.trans listed
      have old : q ≠ s.nextRef := by
        rintro rfl
        cases (ok.heap.fresh s.nextRef (Nat.le_refl _)).2.1.symm.trans record
      exact ⟨content, ⟨entry, by simp [effect, other, listed]⟩,
        by simp [effect, old, record]⟩
  | deleteQueue fid x =>
      obtain ⟨⟨entry, listed⟩, record⟩ := has
      have other : q ≠ x := by
        rintro rfl
        exact kept fid rfl
      have otherEntry : entry ≠ fid := by
        rintro rfl
        exact other (Option.some.inj (listed.symm.trans applies.1))
      exact ⟨content, ⟨entry, by simp [effect, otherEntry, listed]⟩,
        by simp [effect, other, record]⟩
  | resetQueue x old => exact assigned x _
  | put x old p message => exact assigned x _
  | take x old => exact assigned x _
  | refill x old r p => exact assigned x _
  | handOver x old message sender r p restored => exact assigned x _
  | receive r x old => exact assigned x _
  | endProcess pid r p how father => cases father <;> exact ⟨content, has⟩
  | resetSem x c count | deleteSem sem x =>
      obtain ⟨_, _, _, released⟩ := s.release_eq x (s.lists (.sem x)).reverse
      refine ⟨content, ?_⟩
      simpa [effect, released, KState.HasQueue] using has
  | _ => exact ⟨content, has⟩

end Move

end Nebulea
