import Nebulea.FramePoolCalls

/-!
# Runs on the pool of frames

Starting from `init_free_list`, the free list and the frames that are handed
out make up the initial list at any time, as long as no call is made on an empty
list.  Directories are the kernel's and those that `fill_new_pgdir` makes; the
flags that they get are limited by a parameter.
-/

namespace Nebulea

open ByteMemory ExceptState

/-- The calls on physical memory.  The last two stand for the processes: a
directory is loaded, and their owners write to frames. -/
inductive FrameCall where
  | allocate
  | mapPage (dir address flags : Nat)
  | getPtableEntry (dir address flags : Nat)
  | malloc (size : Int)
  | free (f : Nat)
  | virtualFree (f : Nat)
  | fillNewPgdir (dir source : Nat)
  | pgdirCopy (source dest sourceAddress destAddress size : Nat)
  | loadCr3 (dir : Nat)
  | write (bytes : Bytes)

namespace FrameCall

/-- What the call does. -/
def run : FrameCall → PM Unit
  | allocate => do
      let _ ← allocatePhysicalMemoryAddress
      pure ()
  | mapPage dir address flags => Nebulea.mapPage dir address flags
  | getPtableEntry dir address flags => do
      let _ ← Nebulea.getPtableEntry address dir true flags
      pure ()
  | malloc size => do
      let _ ← virtualMalloc size.toNat
      pure ()
  | free f => freePhysicalMemoryAddress f
  | virtualFree f => Nebulea.virtualFree f 0x1000
  | fillNewPgdir dir source => Nebulea.fillNewPgdir dir source
  | pgdirCopy source dest sourceAddress destAddress size =>
      Nebulea.pgdirCopy source dest sourceAddress destAddress size
  | loadCr3 dir => modify fun p => { p with cr3 := dir }
  | write bytes => modify fun p => { p with bytes := bytes }

/-- Only frames that are handed out, other than directories, and memory that is
neither a frame nor a table of the kernel is written. -/
def Outside (p : Paging) (dirs out : List Nat) (bytes : Bytes) : Prop :=
  ∀ x, bytes x = p.bytes x ∨
    (∃ f ∈ out, f ∉ dirs ∧ f ≤ x ∧ x < f + stride) ∨
    (x < memoryStart ∨ memoryEnd ≤ x) ∧ (x < pgdir ∨ pgdir + 0x41000 ≤ x)

/-- What the callers of the functions keep to, given the flags that are `ok`, the
directories and the frames that are handed out. -/
def Allowed (ok : Nat → Prop) (p : Paging) (dirs out : List Nat) :
    FrameCall → Prop
  | allocate => True
  | mapPage dir address flags => dir ∈ dirs ∧ address < 0x100000000 ∧
      flags < 0x1000 ∧ ok flags ∧ (address < 0x1000 ∨ memoryEnd ≤ address)
  | getPtableEntry dir address flags =>
      dir ∈ dirs ∧ address < 0x100000000 ∧ flags < 0x1000 ∧ ok flags
  | malloc _ => True
  | free f => f ∈ out ∧ Idle p dirs f
  | virtualFree f => f ∈ out ∧ Idle p dirs f
  | fillNewPgdir dir source => dir ∈ out ∧ Idle p dirs dir ∧ source ∈ dirs
  | pgdirCopy source dest sourceAddress destAddress size =>
      source ∈ dirs ∧ dest ∈ dirs ∧ memoryEnd ≤ destAddress ∧
        sourceAddress + size ≤ 0x100000000 ∧ destAddress + size ≤ 0x100000000
  | loadCr3 dir => dir ∈ dirs
  | write bytes => Outside p dirs out bytes

/-- The directories after the call. -/
def directories (dirs : List Nat) : FrameCall → List Nat
  | fillNewPgdir dir _ => dir :: dirs
  | _ => dirs

/-- The frames that stay handed out. -/
def kept (out : List Nat) : FrameCall → List Nat
  | free f => out.erase f
  | virtualFree f => out.erase f
  | _ => out

end FrameCall

/-- The runs from `init_free_list` in which no call follows the null pointer at
the end of the list, with the directories and the frames that are handed out:
those taken from the list and not given back. -/
inductive FrameRun (ok : Nat → Prop) (readOnly : Nat → Bool) (bytes : Bytes) :
    Paging → List Nat → List Nat → Prop
  | boot : FrameRun ok readOnly bytes (Paging.booting readOnly bytes) [pgdir] []
  | call {p p' : Paging} {dirs out since : List Nat}
      (front : FrameRun ok readOnly bytes p dirs out) (c : FrameCall)
      (allowed : c.Allowed ok p dirs out) (done : c.run p = .ok () p')
      (taken : p'.taken = since ++ p.taken) (nonNull : 0 ∉ since) :
      FrameRun ok readOnly bytes p' (c.directories dirs) (since ++ c.kept out)

section Steps

variable {ok : Nat → Prop} {p p' : Paging} {dirs out free : List Nat} {f : Nat}

/-- The free list and the frames that are handed out make up the frames. -/
structure Divided (ok : Nat → Prop) (p : Paging) (dirs out free : List Nat) :
    Prop where
  pool : Pool ok p dirs free
  whole : (free ++ out).Perm allFrames

theorem Divided.apart (divided : Divided ok p dirs out free) :
    ∀ g ∈ free, ∀ h ∈ out, g ≠ h :=
  (List.nodup_append.mp
    (divided.whole.nodup_iff.mpr allFrames_nodup)).2.2

theorem Divided.isFrame (divided : Divided ok p dirs out free) (member : f ∈ out) :
    IsFrame f :=
  (mem_allFrames f).mp
    (divided.whole.mem_iff.mp (List.mem_append_right free member))

theorem Divided.notFree (divided : Divided ok p dirs out free) (member : f ∈ out) :
    f ∉ free :=
  fun isFree => divided.apart f isFree f member rfl

/-- Frames are taken. -/
theorem Divided.draw (divided : Divided ok p dirs out free) {since : List Nat}
    (drew : Drew ok p dirs free p') (taken : p'.taken = since ++ p.taken)
    (nonNull : 0 ∉ since) : ∃ free', Divided ok p' dirs (since ++ out) free' := by
  obtain ⟨since', taken', outcome⟩ := drew
  have same : since' = since := List.append_cancel_right (taken'.symm.trans taken)
  subst same
  obtain ⟨rest, front, pool⟩ := outcome.resolve_left nonNull
  refine ⟨rest, pool, ?_⟩
  have whole := divided.whole
  rw [front] at whole
  refine List.Perm.trans ?_ whole
  rw [← List.append_assoc]
  exact (List.perm_append_comm.trans
    (since'.reverse_perm.symm.append_right rest)).append_right out

/-- A frame is given back. -/
theorem Divided.giveBack (divided : Divided ok p dirs out free)
    (member : f ∈ out) (pool : Pool ok p' dirs (f :: free)) :
    Divided ok p' dirs (out.erase f) (f :: free) := by
  refine ⟨pool, List.Perm.trans ?_ divided.whole⟩
  exact List.perm_middle.symm.trans
    ((List.perm_cons_erase member).symm.append_left free)

theorem Divided.congr (divided : Divided ok p dirs out free)
    {dirs' : List Nat} (pool : Pool ok p' dirs' free) :
    Divided ok p' dirs' out free :=
  ⟨pool, divided.whole⟩

/-- Writes to other frames leave the links and the directories alone. -/
theorem Divided.sameWords (divided : Divided ok p dirs out free) {bytes : Bytes}
    (outside : FrameCall.Outside p dirs out bytes) :
    SameWords dirs free p.bytes bytes := by
  have kept {a : Nat} (inMemory : ∀ x, a ≤ x → x < a + 4 →
      (memoryStart ≤ x ∧ x < memoryEnd ∨ pgdir ≤ x ∧ x < pgdir + 0x41000) ∧
      ∀ f ∈ out, f ∉ dirs → x < f ∨ f + stride ≤ x) :
      load32 bytes a = load32 p.bytes a := by
    apply load32_congr
    intro x low high
    obtain ⟨inside, far⟩ := inMemory x low high
    rcases outside x with same | ⟨f, member, other, above, below⟩ | ⟨away, off⟩
    · exact same
    · have apart := far f member other
      omega
    · omega
  constructor
  · intro g isFree
    have bounds := (divided.pool.isFrame g isFree).lt
    refine kept fun x low high => ⟨.inl ?_, ?_⟩
    · unfold memoryStart memoryEnd
      omega
    · intro f member _
      have far := (divided.pool.isFrame g isFree).eq_or_far
        (divided.isFrame member)
      have distinct := divided.apart g isFree f member
      unfold stride
      omega
  · intro d isDirectory i less
    have bounds := divided.pool.directory_bounds isDirectory
    refine kept fun x low high => ⟨?_, ?_⟩
    · unfold memoryStart memoryEnd pgdir
      omega
    · intro f member other
      have far := divided.pool.directory_far isDirectory
        (divided.isFrame member) other
      unfold stride
      omega
  · intro page less
    refine kept fun x low high => ⟨.inr ?_, ?_⟩
    · unfold pgtab at low high
      unfold pgdir
      omega
    · intro f member _
      have bounds := (divided.isFrame member).lt
      unfold pgtab at high
      omega

/-- One call. -/
theorem Divided.call (divided : Divided ok p dirs out free) {c : FrameCall}
    {since : List Nat} (allowed : c.Allowed ok p dirs out)
    (done : c.run p = .ok () p') (taken : p'.taken = since ++ p.taken)
    (nonNull : 0 ∉ since) :
    ∃ free', Divided ok p' (c.directories dirs) (since ++ c.kept out) free' := by
  have pool := divided.pool
  -- the calls that take frames
  have draws (drew : wp c.run (fun _ => Drew ok p dirs free) (fun _ _ => True) p) :
      ∃ free', Divided ok p' dirs (since ++ out) free' := by
    have drawn := wp_ok drew done
    exact divided.draw drawn taken nonNull
  -- the others
  have takesNone (same : p'.taken = p.taken) : since = [] :=
    List.append_cancel_right (taken.symm.trans same)
  cases c with
  | allocate =>
      apply draws
      rw [FrameCall.run, wp_bind]
      exact pool.drew_allocate
  | mapPage dir address flags =>
      obtain ⟨member, less, few, good, other⟩ := allowed
      exact draws (pool.drew_mapPage member less few good (by
        unfold memoryStart
        omega))
  | getPtableEntry dir address flags =>
      obtain ⟨member, less, few, good⟩ := allowed
      apply draws
      rw [FrameCall.run, wp_bind]
      exact pool.drew_getPtableEntry member less few good
  | malloc size =>
      apply draws
      rw [FrameCall.run, wp_bind]
      exact pool.drew_virtualMalloc size.toNat
  | free f =>
      obtain ⟨member, idle⟩ := allowed
      obtain ⟨same, pool'⟩ :=
        wp_ok (pool.returned_free idle (divided.notFree member)) done
      rw [takesNone same]
      exact ⟨_, divided.giveBack member pool'⟩
  | virtualFree f =>
      obtain ⟨member, idle⟩ := allowed
      obtain ⟨same, pool'⟩ :=
        wp_ok (pool.returned_virtualFree idle (divided.notFree member)) done
      rw [takesNone same]
      exact ⟨_, divided.giveBack member pool'⟩
  | fillNewPgdir dir source =>
      obtain ⟨member, idle, isSource⟩ := allowed
      obtain ⟨same, pool'⟩ := wp_ok
        (pool.filled_pgdir idle (divided.notFree member) isSource) done
      rw [takesNone same]
      exact ⟨_, divided.congr pool'⟩
  | pgdirCopy source dest sourceAddress destAddress size =>
      obtain ⟨member, member', high, inside, inside'⟩ := allowed
      exact draws (pool.drew_copyPages member member'
        (by unfold pageCount; omega) (by unfold pageCount; omega) high)
  | loadCr3 dir =>
      cases done
      rw [takesNone rfl]
      exact ⟨_, divided.congr { pool with cr3 := allowed }⟩
  | write bytes =>
      cases done
      rw [takesNone rfl]
      exact ⟨_, divided.congr
        (pool.congr rfl rfl (divided.sameWords allowed))⟩

/-- The links that one finds from the head are those of the pool. -/
theorem FrameRun.divided {readOnly : Nat → Bool} {bytes : Bytes}
    (userRw : ok pageTableUserRw) (run : FrameRun ok readOnly bytes p dirs out) :
    ∃ free, Divided ok p dirs out free := by
  induction run with
  | boot =>
      refine ⟨allFrames, pool_booting userRw readOnly bytes, ?_⟩
      rw [List.append_nil]
  | call _ c allowed done taken nonNull ih =>
      obtain ⟨free, divided⟩ := ih
      exact divided.call allowed done taken nonNull

theorem length_allFrames : allFrames.length = 12288 := by
  rw [allFrames, List.length_map, List.length_range]
  rfl

end Steps

end Nebulea
