import Nebulea.FramePool

/-!
# Calls on the pool of frames

Each function of `mmu.c` takes frames from the front of the free list, and
whatever it writes, it writes to page directories, to page tables and to the
frames it has taken.
-/

namespace Nebulea

open ByteMemory ExceptState

/-- Memory after `allocate_physical_memory_address` has taken `f`. -/
def Paging.popped (p : Paging) (f : Nat) : Paging :=
  { p with
    head := load32 p.bytes f
    taken := f :: p.taken
    released := p.released.filter fun frame => frame ≠ f }

/-- Memory after `set_table_permission`. -/
def Paging.permitted (p : Paging) (d index flags : Nat) : Paging :=
  { p with
    bytes := store32 p.bytes (d + 4 * index)
      (frameBits (load32 p.bytes (d + 4 * index)) ||| flags) }

/-- Memory after a page table has been made in `f`. -/
def Paging.withTable (p : Paging) (d index flags f : Nat) : Paging :=
  { p.popped f with
    bytes := store32 (storeWords p.bytes f 1024 fun _ => 0) (d + 4 * index)
      (frameBits f ||| flags) }

/-- Memory after a turn of the loop of `virtual_malloc` that took `f`. -/
def Paging.granted (p : Paging) (f : Nat) : Paging :=
  { p.popped f with
    bytes := store32
      ((p.popped f).permitted p.cr3 (pdIndex f) pageTableUserRw).bytes
      (sharedEntry f) (frameBits f ||| pageTableUserRw) }

/-- Memory after a turn of the loop of `virtual_free` at a page that is mapped
to itself. -/
def Paging.givenBack (p : Paging) (a : Nat) : Paging :=
  { p with
    bytes := store32 (store32 p.bytes a p.head) (sharedEntry a)
      (frameBits a ||| pageTableRw)
    head := a
    released := a :: p.released }

variable {ok : Nat → Prop} {p p' : Paging} {dirs free : List Nat}
variable {d a flags : Nat}

section Rules

variable {post : Nat → Paging → Prop} {fault : Fault → Paging → Prop}

/-- `allocate_physical_memory_address`; on an empty list it follows the null
pointer. -/
theorem Pool.wp_allocate (pool : Pool ok p dirs free)
    (taken : ∀ f rest, free = f :: rest → post f (p.popped f))
    (null : free = [] → post 0 (p.popped 0))
    (unmapped : free = [] → fault .page p) :
    wp allocatePhysicalMemoryAddress post fault p := by
  unfold allocatePhysicalMemoryAddress
  simp only [wp_bind, wp_get]
  cases free with
  | nil =>
      have isHead : p.head = 0 := pool.linked
      rw [isHead]
      by_cases isMapped : p.Mapped 0
      · apply wp_load isMapped
        simp only [wp_bind, wp_modify, wp_pure]
        exact null rfl
      · unfold load
        simpa [isMapped] using unmapped rfl
  | cons f rest =>
      have bounds := (pool.isFrame f List.mem_cons_self).lt
      rw [pool.linked.head_eq]
      apply wp_load (mapped (by omega) (by omega))
      simp only [wp_bind, wp_modify, wp_pure]
      exact taken f rest rfl

theorem Pool.wp_setTablePermission {post : Unit → Paging → Prop}
    (pool : Pool ok p dirs free) (member : d ∈ dirs) (less : pdIndex a < 1024)
    (holds : post () (p.permitted d (pdIndex a) flags)) :
    wp (setTablePermission a d flags) post fault p := by
  unfold setTablePermission
  have isMapped := pool.mapped_directory member less
  rw [wp_bind]
  apply wp_load isMapped
  exact wp_store isMapped holds

/-- `get_ptable_entry_from_virtual_address`, when the directory has a page
table. -/
theorem Pool.wp_findEntry (pool : Pool ok p dirs free) (member : d ∈ dirs)
    (less : pdIndex a < 1024)
    (present : frameBits (load32 p.bytes (d + 4 * pdIndex a)) ≠ 0)
    (holds : post
      (frameBits (load32 p.bytes (d + 4 * pdIndex a)) + 4 * ptIndex a) p) :
    wp (getPtableEntry a d false 0) post fault p := by
  unfold getPtableEntry ptable
  simp only [wp_bind]
  apply wp_load (pool.mapped_directory member less)
  rw [if_pos present, wp_pure, if_neg (by simp), wp_pure]
  exact holds

/-- The same with permissions. -/
theorem Pool.wp_openEntry (pool : Pool ok p dirs free) (member : d ∈ dirs)
    (less : pdIndex a < 1024)
    (present : frameBits (load32 p.bytes (d + 4 * pdIndex a)) ≠ 0)
    (holds : post
      (frameBits (load32 p.bytes (d + 4 * pdIndex a)) + 4 * ptIndex a)
      (if flags = 0 then p else p.permitted d (pdIndex a) flags)) :
    wp (getPtableEntry a d true flags) post fault p := by
  unfold getPtableEntry ptable
  simp only [wp_bind]
  apply wp_load (pool.mapped_directory member less)
  rw [if_pos present, wp_pure]
  by_cases noFlags : flags = 0
  · rw [if_neg (by simp [noFlags]), wp_pure]
    rwa [if_pos noFlags] at holds
  · rw [if_pos ⟨trivial, noFlags⟩, wp_bind]
    apply pool.wp_setTablePermission member less
    rw [wp_pure]
    rwa [if_neg noFlags] at holds

/-! ## New page tables -/

/-- The frame that becomes a page table is cleared. -/
theorem load32_cleared {bytes : Bytes} {f b : Nat}
    (apart : b + 4 ≤ f ∨ f + 0x1000 ≤ b) :
    load32 (storeWords bytes f 1024 fun _ => 0) b = load32 bytes b :=
  load32_storeWords_apart (by omega)

theorem Pool.sameWords_cleared {f : Nat} {rest : List Nat}
    (pool : Pool ok p dirs (f :: rest)) :
    SameWords dirs rest p.bytes (storeWords p.bytes f 1024 fun _ => 0) := by
  have popped : Pool ok (p.popped f) dirs rest := pool.pop rfl rfl rfl
  have isFrame := pool.isFrame f List.mem_cons_self
  refine popped.sameWords isFrame (List.nodup_cons.mp pool.nodup).1
    (pool.free_notMem List.mem_cons_self) ?_
  intro x outside
  exact storeWords_outside (by omega)

theorem Pool.cleared {f : Nat} {rest : List Nat}
    (pool : Pool ok p dirs (f :: rest)) :
    Pool ok { p.popped f with bytes := storeWords p.bytes f 1024 fun _ => 0 }
      dirs rest := by
  have popped : Pool ok (p.popped f) dirs rest := pool.pop rfl rfl rfl
  exact popped.congr rfl rfl pool.sameWords_cleared

theorem frameBits_entry {f : Nat} (isFrame : IsFrame f) (few : flags < 0x1000) :
    frameBits (frameBits f ||| flags) = f ∧
      frameBits f ||| flags < 0x100000000 := by
  have bounds := isFrame.lt
  have aligned := isFrame.aligned
  rw [frameBits_of_aligned aligned (by omega)]
  refine ⟨frameBits_or_flags aligned (by omega) few, ?_⟩
  rw [or_flags aligned few]
  omega

/-- An entry fits in a word. -/
theorem entry_lt {word : Nat} (small : word < 0x100000000)
    (few : flags < 0x1000) : frameBits word ||| flags < 0x100000000 := by
  have aligned := frameBits_aligned small
  have bound := frameBits_lt small
  rw [or_flags aligned few]
  omega

/-- The flags of an entry. -/
theorem entry_mod {word : Nat} (small : word < 0x100000000)
    (few : flags < 0x1000) : (frameBits word ||| flags) % 0x1000 = flags := by
  have aligned := frameBits_aligned small
  rw [or_flags aligned few]
  omega

theorem Pool.withTable {f : Nat} {rest : List Nat} {index : Nat}
    (pool : Pool ok p dirs (f :: rest)) (member : d ∈ dirs) (low : 64 ≤ index)
    (high : index < 1024) (few : flags < 0x1000) (good : ok flags) :
    Pool ok (p.withTable d index flags f) dirs rest := by
  have isFrame := pool.isFrame f List.mem_cons_self
  have bounds := isFrame.lt
  obtain ⟨frame, small⟩ := frameBits_entry isFrame few
  apply pool.cleared.setEntry member high small
  · intro less
    omega
  · intro _
    refine .inr ?_
    rw [frame, entry_mod (by omega) few]
    exact ⟨isFrame, (List.nodup_cons.mp pool.nodup).1,
      pool.free_notMem List.mem_cons_self, good⟩
  · intro _ _ e member' j less _ same
    rw [frame] at same
    change frameBits (load32 (storeWords p.bytes f 1024 fun _ => 0) _) = f at same
    rw [pool.sameWords_cleared.entry e member' j less] at same
    exact absurd same ((pool.idle List.mem_cons_self).notTable e member' j less)

/-- The new page table is found in the directory. -/
theorem Pool.withTable_entry {f : Nat} {rest : List Nat}
    (pool : Pool ok p dirs (f :: rest)) (d index : Nat)
    (few : flags < 0x1000) :
    frameBits (load32 (p.withTable d index flags f).bytes (d + 4 * index)) =
      f := by
  obtain ⟨frame, small⟩ :=
    frameBits_entry (pool.isFrame f List.mem_cons_self) few
  change frameBits (load32 (store32 _ _ _) _) = f
  rw [load32_store32, Nat.mod_eq_of_lt small, frame]

theorem Pool.permitted {index : Nat} (pool : Pool ok p dirs free)
    (member : d ∈ dirs) (less : index < 1024)
    (present : frameBits (load32 p.bytes (d + 4 * index)) ≠ 0)
    (few : flags < 0x1000) (good : ok flags) :
    Pool ok (p.permitted d index flags) dirs free := by
  have small := load32_lt p.bytes (d + 4 * index)
  have aligned := frameBits_aligned small
  have bound := frameBits_lt small
  have frame : frameBits (frameBits (load32 p.bytes (d + 4 * index)) |||
      flags) = frameBits (load32 p.bytes (d + 4 * index)) :=
    frameBits_or_flags aligned bound few
  apply pool.setEntry member less (entry_lt small few)
  · intro low
    rw [frame]
    exact pool.shared d member index low
  · intro high
    obtain ⟨isFrame, notFree, other, -⟩ := pool.table member less high present
    refine .inr ?_
    rw [frame, entry_mod small few]
    exact ⟨isFrame, notFree, other, good⟩
  · intro high _ e member' j less' high' same
    rw [frame] at same
    exact pool.distinct d member e member' index less j less' high high' present
      same

/-- `get_ptable_entry_from_virtual_address`, when the page table is missing. -/
theorem Pool.wp_makeEntry (pool : Pool ok p dirs free) (member : d ∈ dirs)
    (less : pdIndex a < 1024) (high : 64 ≤ pdIndex a) (few : flags < 0x1000)
    (good : ok flags)
    (absent : frameBits (load32 p.bytes (d + 4 * pdIndex a)) = 0)
    (holds : ∀ f rest, free = f :: rest →
      post (f + 4 * ptIndex a)
        (if flags = 0 then p.withTable d (pdIndex a) flags f
        else (p.withTable d (pdIndex a) flags f).permitted d (pdIndex a)
          flags))
    (empty : free = [] → ∀ failure p', fault failure p') :
    wp (getPtableEntry a d true flags) post fault p := by
  unfold getPtableEntry ptable newTable
  simp only [wp_bind]
  apply wp_load (pool.mapped_directory member less)
  rw [if_neg (by simpa using absent), if_pos trivial, wp_bind]
  apply pool.wp_allocate
  · rintro f rest rfl
    have bounds := (pool.isFrame f List.mem_cons_self).lt
    rw [if_neg (by omega), wp_bind]
    apply wp_storeArray (by omega) (by omega) (by omega)
    rw [wp_bind]
    apply wp_store (pool.cleared.mapped_directory member less)
    rw [wp_pure]
    have made := pool.withTable member high less few good
    have now := holds f rest rfl
    by_cases noFlags : flags = 0
    · rw [if_neg (by simp [noFlags]), wp_pure]
      rwa [if_pos noFlags] at now
    · rw [if_pos ⟨trivial, noFlags⟩, wp_bind]
      apply made.wp_setTablePermission member less
      rw [wp_pure]
      rwa [if_neg noFlags] at now
  · intro isEmpty
    rw [if_pos rfl, wp_throw]
    exact empty isEmpty _ _
  · intro isEmpty
    exact empty isEmpty _ _

end Rules

/-! ## Entries -/

/-- Where the entry for an address is: in the kernel's page tables, or in a page
table of the directory. -/
def EntryPlace (dirs free : List Nat) (a entry : Nat) : Prop :=
  a < memoryEnd ∧ entry = sharedEntry a ∨
    memoryEnd ≤ a ∧ ∃ t, IsFrame t ∧ t ∉ free ∧ t ∉ dirs ∧
      entry = t + 4 * ptIndex a

section Entries

variable {entry word : Nat}

theorem EntryPlace.mapped (place : EntryPlace dirs free a entry) :
    p.Mapped entry := by
  rcases place with ⟨low, rfl⟩ | ⟨-, t, isFrame, -, -, rfl⟩
  · exact mapped_sharedEntry low
  · exact isFrame.mapped_entry a

/-- An entry is written; one that maps a frame for the kernel keeps doing so. -/
theorem EntryPlace.store (place : EntryPlace dirs free a entry)
    (pool : Pool ok p dirs free) (small : word < 0x100000000)
    (same : memoryStart ≤ a → a < memoryEnd →
      frameBits word = a / 0x1000 * 0x1000) :
    Pool ok { p with bytes := store32 p.bytes entry word } dirs free := by
  rcases place with ⟨low, rfl⟩ | ⟨-, t, isFrame, notFree, other, rfl⟩
  · have inside : a / 0x1000 < 0x10000 := by
      unfold memoryEnd at low
      omega
    rw [sharedEntry_eq]
    refine pool.setShared inside small ?_
    intro high
    rw [same (by unfold memoryStart at *; omega) low, Nat.mul_comm]
  · have inTable := ptIndex_lt a
    refine pool.congr rfl rfl (pool.sameWords isFrame notFree other ?_)
    intro x outside
    exact store32_outside (by omega)

theorem Pool.entryPlace (pool : Pool ok p dirs free) (member : d ∈ dirs)
    (less : a < 0x100000000)
    (present : frameBits (load32 p.bytes (d + 4 * pdIndex a)) ≠ 0) :
    EntryPlace dirs free a
      (frameBits (load32 p.bytes (d + 4 * pdIndex a)) + 4 * ptIndex a) := by
  have index := pdIndex_eq a
  by_cases low : a < memoryEnd
  · unfold memoryEnd at low
    rw [pool.shared d member (pdIndex a) (by omega), sharedEntry_split]
    exact .inl ⟨low, rfl⟩
  · have high : 64 ≤ pdIndex a := by
      unfold memoryEnd at low
      omega
    obtain ⟨isFrame, notFree, other, -⟩ :=
      pool.table member (show pdIndex a < 1024 by omega) high present
    exact .inr ⟨Nat.le_of_not_lt low, _, isFrame, notFree, other, rfl⟩

/-- The shared page tables are there. -/
theorem Pool.shared_present (pool : Pool ok p dirs free) (member : d ∈ dirs)
    (low : a < memoryEnd) :
    frameBits (load32 p.bytes (d + 4 * pdIndex a)) ≠ 0 := by
  have index := pdIndex_eq a
  unfold memoryEnd at low
  rw [pool.shared d member (pdIndex a) (by omega)]
  unfold pgtab
  omega

/-- `get_ptable_entry_from_virtual_address` with creation takes at most the
frame of a page table. -/
theorem Pool.wp_getPtableEntry (pool : Pool ok p dirs free) (member : d ∈ dirs)
    (less : a < 0x100000000) (few : flags < 0x1000) (good : ok flags) :
    wp (getPtableEntry a d true flags)
      (fun entry p' => ∃ popped rest, free = popped ++ rest ∧
        p'.taken = popped.reverse ++ p.taken ∧ p'.cr3 = p.cr3 ∧
        Pool ok p' dirs rest ∧ EntryPlace dirs rest a entry)
      (fun _ _ => True) p := by
  have index := pdIndex_eq a
  by_cases present : frameBits (load32 p.bytes (d + 4 * pdIndex a)) = 0
  · have high : memoryEnd ≤ a := by
      by_contra low
      exact pool.shared_present member (Nat.lt_of_not_le low) present
    have notShared : 64 ≤ pdIndex a := by
      unfold memoryEnd at high
      omega
    refine pool.wp_makeEntry member (by omega) notShared few good present ?_
      fun _ _ _ => trivial
    rintro f rest rfl
    have made := pool.withTable member notShared
      (show pdIndex a < 1024 by omega) few good
    have entry := pool.withTable_entry d (pdIndex a) few
    have bounds := (pool.isFrame f List.mem_cons_self).lt
    have place : EntryPlace dirs rest a (f + 4 * ptIndex a) :=
      .inr ⟨high, f, pool.isFrame f List.mem_cons_self,
        (List.nodup_cons.mp pool.nodup).1,
        pool.free_notMem List.mem_cons_self, rfl⟩
    refine ⟨[f], rest, rfl, ?_⟩
    split
    · exact ⟨rfl, rfl, made, place⟩
    · exact ⟨rfl, rfl, made.permitted member (by omega) (by omega) few good,
        place⟩
  · refine pool.wp_openEntry member (by omega) present
      ⟨[], free, rfl, ?_⟩
    have place := pool.entryPlace member less present
    split
    · exact ⟨rfl, rfl, pool, place⟩
    · exact ⟨rfl, rfl, pool.permitted member (by omega) present few good, place⟩

end Entries

/-! ## Whole calls -/

/-- The call has taken frames from the front of the list, or has followed the
null pointer at its end. -/
def Drew (ok : Nat → Prop) (p : Paging) (dirs free : List Nat) (p' : Paging) :
    Prop :=
  ∃ since, p'.taken = since ++ p.taken ∧
    (0 ∈ since ∨ ∃ rest, free = since.reverse ++ rest ∧ Pool ok p' dirs rest)

theorem Drew.of_pool (pool : Pool ok p' dirs free) (taken : p'.taken = p.taken) :
    Drew ok p dirs free p' :=
  ⟨[], taken, .inr ⟨free, rfl, pool⟩⟩

/-- One more call after some frames have been taken. -/
theorem Drew.after {popped rest : List Nat} {p'' : Paging}
    (drew : Drew ok p' dirs rest p'') (front : free = popped ++ rest)
    (taken : p'.taken = popped.reverse ++ p.taken) : Drew ok p dirs free p'' := by
  obtain ⟨since, taken', outcome⟩ := drew
  refine ⟨since ++ popped.reverse, ?_, ?_⟩
  · rw [taken', taken, List.append_assoc]
  · rcases outcome with null | ⟨rest', isRest, pool⟩
    · exact .inl (List.mem_append_left _ null)
    · refine .inr ⟨rest', ?_, pool⟩
      rw [front, isRest, List.reverse_append, List.reverse_reverse,
        List.append_assoc]

theorem Pool.drew_allocate (pool : Pool ok p dirs free) :
    wp allocatePhysicalMemoryAddress (fun _ => Drew ok p dirs free)
      (fun _ _ => True) p := by
  apply pool.wp_allocate
  · rintro f rest rfl
    exact ⟨[f], rfl, .inr ⟨rest, rfl, pool.pop rfl rfl rfl⟩⟩
  · intro _
    exact ⟨[0], rfl, .inl List.mem_cons_self⟩
  · exact fun _ => trivial

theorem Pool.drew_getPtableEntry (pool : Pool ok p dirs free) (member : d ∈ dirs)
    (less : a < 0x100000000) (few : flags < 0x1000) (good : ok flags) :
    wp (getPtableEntry a d true flags) (fun _ => Drew ok p dirs free)
      (fun _ _ => True) p := by
  refine wp_mono (pool.wp_getPtableEntry member less few good) ?_ fun _ _ _ => trivial
  rintro entry p' ⟨popped, rest, front, taken, -, pool', -⟩
  exact (Drew.of_pool pool' rfl).after front taken

/-- `map_page_from_virtual_address`, for pages that the kernel's own mapping
does not use. -/
theorem Pool.drew_mapPage (pool : Pool ok p dirs free) (member : d ∈ dirs)
    (less : a < 0x100000000) (few : flags < 0x1000) (good : ok flags)
    (other : a < memoryStart ∨ memoryEnd ≤ a) :
    wp (mapPage d a flags) (fun _ => Drew ok p dirs free) (fun _ _ => True) p := by
  unfold mapPage
  rw [wp_bind]
  refine wp_mono (pool.wp_getPtableEntry member less few good) ?_ fun _ _ _ => trivial
  rintro entry p' ⟨popped, rest, front, taken, -, pool', place⟩
  simp only [wp_bind, wp_get]
  have bound := pool'.head_lt
  have small := entry_lt (show p'.head < 0x100000000 by omega) few
  refine wp_store place.mapped ?_
  have stored := place.store pool' small fun low high => by omega
  rw [wp_bind]
  refine wp_mono stored.drew_allocate ?_ fun _ _ _ => trivial
  intro _ p'' drew
  rw [wp_pure]
  exact drew.after front taken

/-- A turn of the loop of `virtual_malloc`. -/
theorem Pool.wp_mallocTurn {post : Nat → Paging → Prop}
    {fault : Fault → Paging → Prop} {f initial count : Nat} {rest : List Nat}
    (pool : Pool ok p dirs (f :: rest))
    (holds : wp (mallocPages (if initial = 0 then f else initial) count) post
      fault (p.granted f)) :
    wp (mallocPages initial (count + 1)) post fault p := by
  have bounds := (pool.isFrame f List.mem_cons_self).lt
  have popped : Pool ok (p.popped f) dirs rest := pool.pop rfl rfl rfl
  have low : f < memoryEnd := by
    unfold memoryEnd
    omega
  have index := pdIndex_eq f
  unfold mallocPages
  rw [wp_bind]
  apply pool.wp_allocate
  · intro g rest' same
    cases same
    rw [if_neg (by omega)]
    simp only [wp_bind, wp_get]
    apply popped.wp_openEntry popped.cr3 (by omega)
      (popped.shared_present popped.cr3 low)
    rw [popped.shared _ popped.cr3 (pdIndex f) (by omega), sharedEntry_split,
      wp_bind]
    apply wp_store (mapped_sharedEntry low)
    exact holds
  · intro isEmpty
    cases isEmpty
  · intro isEmpty
    cases isEmpty

/-- The loop ends at the first null pointer. -/
theorem Pool.wp_mallocNull {post : Nat → Paging → Prop}
    {fault : Fault → Paging → Prop} {initial count : Nat}
    (pool : Pool ok p dirs []) (null : post 0 (p.popped 0))
    (unmapped : fault .page p) :
    wp (mallocPages initial (count + 1)) post fault p := by
  unfold mallocPages
  rw [wp_bind]
  apply pool.wp_allocate
  · intro g rest same
    cases same
  · intro _
    rwa [if_pos rfl, wp_pure]
  · exact fun _ => unmapped

theorem Pool.granted {f : Nat} {rest : List Nat}
    (pool : Pool ok p dirs (f :: rest)) : Pool ok (p.granted f) dirs rest := by
  have isFrame := pool.isFrame f List.mem_cons_self
  have bounds := isFrame.lt
  have aligned := isFrame.aligned
  have popped : Pool ok (p.popped f) dirs rest := pool.pop rfl rfl rfl
  have few : pageTableUserRw < 0x1000 := by decide
  obtain ⟨frame, small⟩ := frameBits_entry isFrame few
  have index := pdIndex_eq f
  have opened := popped.permitted popped.cr3
    (show pdIndex f < 1024 by omega)
    (popped.shared_present popped.cr3 (by unfold memoryEnd; omega)) few
    popped.userRw
  have place : EntryPlace dirs rest f (sharedEntry f) := by
    refine .inl ⟨?_, rfl⟩
    unfold memoryEnd
    omega
  exact place.store opened small fun _ _ => by
    rw [frame]
    omega

/-- `virtual_malloc`, turn by turn. -/
theorem Pool.drew_mallocPages (pool : Pool ok p dirs free) (initial count : Nat) :
    wp (mallocPages initial count) (fun _ => Drew ok p dirs free)
      (fun _ _ => True) p := by
  induction count generalizing p free initial with
  | zero => exact Drew.of_pool pool rfl
  | succ count ih =>
      cases free with
      | nil =>
          exact pool.wp_mallocNull ⟨[0], rfl, .inl List.mem_cons_self⟩ trivial
      | cons f rest =>
          apply pool.wp_mallocTurn
          refine wp_mono (ih pool.granted _) ?_ fun _ _ _ => trivial
          intro _ p' drew
          exact drew.after (show f :: rest = [f] ++ rest from rfl) rfl

theorem Pool.drew_virtualMalloc (pool : Pool ok p dirs free) (size : Nat) :
    wp (virtualMalloc size) (fun _ => Drew ok p dirs free)
      (fun _ _ => True) p := by
  unfold virtualMalloc
  rw [wp_bind]
  refine wp_mono (pool.drew_mallocPages 0 (pageCount size)) ?_
    fun _ _ _ => trivial
  intro base p' drew
  split
  · exact drew
  · simp only [wp_bind, wp_modify, wp_pure]
    obtain ⟨since, taken, outcome⟩ := drew
    refine ⟨since, taken, outcome.imp_right ?_⟩
    rintro ⟨rest, front, pool'⟩
    exact ⟨rest, front, pool'.congr rfl rfl
      ⟨fun _ _ => rfl, fun _ _ _ _ => rfl, fun _ _ => rfl⟩⟩

/-- `get_ptable_entry_from_virtual_address` without creation changes nothing. -/
theorem Pool.found_entry (pool : Pool ok p dirs free) (member : d ∈ dirs)
    (less : a < 0x100000000) :
    wp (getPtableEntry a d false 0)
      (fun entry p' => p' = p ∧ EntryPlace dirs free a entry)
      (fun _ _ => True) p := by
  have index := pdIndex_eq a
  by_cases present : frameBits (load32 p.bytes (d + 4 * pdIndex a)) = 0
  · unfold getPtableEntry ptable
    simp only [wp_bind]
    apply wp_load (pool.mapped_directory member (by omega))
    rw [if_neg (by simpa using present), if_neg (by decide), wp_throw]
    trivial
  · exact pool.wp_findEntry member (by omega) present
      ⟨rfl, pool.entryPlace member less present⟩

/-- `pgdir_copy`, turn by turn, beyond the kernel's own mapping. -/
theorem Pool.drew_copyPages (pool : Pool ok p dirs free) {source dest : Nat}
    {sourceAddress destAddress count : Nat} (member : source ∈ dirs)
    (member' : dest ∈ dirs)
    (inside : sourceAddress + 0x1000 * count ≤ 0x100000FFF)
    (inside' : destAddress + 0x1000 * count ≤ 0x100000FFF)
    (high : memoryEnd ≤ destAddress) :
    wp (copyPages source dest sourceAddress destAddress count)
      (fun _ => Drew ok p dirs free) (fun _ _ => True) p := by
  induction count generalizing p free sourceAddress destAddress with
  | zero => exact Drew.of_pool pool rfl
  | succ count ih =>
      have few : pageTableUserRw < 0x1000 := by decide
      unfold copyPages
      rw [wp_bind]
      refine wp_mono (pool.found_entry member (by omega)) ?_ fun _ _ _ => trivial
      rintro entry _ ⟨rfl, found⟩
      rw [wp_bind]
      refine wp_mono (pool.wp_getPtableEntry member' (by omega) few pool.userRw)
        ?_ fun _ _ _ => trivial
      rintro entry' p' ⟨popped, rest, front, taken, -, pool', place⟩
      rw [wp_bind]
      apply wp_load found.mapped
      rw [wp_bind]
      refine wp_store place.mapped ?_
      have fits := entry_lt (load32_lt p'.bytes entry) few
      have stored := place.store pool' fits fun _ low => by omega
      refine wp_mono (ih stored (by omega) (by omega) (by omega)) ?_
        fun _ _ _ => trivial
      intro _ p'' drew
      exact drew.after front taken

/-! ## Frames given back -/

theorem Pool.wp_freePhysicalMemoryAddress {f : Nat}
    {post : Unit → Paging → Prop} {fault : Fault → Paging → Prop}
    (isFrame : IsFrame f)
    (holds : post ()
      { p with
        bytes := store32 p.bytes f p.head
        head := f
        released := f :: p.released }) :
    wp (freePhysicalMemoryAddress f) post fault p := by
  have bounds := isFrame.lt
  unfold freePhysicalMemoryAddress
  simp only [wp_bind, wp_get]
  apply wp_store (mapped (by omega) (by omega))
  rw [wp_modify]
  exact holds

theorem Pool.returned_free (pool : Pool ok p dirs free) {f : Nat}
    (idle : Idle p dirs f) (notFree : f ∉ free) :
    wp (freePhysicalMemoryAddress f)
      (fun _ p' => p'.taken = p.taken ∧ Pool ok p' dirs (f :: free))
      (fun _ _ => True) p :=
  Pool.wp_freePhysicalMemoryAddress idle.isFrame
    ⟨rfl, pool.push idle notFree rfl rfl rfl⟩

/-- A turn of the loop of `virtual_free` at a page of the kernel's mapping of
the frames. -/
theorem Pool.wp_freeTurn {post : Unit → Paging → Prop}
    {fault : Fault → Paging → Prop} {count : Nat} (pool : Pool ok p dirs free)
    (low : memoryStart ≤ a) (high : a < memoryEnd) (aligned : a % 0x1000 = 0)
    (holds : wp (freePages (a + 0x1000) count) post fault (p.givenBack a)) :
    wp (freePages a (count + 1)) post fault p := by
  have bounds : 0x4000000 ≤ a ∧ a < 0x10000000 := ⟨low, high⟩
  have index := pdIndex_eq a
  have present := pool.shared_present pool.cr3 high
  have frame : frameBits (load32 p.bytes (sharedEntry a)) = a := by
    rw [sharedEntry_eq, pool.identity (a / 0x1000)
      (by unfold memoryStart; omega) (by unfold memoryEnd; omega)]
    omega
  unfold freePages
  simp only [wp_bind, wp_get]
  apply pool.wp_findEntry pool.cr3 (by omega) present
  rw [pool.shared p.cr3 pool.cr3 (pdIndex a) (by omega), sharedEntry_split,
    wp_bind]
  apply wp_load (mapped_sharedEntry high)
  rw [frame, wp_bind]
  unfold freePhysicalMemoryAddress
  simp only [wp_bind, wp_get]
  apply wp_store (mapped (by omega) (by omega))
  rw [wp_modify, wp_bind]
  apply wp_store (mapped_sharedEntry high)
  exact holds

theorem Pool.givenBack (pool : Pool ok p dirs free) {f : Nat}
    (idle : Idle p dirs f) (notFree : f ∉ free) :
    Pool ok (p.givenBack f) dirs (f :: free) := by
  have bounds := idle.isFrame.lt
  have aligned := idle.isFrame.aligned
  have pushed : Pool ok { p with
      bytes := store32 p.bytes f p.head
      head := f
      released := f :: p.released } dirs (f :: free) :=
    pool.push idle notFree rfl rfl rfl
  have few : pageTableRw < 0x1000 := by decide
  obtain ⟨frame, small⟩ := frameBits_entry idle.isFrame few
  have place : EntryPlace dirs (f :: free) f (sharedEntry f) := by
    refine .inl ⟨?_, rfl⟩
    unfold memoryEnd
    omega
  exact place.store pushed small fun _ _ => by
    rw [frame]
    omega

/-- `virtual_free` of one page at the address of its frame. -/
theorem Pool.returned_virtualFree (pool : Pool ok p dirs free) {f : Nat}
    (idle : Idle p dirs f) (notFree : f ∉ free) :
    wp (virtualFree f 0x1000)
      (fun _ p' => p'.taken = p.taken ∧ Pool ok p' dirs (f :: free))
      (fun _ _ => True) p := by
  have aligned := idle.isFrame.aligned
  obtain ⟨low, high, -⟩ := idle.isFrame
  change wp (do
    freePages f 1
    modify fun p =>
      { p with blocks := p.blocks.filter fun block => block.base ≠ f })
    _ _ _
  rw [wp_bind]
  apply pool.wp_freeTurn low high aligned
  unfold freePages
  rw [wp_pure, wp_modify]
  exact ⟨rfl, (pool.givenBack idle notFree).congr rfl rfl
    ⟨fun _ _ => rfl, fun _ _ _ _ => rfl, fun _ _ => rfl⟩⟩

/-! ## New directories -/

theorem SameWords.idle {bytes' : Bytes} {f : Nat} (idle : Idle p dirs f)
    (same : SameWords dirs free p.bytes bytes') :
    Idle { p with bytes := bytes' } dirs f where
  isFrame := idle.isFrame
  notDirectory := idle.notDirectory
  notTable d member i less := by
    change frameBits (load32 bytes' (d + 4 * i)) ≠ f
    rw [same.entry d member i less]
    exact idle.notTable d member i less

/-- `fill_new_pgdir`. -/
theorem Pool.filled_pgdir (pool : Pool ok p dirs free) {f source : Nat}
    (idle : Idle p dirs f) (notFree : f ∉ free) (member : source ∈ dirs) :
    wp (fillNewPgdir f source)
      (fun _ p' => p'.taken = p.taken ∧ Pool ok p' (f :: dirs) free)
      (fun _ _ => True) p := by
  have bounds := idle.isFrame.lt
  unfold fillNewPgdir
  simp only [wp_bind, wp_get]
  apply wp_storeArray (by omega) (by omega) (by decide)
  generalize isFilled : storeWords p.bytes f 1024 _ = filled
  have same : SameWords dirs free p.bytes filled := by
    refine pool.sameWords idle.isFrame notFree idle.notDirectory ?_
    intro x outside
    rw [← isFilled]
    exact storeWords_outside (by omega)
  have word (i : Nat) (less : i < 1024) : load32 filled (f + 4 * i) =
      (if i < 64 then load32 p.bytes (source + 4 * i) else 0) %
        0x100000000 := by
    rw [← isFilled]
    exact load32_storeWords less
  have written : Pool ok { p with bytes := filled } dirs free :=
    pool.congr rfl rfl same
  refine ⟨rfl, written.addDirectory (same.idle idle) notFree ?_ ?_⟩
  · intro i less
    change frameBits (load32 filled _) = _
    rw [word i (by omega), if_pos less, Nat.mod_eq_of_lt (load32_lt _ _)]
    exact pool.shared source member i less
  · intro i less high
    change load32 filled _ = _
    rw [word i less, if_neg (by omega)]

end Nebulea
