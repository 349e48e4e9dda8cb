import Nebulea.FramePoolRuns
import Mathlib.Data.Finset.Card

/-!
# What `pgdir_copy` changes

The two page directories, their page tables, the links of the free list and the
new page tables all lie in one physical memory.  What the processor finds for
every address in every directory is followed through a turn of the loop: first
the page table is opened, then one of its entries is written.
-/

namespace Nebulea

open ByteMemory ExceptState

/-- The bit that lets a page be written. -/
def isWritable (entry : Nat) : Bool :=
  entry.testBit 1

/-- The entry of the directory `d` for the address `a`. -/
def Paging.directoryEntry (p : Paging) (d a : Nat) : Nat :=
  load32 p.bytes (d + 4 * pdIndex a)

/-- The entry of the page table for the address `a`. -/
def Paging.tableEntry (p : Paging) (d a : Nat) : Nat :=
  load32 p.bytes (frameBits (p.directoryEntry d a) + 4 * ptIndex a)

/-- The translation of the address `a` in the directory `d`. -/
def Paging.mapsTo (p : Paging) (d a : Nat) : Option Nat :=
  if isPresent (p.directoryEntry d a) ∧ isPresent (p.tableEntry d a) then
    some (frameBits (p.tableEntry d a))
  else none

/-- User code may read and write at the address `a`. -/
def Paging.UserReadWrite (p : Paging) (d a : Nat) : Prop :=
  (isPresent (p.directoryEntry d a) ∧ isUser (p.directoryEntry d a) ∧
    isWritable (p.directoryEntry d a)) ∧
  isPresent (p.tableEntry d a) ∧ isUser (p.tableEntry d a) ∧
    isWritable (p.tableEntry d a)

/-- The entry of the page table, null where there is no page table. -/
def Paging.page (p : Paging) (d a : Nat) : Nat :=
  if frameBits (p.directoryEntry d a) = 0 then 0 else p.tableEntry d a

/-- The flags of the entries that are present. -/
def PresentFlags (flags : Nat) : Prop :=
  isPresent flags = true

instance (flags : Nat) : Decidable (PresentFlags flags) :=
  inferInstanceAs (Decidable (_ = true))

variable {ok : Nat → Prop} {p p' : Paging} {dirs free rest : List Nat}
variable {d dest a b t : Nat}

/-! ## The page tables -/

theorem Paging.page_congr
    (entry : frameBits (p'.directoryEntry d a) = frameBits (p.directoryEntry d a))
    (word : frameBits (p.directoryEntry d a) ≠ 0 →
      load32 p'.bytes (frameBits (p.directoryEntry d a) + 4 * ptIndex a) =
        load32 p.bytes (frameBits (p.directoryEntry d a) + 4 * ptIndex a)) :
    p'.page d a = p.page d a := by
  unfold Paging.page Paging.tableEntry
  rw [entry]
  split
  · rfl
  · next present => exact word present

/-- A store in a directory is not one in a page table. -/
theorem EntryPlace.load_directory {entry i word : Nat} {bytes : Bytes}
    (place : EntryPlace dirs free a entry) (pool : Pool ok p dirs free)
    (member : d ∈ dirs) (less : i < 1024) :
    load32 (store32 bytes (d + 4 * i) word) entry = load32 bytes entry := by
  rcases place with ⟨low, rfl⟩ | ⟨-, t, isFrame, -, other, rfl⟩
  · have bounds := pool.directory_bounds member
    unfold memoryEnd at low
    apply load32_store32_apart
    rw [sharedEntry_eq]
    unfold pgtab
    omega
  · have inTable := ptIndex_lt a
    have far := pool.directory_far member isFrame other
    exact load32_store32_apart (by omega)

/-- A frame that is free is no page table. -/
theorem EntryPlace.load_cleared {entry f : Nat} {bytes : Bytes}
    (place : EntryPlace dirs free a entry) (isFrame : IsFrame f)
    (member : f ∈ free) :
    load32 (storeWords bytes f 1024 fun _ => 0) entry = load32 bytes entry := by
  have bounds := isFrame.lt
  rcases place with ⟨low, rfl⟩ | ⟨-, t, isFrame', notFree, -, rfl⟩
  · unfold memoryEnd at low
    apply load32_cleared
    rw [sharedEntry_eq]
    unfold pgtab
    omega
  · have inTable := ptIndex_lt a
    have distinct : f ≠ t := by
      rintro rfl
      exact notFree member
    have far := isFrame.eq_or_far isFrame'
    exact load32_cleared (by omega)

theorem Pool.page_place (pool : Pool ok p dirs free) (member : d ∈ dirs)
    (less : a < 0x100000000) (present : frameBits (p.directoryEntry d a) ≠ 0) :
    EntryPlace dirs free a
      (frameBits (p.directoryEntry d a) + 4 * ptIndex a) :=
  pool.entryPlace member less present

/-! ## Opening a page table -/

/-- The directory `dest` has a page table for the address `a`, with the flags
for user code, and the processor finds the same entries as before. -/
structure TableOpened (p p' : Paging) (dirs : List Nat) (dest a : Nat) :
    Prop where
  entries : ∀ d ∈ dirs, ∀ i < 1024, ¬ (d = dest ∧ i = pdIndex a) →
    load32 p'.bytes (d + 4 * i) = load32 p.bytes (d + 4 * i)
  present : frameBits (p'.directoryEntry dest a) ≠ 0
  flags : p'.directoryEntry dest a % 0x1000 = pageTableUserRw
  pages : ∀ d ∈ dirs, ∀ b < 0x100000000, p'.page d b = p.page d b

/-- The entry of the directory after `set_table_permission`. -/
theorem Paging.permitted_entry (p : Paging) (dest a : Nat) :
    (p.permitted dest (pdIndex a) pageTableUserRw).directoryEntry dest a =
      frameBits (p.directoryEntry dest a) ||| pageTableUserRw := by
  change load32 (store32 _ _ _) _ = _
  rw [load32_store32]
  exact Nat.mod_eq_of_lt (entry_lt (load32_lt _ _) (by decide))

theorem Paging.permitted_target (p : Paging) (dest a : Nat) :
    frameBits ((p.permitted dest (pdIndex a) pageTableUserRw).directoryEntry
      dest a) = frameBits (p.directoryEntry dest a) := by
  have small := load32_lt p.bytes (dest + 4 * pdIndex a)
  rw [p.permitted_entry]
  exact frameBits_or_flags (frameBits_aligned small) (frameBits_lt small)
    (by decide)

theorem Pool.permitted_opened (pool : Pool ok p dirs free) (member : dest ∈ dirs)
    (less : a < 0x100000000)
    (present : frameBits (p.directoryEntry dest a) ≠ 0) :
    TableOpened p (p.permitted dest (pdIndex a) pageTableUserRw) dirs dest a := by
  have few : pageTableUserRw < 0x1000 := by decide
  have index := pdIndex_eq a
  have small := load32_lt p.bytes (dest + 4 * pdIndex a)
  have fits : frameBits (p.directoryEntry dest a) ||| pageTableUserRw <
      0x100000000 := entry_lt small few
  have entry {d i : Nat} (member' : d ∈ dirs) (less' : i < 1024) :
      load32 (p.permitted dest (pdIndex a) pageTableUserRw).bytes (d + 4 * i) =
        if d = dest ∧ i = pdIndex a then
          frameBits (p.directoryEntry dest a) ||| pageTableUserRw
        else load32 p.bytes (d + 4 * i) :=
    pool.load_directory member (by omega) member' less' fits
  constructor
  · intro d member' i less' other
    rw [entry member' less', if_neg other]
  · rw [p.permitted_target]
    exact present
  · rw [p.permitted_entry]
    exact entry_mod small few
  · intro d member' b less'
    have index' := pdIndex_eq b
    apply Paging.page_congr
    · by_cases here : d = dest ∧ pdIndex b = pdIndex a
      · have target := p.permitted_target dest a
        unfold Paging.directoryEntry at target ⊢
        rw [here.1, here.2, target]
      · unfold Paging.directoryEntry
        rw [entry member' (by omega), if_neg here]
    · intro present'
      have place := pool.page_place member' less' present'
      exact place.load_directory pool member (by omega)

theorem Pool.withTable_opened {f : Nat} (pool : Pool ok p dirs (f :: rest))
    (member : dest ∈ dirs) (less : a < 0x100000000) (high : 64 ≤ pdIndex a)
    (absent : frameBits (p.directoryEntry dest a) = 0) :
    TableOpened p (p.withTable dest (pdIndex a) pageTableUserRw f) dirs
      dest a := by
  have few : pageTableUserRw < 0x1000 := by decide
  have index := pdIndex_eq a
  have isFrame := pool.isFrame f List.mem_cons_self
  have bounds := isFrame.lt
  obtain ⟨target, fits⟩ := frameBits_entry isFrame few
  have entry {d i : Nat} (member' : d ∈ dirs) (less' : i < 1024) :
      load32 (p.withTable dest (pdIndex a) pageTableUserRw f).bytes (d + 4 * i) =
        if d = dest ∧ i = pdIndex a then frameBits f ||| pageTableUserRw
        else load32 p.bytes (d + 4 * i) := by
    have stored := pool.cleared.load_directory member
      (show pdIndex a < 1024 by omega) member' less' fits
    have kept := pool.sameWords_cleared.entry d member' i less'
    rw [← kept]
    exact stored
  have own : (p.withTable dest (pdIndex a) pageTableUserRw f).directoryEntry
      dest a = frameBits f ||| pageTableUserRw := by
    unfold Paging.directoryEntry
    rw [entry member (by omega), if_pos ⟨rfl, rfl⟩]
  constructor
  · intro d member' i less' other
    rw [entry member' less', if_neg other]
  · rw [own, target]
    omega
  · rw [own]
    exact entry_mod (by omega) few
  · intro d member' b less'
    have index' := pdIndex_eq b
    by_cases here : d = dest ∧ pdIndex b = pdIndex a
    · -- the new page table is empty
      obtain ⟨rfl, same⟩ := here
      have before : p.page d b = 0 := by
        unfold Paging.page
        rw [if_pos]
        unfold Paging.directoryEntry at absent ⊢
        rw [same, absent]
      have found : (p.withTable d (pdIndex a) pageTableUserRw f).directoryEntry
          d b = frameBits f ||| pageTableUserRw := by
        rw [← own]
        unfold Paging.directoryEntry
        rw [same]
      have inTable := ptIndex_lt b
      have far := pool.directory_far member isFrame
        (pool.free_notMem List.mem_cons_self)
      rw [before]
      unfold Paging.page Paging.tableEntry
      rw [found, target, if_neg (by omega)]
      change load32 (store32 _ _ _) _ = 0
      rw [load32_store32_apart (by omega), load32_storeWords inTable]
    · apply Paging.page_congr
      · unfold Paging.directoryEntry
        rw [entry member' (by omega), if_neg here]
      · intro present'
        have place := pool.page_place member' less' present'
        change load32 (store32 _ _ _) _ = _
        rw [place.load_directory pool member (by omega),
          place.load_cleared isFrame List.mem_cons_self]

theorem TableOpened.trans {p'' : Paging} (first : TableOpened p p' dirs dest a)
    (second : TableOpened p' p'' dirs dest a) :
    TableOpened p p'' dirs dest a where
  entries d member i less other := by
    rw [second.entries d member i less other, first.entries d member i less other]
  present := second.present
  flags := second.flags
  pages d member b less := by
    rw [second.pages d member b less, first.pages d member b less]

/-- `get_ptable_entry_from_virtual_address` takes a frame when the page table is
missing, and opens it. -/
theorem Pool.wp_openTable {post : Nat → Paging → Prop}
    {fault : Fault → Paging → Prop} (pool : Pool ok p dirs free)
    (member : dest ∈ dirs) (less : a < 0x100000000) (high : 64 ≤ pdIndex a)
    (enough : frameBits (p.directoryEntry dest a) = 0 → free ≠ [])
    (holds : ∀ rest p', Pool ok p' dirs rest → TableOpened p p' dirs dest a →
      rest.length + (if frameBits (p.directoryEntry dest a) = 0 then 1 else 0) =
        free.length →
      post (frameBits (p'.directoryEntry dest a) + 4 * ptIndex a) p') :
    wp (getPtableEntry a dest true pageTableUserRw) post fault p := by
  have few : pageTableUserRw < 0x1000 := by decide
  have index := pdIndex_eq a
  by_cases absent : frameBits (p.directoryEntry dest a) = 0
  · apply pool.wp_makeEntry member (by omega) high few pool.userRw absent
    · rintro f rest rfl
      have bounds := (pool.isFrame f List.mem_cons_self).lt
      have made := pool.withTable member high (show pdIndex a < 1024 by omega)
        few pool.userRw
      have entry := pool.withTable_entry dest (pdIndex a) few
      have opened := pool.withTable_opened member less high absent
      have again := made.permitted_opened member less opened.present
      have final := made.permitted member (show pdIndex a < 1024 by omega)
        (by omega) few pool.userRw
      rw [if_neg (by decide)]
      have done := holds rest _ final (opened.trans again) (by
        rw [if_pos absent]
        rfl)
      rw [Paging.permitted_target] at done
      unfold Paging.directoryEntry at done
      rwa [entry] at done
    · intro isEmpty
      exact absurd isEmpty (enough absent)
  · apply pool.wp_openEntry member (by omega) absent
    rw [if_neg (by decide)]
    have opened := pool.permitted_opened member less absent
    have done := holds free _ (pool.permitted member (by omega) absent few
      pool.userRw) opened (by
        rw [if_neg absent]
        rfl)
    rwa [Paging.permitted_target] at done

/-! ## Writing an entry -/

/-- The entry of one page of the directory `dest` has become `word`. -/
structure PageWritten (p p' : Paging) (dirs : List Nat) (dest a word : Nat) :
    Prop where
  entries : ∀ d ∈ dirs, ∀ i < 1024,
    load32 p'.bytes (d + 4 * i) = load32 p.bytes (d + 4 * i)
  written : p'.tableEntry dest a = word
  pages : ∀ d ∈ dirs, ∀ b < 0x100000000,
    ¬ (d = dest ∧ b / 0x1000 = a / 0x1000) → p'.page d b = p.page d b

theorem Pool.page_written {word : Nat} (pool : Pool ok p dirs free)
    (member : dest ∈ dirs) (less : a < 0x100000000) (high : 64 ≤ pdIndex a)
    (present : frameBits (p.directoryEntry dest a) ≠ 0)
    (small : word < 0x100000000) :
    PageWritten p
      { p with
        bytes := store32 p.bytes
          (frameBits (p.directoryEntry dest a) + 4 * ptIndex a) word }
      dirs dest a word := by
  have index := pdIndex_eq a
  have inTable := ptIndex_lt a
  obtain ⟨isFrame, notFree, other, -⟩ :=
    pool.table member (show pdIndex a < 1024 by omega) high present
  obtain ⟨t, isTable⟩ : ∃ t, frameBits (p.directoryEntry dest a) = t := ⟨_, rfl⟩
  have isTable' : frameBits (load32 p.bytes (dest + 4 * pdIndex a)) = t := isTable
  rw [isTable'] at isFrame other
  rw [isTable]
  have bounds := isFrame.lt
  have entry {d i : Nat} (member' : d ∈ dirs) (less' : i < 1024) :
      load32 (store32 p.bytes (t + 4 * ptIndex a) word) (d + 4 * i) =
        load32 p.bytes (d + 4 * i) := by
    have far := pool.directory_far member' isFrame other
    exact load32_store32_apart (by omega)
  constructor
  · exact fun d member' i less' => entry member' less'
  · unfold Paging.tableEntry Paging.directoryEntry
    dsimp only
    rw [entry member (by omega), isTable', load32_store32,
      Nat.mod_eq_of_lt small]
  · intro d member' b less' otherPage
    have index' := pdIndex_eq b
    have inTable' := ptIndex_lt b
    apply Paging.page_congr
    · unfold Paging.directoryEntry
      dsimp only
      rw [entry member' (by omega)]
    · intro present'
      apply load32_store32_apart
      rcases pool.page_place member' less' present' with
        ⟨low, isShared⟩ | ⟨high', table, isFrame', -, -, isOwn⟩
      · unfold memoryEnd at low
        rw [isShared, sharedEntry_eq]
        unfold pgtab
        omega
      · have isOther : frameBits (p.directoryEntry d b) = table :=
          Nat.add_right_cancel isOwn
        rcases isFrame.eq_or_far isFrame' with same | far
        · -- the same page table, which has one place only
          unfold memoryEnd at high'
          have equal : frameBits (load32 p.bytes (d + 4 * pdIndex b)) =
              frameBits (load32 p.bytes (dest + 4 * pdIndex a)) :=
            isOther.trans (same.symm.trans isTable'.symm)
          obtain ⟨isDest, isIndex⟩ := pool.distinct dest member d member'
            (pdIndex a) (by omega) (pdIndex b) (by omega) high (by omega)
            present equal
          have pages := ptIndex_eq a
          have pages' := ptIndex_eq b
          omega
        · omega

/-! ## The loop -/

section Loop

variable {source sourceAddress destAddress count : Nat}

/-- What `count` turns of the loop of `pgdir_copy` change. -/
structure Copied (p p' : Paging) (dirs : List Nat)
    (source dest sourceAddress destAddress count : Nat) : Prop where
  entries : ∀ d ∈ dirs, ∀ i < 1024,
    load32 p'.bytes (d + 4 * i) = load32 p.bytes (d + 4 * i) ∨
      d = dest ∧ 64 ≤ i ∧ load32 p'.bytes (d + 4 * i) % 0x1000 = pageTableUserRw
  access : ∀ i < count,
    p'.directoryEntry dest (destAddress + 0x1000 * i) % 0x1000 = pageTableUserRw
  written : ∀ i < count, p'.page dest (destAddress + 0x1000 * i) =
    frameBits (p.tableEntry source (sourceAddress + 0x1000 * i)) |||
      pageTableUserRw
  pages : ∀ d ∈ dirs, ∀ b < 0x100000000,
    (d = dest → ∀ i < count,
      b / 0x1000 ≠ (destAddress + 0x1000 * i) / 0x1000) →
    p'.page d b = p.page d b

/-- The page tables that `pgdir_copy` has to make. -/
def missing (p : Paging) (dest destAddress count : Nat) : Finset Nat :=
  ((Finset.range count).image fun i => pdIndex (destAddress + 0x1000 * i)).filter
    fun i => frameBits (load32 p.bytes (dest + 4 * i)) = 0

/-- A page may need one page table. -/
theorem missing_le (p : Paging) (dest destAddress count : Nat) :
    (missing p dest destAddress count).card ≤ count := by
  have indices : ((Finset.range count).image fun i =>
      pdIndex (destAddress + 0x1000 * i)).card ≤ count := by
    have bound := Finset.card_image_le (s := Finset.range count)
      (f := fun i => pdIndex (destAddress + 0x1000 * i))
    rwa [Finset.card_range] at bound
  exact (Finset.card_filter_le _ _).trans indices

theorem Copied.nil : Copied p p dirs source dest sourceAddress destAddress 0 where
  entries _ _ _ _ := .inl rfl
  access i less := absurd less (Nat.not_lt_zero i)
  written i less := absurd less (Nat.not_lt_zero i)
  pages _ _ _ _ _ := rfl

theorem Paging.page_eq (present : frameBits (p.directoryEntry d a) ≠ 0) :
    p.page d a = p.tableEntry d a := by
  unfold Paging.page
  rw [if_neg present]

/-- A turn. -/
theorem TableOpened.copied {p'' : Paging} {word : Nat}
    (opened : TableOpened p p' dirs dest destAddress)
    (written : PageWritten p' p'' dirs dest destAddress
      (frameBits word ||| pageTableUserRw))
    (isWord : p.tableEntry source sourceAddress = word) (member : dest ∈ dirs)
    (high : 64 ≤ pdIndex destAddress) (less : pdIndex destAddress < 1024) :
    Copied p p'' dirs source dest sourceAddress destAddress 1 := by
  have entry : p''.directoryEntry dest destAddress =
      p'.directoryEntry dest destAddress :=
    written.entries dest member (pdIndex destAddress) less
  have first {i : Nat} (small : i < 1) : i = 0 := Nat.lt_one_iff.mp small
  constructor
  · intro d member' i less'
    rw [written.entries d member' i less']
    by_cases here : d = dest ∧ i = pdIndex destAddress
    · refine .inr ⟨here.1, ?_, ?_⟩
      · rw [here.2]
        exact high
      · rw [here.1, here.2]
        exact opened.flags
    · exact .inl (opened.entries d member' i less' here)
  · intro i small
    rw [first small, Nat.mul_zero, Nat.add_zero, entry]
    exact opened.flags
  · intro i small
    rw [first small, Nat.mul_zero, Nat.add_zero, Nat.add_zero, isWord,
      Paging.page_eq, written.written]
    rw [entry]
    exact opened.present
  · intro d member' b less' other
    rw [written.pages d member' b less', opened.pages d member' b less']
    rintro ⟨isDest, same⟩
    exact other isDest 0 Nat.one_pos same

/-- The entries of the other directories stay. -/
theorem Copied.source_entry
    (copied : Copied p p' dirs source dest sourceAddress destAddress count)
    (member : d ∈ dirs) (distinct : d ≠ dest) (less : a < 0x100000000) :
    p'.directoryEntry d a = p.directoryEntry d a := by
  have index := pdIndex_eq a
  refine (copied.entries d member (pdIndex a) (by omega)).resolve_right ?_
  exact fun isDest => distinct isDest.1

/-- One turn, and then the others. -/
theorem Copied.cons {p'' : Paging}
    (one : Copied p p' dirs source dest sourceAddress destAddress 1)
    (others : Copied p' p'' dirs source dest (sourceAddress + 0x1000)
      (destAddress + 0x1000) count)
    (member : source ∈ dirs) (member' : dest ∈ dirs) (distinct : source ≠ dest)
    (present : ∀ i < count + 1,
      frameBits (p.directoryEntry source (sourceAddress + 0x1000 * i)) ≠ 0)
    (inside : sourceAddress + 0x1000 * count < 0x100000000)
    (inside' : destAddress + 0x1000 * count < 0x100000000) :
    Copied p p'' dirs source dest sourceAddress destAddress (count + 1) := by
  have next (a i : Nat) : a + 0x1000 * (i + 1) = a + 0x1000 + 0x1000 * i := by
    omega
  constructor
  · intro d isDirectory i less
    rcases others.entries d isDirectory i less with kept | changed
    · rw [kept]
      exact one.entries d isDirectory i less
    · exact .inr changed
  · intro i less
    cases i with
    | zero =>
        have index := pdIndex_eq destAddress
        have flags := one.access 0 Nat.one_pos
        rw [Nat.mul_zero, Nat.add_zero] at flags ⊢
        rcases others.entries dest member' (pdIndex destAddress) (by omega) with
          kept | changed
        · unfold Paging.directoryEntry at flags ⊢
          rw [kept]
          exact flags
        · exact changed.2.2
    | succ i =>
        rw [next]
        exact others.access i (by omega)
  · intro i less
    cases i with
    | zero =>
        rw [Nat.mul_zero, Nat.add_zero, Nat.add_zero]
        rw [others.pages dest member' destAddress (by omega)]
        · exact one.written 0 Nat.one_pos
        · intro _ i _
          omega
    | succ i =>
        have bound : sourceAddress + 0x1000 + 0x1000 * i < 0x100000000 := by
          omega
        have found := present (i + 1) less
        rw [next] at found
        have found' := found
        rw [← one.source_entry member distinct bound] at found'
        rw [next, next, others.written i (by omega), ← Paging.page_eq found',
          one.pages source member _ bound fun isDest => absurd isDest distinct,
          Paging.page_eq found]
  · intro d isDirectory b less other
    rw [others.pages d isDirectory b less, one.pages d isDirectory b less]
    · intro isDest i small
      have isFirst := Nat.lt_one_iff.mp small
      rw [isFirst]
      exact other isDest 0 (Nat.succ_pos count)
    · intro isDest i less'
      rw [← next]
      exact other isDest (i + 1) (Nat.succ_lt_succ less')

/-- The page tables that are missing after a turn. -/
theorem TableOpened.missing {p'' : Paging} {word : Nat}
    (opened : TableOpened p p' dirs dest destAddress)
    (written : PageWritten p' p'' dirs dest destAddress word)
    (member : dest ∈ dirs)
    (inside : destAddress + 0x1000 * count < 0x100000000)
    (count' : rest.length +
      (if frameBits (p.directoryEntry dest destAddress) = 0 then 1 else 0) =
        free.length)
    (enough : (missing p dest destAddress (count + 1)).card ≤ free.length) :
    (Nebulea.missing p'' dest (destAddress + 0x1000) count).card ≤
      rest.length := by
  have subset : Nebulea.missing p'' dest (destAddress + 0x1000) count ⊆
      (Nebulea.missing p dest destAddress (count + 1)).erase
        (pdIndex destAddress) := by
    intro index isMissing
    unfold Nebulea.missing at isMissing ⊢
    simp only [Finset.mem_erase, Finset.mem_filter, Finset.mem_image,
      Finset.mem_range] at isMissing ⊢
    obtain ⟨⟨i, small, isIndex⟩, null⟩ := isMissing
    have split := pdIndex_eq (destAddress + 0x1000 + 0x1000 * i)
    rw [written.entries dest member index (by omega)] at null
    have other : index ≠ pdIndex destAddress := by
      rintro rfl
      exact opened.present null
    refine ⟨other, ⟨i + 1, by omega, ?_⟩, ?_⟩
    · rw [← isIndex]
      congr 1
      omega
    · rw [← opened.entries dest member index (by omega) fun here => other here.2]
      exact null
  have bound := Finset.card_le_card subset
  split at count'
  · next null =>
      have isMissing : pdIndex destAddress ∈
          Nebulea.missing p dest destAddress (count + 1) := by
        unfold Nebulea.missing
        simp only [Finset.mem_filter, Finset.mem_image, Finset.mem_range]
        exact ⟨⟨0, Nat.succ_pos count, rfl⟩, null⟩
      rw [Finset.card_erase_of_mem isMissing] at bound
      omega
  · have erased := Finset.card_erase_le
      (s := Nebulea.missing p dest destAddress (count + 1))
      (a := pdIndex destAddress)
    omega

/-- The loop of `pgdir_copy`, when the source pages have page tables and there
are frames for those that are missing. -/
theorem Pool.wp_copyPages (pool : Pool ok p dirs free) (member : source ∈ dirs)
    (member' : dest ∈ dirs) (distinct : source ≠ dest)
    (high : memoryEnd ≤ destAddress)
    (inside : sourceAddress + 0x1000 * count ≤ 0x100000FFF)
    (inside' : destAddress + 0x1000 * count ≤ 0x100000FFF)
    (present : ∀ i < count,
      frameBits (p.directoryEntry source (sourceAddress + 0x1000 * i)) ≠ 0)
    (enough : (missing p dest destAddress count).card ≤ free.length) :
    wp (copyPages source dest sourceAddress destAddress count)
      (fun _ p' => Copied p p' dirs source dest sourceAddress destAddress count ∧
        ∃ rest, Pool ok p' dirs rest)
      (fun _ _ => False) p := by
  induction count generalizing p free sourceAddress destAddress with
  | zero => exact ⟨.nil, free, pool⟩
  | succ count ih =>
      have few : pageTableUserRw < 0x1000 := by decide
      have index := pdIndex_eq sourceAddress
      have index' := pdIndex_eq destAddress
      have first := present 0 (Nat.succ_pos count)
      rw [Nat.mul_zero, Nat.add_zero] at first
      have notShared : 64 ≤ pdIndex destAddress := by
        unfold memoryEnd at high
        omega
      unfold copyPages
      rw [wp_bind]
      apply pool.wp_findEntry member (by omega) first
      rw [wp_bind]
      apply pool.wp_openTable member' (by omega) notShared
      · rintro null rfl
        have isMissing : pdIndex destAddress ∈
            missing p dest destAddress (count + 1) := by
          unfold missing
          simp only [Finset.mem_filter, Finset.mem_image, Finset.mem_range]
          exact ⟨⟨0, Nat.succ_pos count, rfl⟩, null⟩
        have some := Finset.card_pos.mpr ⟨_, isMissing⟩
        rw [List.length_nil] at enough
        omega
      intro rest p' pool' opened counted
      have kept : p'.directoryEntry source sourceAddress =
          p.directoryEntry source sourceAddress :=
        opened.entries source member (pdIndex sourceAddress) (by omega)
          fun here => distinct here.1
      have first' := first
      rw [← kept] at first'
      have isWord : p'.tableEntry source sourceAddress =
          p.tableEntry source sourceAddress := by
        rw [← Paging.page_eq first', ← Paging.page_eq first]
        exact opened.pages source member sourceAddress (by omega)
      have place := pool'.page_place member
        (show sourceAddress < 0x100000000 by omega) first'
      rw [wp_bind]
      change wp (load (frameBits (p.directoryEntry source sourceAddress) +
        4 * ptIndex sourceAddress)) _ _ _
      rw [← kept]
      apply wp_load place.mapped
      change wp (do
        store _ (frameBits (p'.tableEntry source sourceAddress) |||
          pageTableUserRw)
        _) _ _ _
      rw [isWord]
      have small : frameBits (p.tableEntry source sourceAddress) |||
          pageTableUserRw < 0x100000000 := entry_lt (load32_lt _ _) few
      have place' := pool'.page_place member'
        (show destAddress < 0x100000000 by omega) opened.present
      have written := pool'.page_written member'
        (show destAddress < 0x100000000 by omega) notShared opened.present small
      have stored := place'.store pool' small fun _ low => by omega
      have one := opened.copied written rfl member' notShared (by omega)
      rw [wp_bind]
      apply wp_store place'.mapped
      have next (address i : Nat) :
          address + 0x1000 + 0x1000 * i = address + 0x1000 * (i + 1) := by
        omega
      refine wp_mono (ih stored (by omega) (by omega) (by omega) ?_ ?_) ?_
        fun _ _ faulted => faulted
      · intro i less
        rw [one.source_entry member distinct (by omega), next]
        exact present (i + 1) (by omega)
      · exact opened.missing written member' (by omega) counted enough
      · rintro _ p'' ⟨others, pool''⟩
        exact ⟨one.cons others member member' distinct present (by omega)
          (by omega), pool''⟩

/-- `pgdir_copy`. -/
theorem Pool.pgdirCopy_ok {size : Nat} (pool : Pool ok p dirs free)
    (member : source ∈ dirs) (member' : dest ∈ dirs) (distinct : source ≠ dest)
    (high : memoryEnd ≤ destAddress)
    (inside : sourceAddress + size ≤ 0x100000000)
    (inside' : destAddress + size ≤ 0x100000000)
    (present : ∀ i < pageCount size,
      frameBits (p.directoryEntry source (sourceAddress + 0x1000 * i)) ≠ 0)
    (enough : (missing p dest destAddress (pageCount size)).card ≤
      free.length) :
    ∃ p', pgdirCopy source dest sourceAddress destAddress size p = .ok () p' ∧
      Copied p p' dirs source dest sourceAddress destAddress (pageCount size) ∧
      ∃ rest, Pool ok p' dirs rest := by
  have done := pool.wp_copyPages member member' distinct high
    (by unfold pageCount; omega) (by unfold pageCount; omega) present enough
  unfold wp at done
  split at done
  · next value p' isOk => exact ⟨p', isOk, done⟩
  · cases done

/-! ## Translations -/

theorem testBit_flags (word : Nat) {i : Nat} (less : i < 12) :
    (word % 0x1000).testBit i = word.testBit i := by
  have bits := Nat.testBit_mod_two_pow word 12 i
  rw [decide_eq_true less, Bool.true_and] at bits
  exact bits

theorem isPresent_mod (word : Nat) : isPresent (word % 0x1000) = isPresent word :=
  testBit_flags word (by decide)

theorem userReadWrite_of_flags {word : Nat}
    (flags : word % 0x1000 = pageTableUserRw) :
    isPresent word ∧ isUser word ∧ isWritable word := by
  unfold isPresent isUser isWritable
  rw [← testBit_flags word (show 0 < 12 by decide),
    ← testBit_flags word (show 2 < 12 by decide),
    ← testBit_flags word (show 1 < 12 by decide), flags]
  decide

/-- Beyond the shared page tables, the entry of the page table is all that
counts. -/
theorem Pool.mapsTo_own (pool : Pool PresentFlags p dirs free)
    (member : d ∈ dirs) (less : a < 0x100000000) (high : 64 ≤ pdIndex a) :
    p.mapsTo d a =
      if isPresent (p.page d a) then some (frameBits (p.page d a)) else none := by
  have index := pdIndex_eq a
  unfold Paging.mapsTo
  by_cases absent : frameBits (p.directoryEntry d a) = 0
  · have isNull : p.directoryEntry d a = 0 := by
      refine (pool.own d member (pdIndex a) (by omega) high).resolve_right ?_
      rintro ⟨isFrame, -⟩
      have bounds := isFrame.lt
      unfold Paging.directoryEntry at absent
      omega
    have isEmpty : p.page d a = 0 := by
      unfold Paging.page
      rw [if_pos absent]
    rw [isNull, isEmpty, if_neg (by simp [isPresent]), if_neg (by decide)]
  · have flags := (pool.table member (show pdIndex a < 1024 by omega) high
      absent).2.2.2
    unfold PresentFlags at flags
    rw [isPresent_mod] at flags
    change isPresent (p.directoryEntry d a) = true at flags
    rw [Paging.page_eq absent, flags]
    simp

/-- An address that finds the same entry of its page table is translated as
before. -/
theorem Copied.mapsTo
    (copied : Copied p p' dirs source dest sourceAddress destAddress count)
    (pool : Pool PresentFlags p dirs free) (pool' : Pool PresentFlags p' dirs rest)
    (member : d ∈ dirs) (less : a < 0x100000000)
    (other : d = dest → ∀ i < count,
      a / 0x1000 ≠ (destAddress + 0x1000 * i) / 0x1000) :
    p'.mapsTo d a = p.mapsTo d a := by
  have index := pdIndex_eq a
  have same := copied.pages d member a less other
  by_cases high : 64 ≤ pdIndex a
  · rw [pool'.mapsTo_own member less high, pool.mapsTo_own member less high, same]
  · -- the page tables of the kernel
    have low : a < memoryEnd := by
      unfold memoryEnd
      omega
    have entry : p'.directoryEntry d a = p.directoryEntry d a := by
      refine (copied.entries d member (pdIndex a) (by omega)).resolve_right ?_
      exact fun changed => high changed.2.1
    have present : frameBits (p.directoryEntry d a) ≠ 0 :=
      pool.shared_present member low
    have present' : frameBits (p'.directoryEntry d a) ≠ 0 :=
      pool'.shared_present member low
    rw [Paging.page_eq present, Paging.page_eq present'] at same
    unfold Paging.mapsTo
    rw [entry, same]

/-- A page that was copied. -/
theorem Copied.tableEntry {i : Nat}
    (copied : Copied p p' dirs source dest sourceAddress destAddress count)
    (less : i < count) :
    p'.tableEntry dest (destAddress + 0x1000 * i) =
      frameBits (p.tableEntry source (sourceAddress + 0x1000 * i)) |||
        pageTableUserRw := by
  have written := copied.written i less
  have flags := entry_mod (load32_lt p.bytes
    (frameBits (p.directoryEntry source (sourceAddress + 0x1000 * i)) +
      4 * ptIndex (sourceAddress + 0x1000 * i)))
    (show pageTableUserRw < 0x1000 by decide)
  have isWord : frameBits (p.tableEntry source (sourceAddress + 0x1000 * i)) |||
      pageTableUserRw ≠ 0 := by
    intro null
    unfold Paging.tableEntry at null
    rw [null] at flags
    cases flags
  rw [← written]
  refine (Paging.page_eq ?_).symm
  intro absent
  rw [← written] at isWord
  unfold Paging.page at isWord
  rw [if_pos absent] at isWord
  exact isWord rfl

theorem Copied.copied {i : Nat}
    (copied : Copied p p' dirs source dest sourceAddress destAddress count)
    (less : i < count) :
    p'.mapsTo dest (destAddress + 0x1000 * i) =
        some (frameBits
          (p.tableEntry source (sourceAddress + 0x1000 * i))) ∧
      p'.UserReadWrite dest (destAddress + 0x1000 * i) := by
  have small : p.tableEntry source (sourceAddress + 0x1000 * i) < 0x100000000 :=
    load32_lt _ _
  have few : pageTableUserRw < 0x1000 := by decide
  have entry := copied.tableEntry less
  have upper := userReadWrite_of_flags (copied.access i less)
  have lower := userReadWrite_of_flags (entry_mod small few)
  rw [← entry] at lower
  refine ⟨?_, upper, lower⟩
  unfold Paging.mapsTo
  rw [if_pos ⟨upper.1, lower.1⟩, entry,
    frameBits_or_flags (frameBits_aligned small) (frameBits_lt small) few]

theorem lt_pageCount {i size : Nat} : i < pageCount size ↔ 0x1000 * i < size := by
  unfold pageCount
  omega

/-- `pgdir_copy` maps the pages of the destination to the frames of the source
for user code, and changes no other translation of either directory. -/
theorem pgdirCopy_translations {size : Nat}
    (pool : Pool PresentFlags p dirs free) (member : source ∈ dirs)
    (member' : dest ∈ dirs) (distinct : source ≠ dest)
    (inside : sourceAddress + size ≤ 0x100000000)
    (inside' : destAddress + size ≤ 0x100000000)
    (unshared : ∀ i, 0x1000 * i < size → ∀ j < 1024,
      frameBits (p.directoryEntry dest (destAddress + 0x1000 * i)) ≠ 0 →
      frameBits (load32 p.bytes (source + 4 * j)) ≠
        frameBits (p.directoryEntry dest (destAddress + 0x1000 * i)))
    (present : ∀ i, 0x1000 * i < size →
      frameBits (p.directoryEntry source (sourceAddress + 0x1000 * i)) ≠ 0)
    (enough : (missing p dest destAddress (pageCount size)).card ≤
      free.length) :
    ∃ p', pgdirCopy source dest sourceAddress destAddress size p = .ok () p' ∧
      (∀ i, 0x1000 * i < size →
        p'.mapsTo dest (destAddress + 0x1000 * i) =
            some (frameBits
              (p.tableEntry source (sourceAddress + 0x1000 * i))) ∧
          p'.UserReadWrite dest (destAddress + 0x1000 * i)) ∧
      (∀ a < 0x100000000,
        (∀ i, 0x1000 * i < size →
          a / 0x1000 ≠ (destAddress + 0x1000 * i) / 0x1000) →
        p'.mapsTo dest a = p.mapsTo dest a) ∧
      ∀ a < 0x100000000, p'.mapsTo source a = p.mapsTo source a := by
  obtain ⟨p', isOk, copied, rest, pool'⟩ : ∃ p',
      pgdirCopy source dest sourceAddress destAddress size p = .ok () p' ∧
      Copied p p' dirs source dest sourceAddress destAddress (pageCount size) ∧
      ∃ rest, Pool PresentFlags p' dirs rest := by
    by_cases positive : 0 < size
    · -- the page tables that all directories share are out of the range
      have high : memoryEnd ≤ destAddress := by
        by_contra low
        have lower := Nat.lt_of_not_le low
        have index := pdIndex_eq destAddress
        have apart := unshared 0 positive (pdIndex destAddress)
        rw [Nat.mul_zero, Nat.add_zero] at apart
        unfold memoryEnd at lower
        refine apart (by omega) (pool.shared_present member' lower) ?_
        unfold Paging.directoryEntry
        rw [pool.shared source member _ (by omega),
          pool.shared dest member' _ (by omega)]
      exact pool.pgdirCopy_ok member member' distinct high inside inside'
        (fun i less => present i (lt_pageCount.mp less)) enough
    · have isZero : size = 0 := Nat.eq_zero_of_not_pos positive
      subst isZero
      exact ⟨p, rfl, .nil, free, pool⟩
  refine ⟨p', isOk, ?_, ?_, ?_⟩
  · exact fun i less => copied.copied (lt_pageCount.mpr less)
  · intro a less other
    exact copied.mapsTo pool pool' member' less fun _ i small =>
      other i (lt_pageCount.mp small)
  · intro a less
    exact copied.mapsTo pool pool' member less fun isDest =>
      absurd isDest distinct

/-- Beyond the first 256 MB no two directories share a page table. -/
theorem Pool.unshared (pool : Pool ok p dirs free) (member : d ∈ dirs)
    (member' : dest ∈ dirs) (distinct : d ≠ dest) (high : memoryEnd ≤ a)
    (less : a < 0x100000000) {j : Nat} (inside : j < 1024)
    (present : frameBits (p.directoryEntry dest a) ≠ 0) :
    frameBits (load32 p.bytes (d + 4 * j)) ≠
      frameBits (p.directoryEntry dest a) := by
  intro same
  have index := pdIndex_eq a
  unfold memoryEnd at high
  by_cases low : j < 64
  · have bounds := (pool.table member' (show pdIndex a < 1024 by omega)
      (by omega) present).1.lt
    rw [pool.shared d member j low] at same
    unfold Paging.directoryEntry at same
    rw [← same] at bounds
    unfold pgtab at bounds
    omega
  · exact distinct (pool.distinct dest member' d member (pdIndex a) (by omega) j
      inside (by omega) (by omega) present same).1

/-- A new directory gets the first frame at 1 GB. -/
theorem pgdirCopy_translations_of_one :
    ∃ p p' : Paging,
      pgdirCopy pgdir memoryStart memoryStart 0x40000000 0x1000 p = .ok () p' ∧
        p'.UserReadWrite memoryStart 0x40000000 := by
  obtain ⟨p, free, pool, whole⟩ : ∃ p free,
      Pool PresentFlags p [memoryStart, pgdir] free ∧
        (free ++ [memoryStart]).Perm allFrames := by
    have userRw : PresentFlags pageTableUserRw := by decide
    have start : FrameRun PresentFlags (fun _ => false) (fun _ => 0) _ _ _ :=
      .boot
    have one := start.call .allocate trivial rfl
      (show _ = [memoryStart] ++ _ from rfl) (by decide)
    have isFree : memoryStart ∈ allFrames :=
      (mem_allFrames memoryStart).mpr (by decide)
    have idle := (pool_booting userRw (fun _ => false) fun _ => 0).idle isFree
    have two := one.call (.fillNewPgdir memoryStart pgdir)
      ⟨List.mem_cons_self, ⟨idle.isFrame, idle.notDirectory, idle.notTable⟩,
        List.mem_cons_self⟩
      rfl (show _ = [] ++ _ from rfl) (by decide)
    obtain ⟨free, pool, whole⟩ := two.divided userRw
    exact ⟨_, free, pool, whole⟩
  have frames := whole.length_eq
  rw [length_allFrames, List.length_append] at frames
  have count : free.length + 1 = 12288 := frames
  have isSource : pgdir ∈ [memoryStart, pgdir] :=
    List.mem_cons_of_mem _ List.mem_cons_self
  have isDest : memoryStart ∈ [memoryStart, pgdir] := List.mem_cons_self
  have few := missing_le p memoryStart 0x40000000 (pageCount 0x1000)
  have pages : pageCount 0x1000 = 1 := by decide
  obtain ⟨p', isOk, copied, -⟩ := pgdirCopy_translations pool isSource isDest
    (by decide) (show memoryStart + 0x1000 ≤ 0x100000000 by decide)
    (show 0x40000000 + 0x1000 ≤ 0x100000000 by decide)
    (fun i less j inside => pool.unshared isSource isDest (by decide)
      (by unfold memoryEnd; omega) (by omega) inside)
    (fun i less => pool.shared_present isSource (by
      unfold memoryStart memoryEnd
      omega))
    (by omega)
  exact ⟨p, p', isOk, (copied 0 (by decide)).2⟩

end Loop

end Nebulea
