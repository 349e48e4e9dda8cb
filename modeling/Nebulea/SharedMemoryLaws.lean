import Nebulea.SharedMemory
import Nebulea.HashTableLaws
import Nebulea.PagingBoot

/-!
# The registry of shared pages is a finite map

A string is registered with a page when the table holds the pair.  Registered
pages are blocks of memory of their own, so that two strings never share one
and the table stays small.
-/

namespace Nebulea

open ByteMemory ExceptState

theorem signExtend_lt (c : UInt8) : signExtend c < 0x100000000 := by
  unfold signExtend
  have small := c.toNat_lt
  split <;> omega

theorem hashTurn_lt (hash : Nat) (c : UInt8) :
    hashTurn hash c < 0x100000000 :=
  Nat.xor_lt_two_pow (n := 32) (Nat.mod_lt _ (by decide)) (signExtend_lt c)

theorem hashStringHfunc_lt (key : KeyPtr) :
    hashStringHfunc key < 0x100000000 := by
  unfold hashStringHfunc
  generalize isStart : 5381 = start
  have small : start < 0x100000000 := by
    rw [← isStart]
    decide
  clear isStart
  induction key.string.bytes generalizing start with
  | nil => exact small
  | cons c rest ih => exact ih _ (hashTurn_lt start c)

namespace Registry

/-- The table of the registry compares strings. -/
structure ByContent (shared : Registry) : Prop where
  hfunc : shared.table.hfunc = hashStringHfunc
  cmp : shared.table.cmp = hashStringCmp

/-- The registry gives this page for this string. -/
def Registered (shared : Registry) (string : CString) (page : Nat) : Prop :=
  ∃ key : KeyPtr, key.string = string ∧ shared.table.Holds key page

variable {shared : Registry}

theorem cmp_iff (key key' : KeyPtr) :
    hashStringCmp key key' = true ↔ key.string = key'.string := by
  unfold hashStringCmp
  rw [decide_eq_true_iff]
  constructor
  · intro same
    cases isFirst : key.string
    cases isSecond : key'.string
    rw [isFirst, isSecond] at same
    cases same
    rfl
  · exact fun same => congrArg CString.bytes same

/-- The buffer in which a string is passed does not matter. -/
theorem ByContent.holds_iff (byContent : shared.ByContent) (key : KeyPtr)
    (page : Nat) :
    shared.table.Holds key page ↔ shared.Registered key.string page := by
  constructor
  · exact fun holds => ⟨key, rfl, holds⟩
  · rintro ⟨other, same, slot, inside, key', hash, content, matching⟩
    refine ⟨slot, inside, key', hash, content, ?_⟩
    rw [byContent.cmp, cmp_iff] at matching ⊢
    exact matching.trans same

theorem lawful_of_byContent (byContent : shared.ByContent) :
    shared.table.Lawful where
  refl := by
    intro key
    rw [byContent.cmp, cmp_iff]
  symm := by
    intro key key' same
    rw [byContent.cmp, cmp_iff] at same ⊢
    exact same.symm
  trans := by
    intro key key' key'' first second
    rw [byContent.cmp, cmp_iff] at first second ⊢
    exact first.trans second
  hash := by
    intro key key' same
    rw [byContent.cmp, cmp_iff] at same
    rw [byContent.hfunc]
    unfold hashStringHfunc
    rw [same]
  small := by
    intro key
    rw [byContent.hfunc]
    exact hashStringHfunc_lt key

/-- The registry and the blocks of memory agree. -/
structure Kept (shared : Registry) (blocks : List Block) : Prop where
  byContent : shared.ByContent
  settled : shared.table.Settled
  page : ∀ string page, shared.Registered string page →
    ⟨page, 0x1000⟩ ∈ blocks ∧ IsFrame page ∧ page ≠ memoryStart
  distinct : ∀ string string' page, shared.Registered string page →
    shared.Registered string' page → string = string'

variable {blocks : List Block}

/-- The page of an active slot. -/
def pageOf : Slot KeyPtr Nat → Nat
  | .active _ page _ => page
  | _ => 0

/-- The pages of active slots are distinct frames. -/
theorem Kept.count_le (kept : shared.Kept blocks) :
    shared.table.count ≤ 12288 := by
  have ok := kept.settled.ok
  generalize isActive : (List.range (shared.table.mask + 1)).filter
    (fun slot => (shared.table.table slot).Active) = active
  have counted : shared.table.count = active.length := by
    rw [ok.count, ← isActive, ← List.countP_eq_length_filter]
    rfl
  have content : ∀ slot ∈ active, slot ≤ shared.table.mask ∧ ∃ key page hash,
      shared.table.table slot = .active key page hash := by
    intro slot member
    rw [← isActive, List.mem_filter, List.mem_range] at member
    refine ⟨by omega, ?_⟩
    cases isSlot : shared.table.table slot with
    | active key page hash => exact ⟨key, page, hash, rfl⟩
    | empty | deleted =>
        rw [isSlot] at member
        cases member.2
  have nodup : (active.map fun slot =>
      pageOf (shared.table.table slot)).Nodup := by
    apply List.Nodup.map_on
    · intro slot member slot' member' same
      obtain ⟨inside, key, page, hash, isSlot⟩ := content slot member
      obtain ⟨inside', key', page', hash', isSlot'⟩ := content slot' member'
      simp only [pageOf, isSlot, isSlot'] at same
      subst same
      have alikeSelf : ∀ key : KeyPtr, shared.table.cmp key key = true :=
        ok.lawful.refl
      have alike := kept.distinct key.string key'.string page
        ⟨key, rfl, slot, inside, key, hash, isSlot, alikeSelf key⟩
        ⟨key', rfl, slot', inside', key', hash', isSlot', alikeSelf key'⟩
      apply ok.unique slot inside slot' inside' _ _ _ _ _ _ isSlot isSlot'
      rw [kept.byContent.cmp, cmp_iff]
      exact alike
    · rw [← isActive]
      exact List.nodup_range.filter _
  have frames : (active.map fun slot => pageOf (shared.table.table slot)) ⊆
      allFrames := by
    intro page member
    obtain ⟨slot, isMember, rfl⟩ := List.mem_map.mp member
    obtain ⟨inside, key, page, hash, isSlot⟩ := content slot isMember
    have alikeSelf : shared.table.cmp key key = true := ok.lawful.refl key
    rw [mem_allFrames]
    simp only [pageOf, isSlot]
    exact (kept.page key.string page
      ⟨key, rfl, slot, inside, key, hash, isSlot, alikeSelf⟩).2.1
  have bound := (List.subperm_of_subset nodup frames).length_le
  rw [List.length_map] at bound
  unfold allFrames at bound
  rw [List.length_map, List.length_range] at bound
  rw [counted]
  exact bound

theorem Kept.size_lt (kept : shared.Kept blocks) :
    shared.table.mask + 1 < 0x40000000 := by
  have count := kept.count_le
  have size := kept.settled.size_le
  omega

theorem Kept.unique (kept : shared.Kept blocks) {string : CString}
    {page page' : Nat} (first : shared.Registered string page)
    (second : shared.Registered string page') : page = page' := by
  obtain ⟨key, rfl, holds⟩ := first
  rw [← kept.byContent.holds_iff key] at second
  exact kept.settled.ok.value_unique holds second

/-- `hash_get` reads the registry. -/
theorem Kept.hashGet (kept : shared.Kept blocks) (key : KeyPtr) :
    (∀ page, shared.Registered key.string page →
      shared.table.hashGet key 0 = some page) ∧
    ((∀ page, ¬ shared.Registered key.string page) →
      shared.table.hashGet key 0 = some 0) := by
  have get := kept.settled.ok.hashGet kept.settled.room key 0
  constructor
  · intro page registered
    exact get.1 page ((kept.byContent.holds_iff key page).mpr registered)
  · intro absent
    apply get.2
    intro page holds
    exact absent page ((kept.byContent.holds_iff key page).mp holds)

end Registry

/-! ## `virtual_free` of a shared page -/

section Free

variable {p : Paging} {role : Nat → Role} {free : List Nat}

/-- Memory after `virtual_free` of the page `f`. -/
def Paging.freed (p : Paging) (f : Nat) : Paging :=
  { p with
    bytes := store32 (store32 p.bytes (sharedEntry f) (frameBits f |||
      pageTableRw)) f p.head
    head := f
    released := f :: p.released
    blocks := p.blocks.filter fun block => block.base ≠ f }

theorem Layout.freed (layout : Layout p role free) {f : Nat}
    (member : ⟨f, 0x1000⟩ ∈ p.blocks) (notIdle : f ≠ memoryStart) :
    Layout (p.freed f) (assign role [f] .free) (f :: free) := by
  have isFrame : IsFrame f := (layout.blocks.isFrame _ member).1
  have bounds := isFrame.lt
  have aligned := isFrame.aligned
  have isData : role f = .data :=
    layout.blocks.data _ member f isFrame ⟨Nat.le_refl f, by simp⟩
  obtain ⟨page, -, inside, isPage, entry⟩ := isFrame.sharedEntry_eq
  have isFree : frameBits f = f := frameBits_of_aligned aligned (by omega)
  have small : f ||| pageTableRw < 0x100000000 := by
    rw [or_flags aligned (by decide)]
    unfold pageTableRw
    omega
  have flags : isUser (f ||| pageTableRw) = false := by
    unfold isUser
    rw [testBit_or_flags aligned (by decide)]
    decide
  have hiddenLayout : Layout
      { p with bytes := store32 p.bytes (sharedEntry f) (f ||| pageTableRw) }
      role free := by
    rw [entry]
    apply layout.setShared inside small
    · intro _
      rw [isPage]
      exact frameBits_or_flags aligned (by omega) (by decide)
    · exact fun _ => flags
    · intro isStart _
      unfold memoryStart at notIdle isStart
      omega
  have hidden : isUser (load32 (store32 p.bytes (sharedEntry f)
      (f ||| pageTableRw)) (sharedEntry f)) = false := by
    rw [load32_store32, Nat.mod_eq_of_lt small]
    exact flags
  have pushed := hiddenLayout.push isData member hidden
  unfold Paging.freed
  rw [isFree]
  exact pushed

/-- `virtual_free` of one page. -/
theorem wp_virtualFree {f : Nat} {post : Unit → Paging → Prop}
    {fault : Fault → Paging → Prop} (layout : Layout p role free)
    (member : ⟨f, 0x1000⟩ ∈ p.blocks) (holds : post () (p.freed f)) :
    wp (virtualFree f 4096) post fault p := by
  have isFrame : IsFrame f := (layout.blocks.isFrame _ member).1
  have bounds := isFrame.lt
  have aligned := isFrame.aligned
  obtain ⟨page, low, inside, isPage, entry⟩ := isFrame.sharedEntry_eq
  have identity : frameBits (load32 p.bytes (sharedEntry f)) = f := by
    rw [entry, layout.tables.identity page, isPage]
    · rw [isPage]
      exact isFrame.1
    · rw [isPage]
      exact isFrame.2.1
  have apart : sharedEntry f + 4 ≤ f ∨ f + 4 ≤ sharedEntry f := by
    unfold sharedEntry pgtab
    omega
  unfold virtualFree
  rw [wp_bind]
  change wp (freePages f (0 + 1)) _ _ _
  unfold freePages
  simp only [wp_bind, wp_get]
  apply wp_findShared layout layout.cr3 (by omega)
  rw [wp_bind]
  apply wp_load (mapped_sharedEntry (by omega))
  rw [identity]
  unfold freePhysicalMemoryAddress
  simp only [wp_bind, wp_get]
  apply wp_store (mapped (by omega) (by omega))
  rw [wp_modify, wp_bind]
  apply wp_store (mapped_sharedEntry (by omega))
  unfold freePages
  rw [wp_pure, wp_modify]
  unfold Paging.freed at holds
  rw [store32_comm apart]
  exact holds

end Free

end Nebulea
