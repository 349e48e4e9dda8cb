import Nebulea.PagingBoot

/-!
# The pool of frames

What the functions of `mmu.c` need of memory to find their way: the free frames
are chained, the page directories share the kernel's page tables, those map the
frames one to one, no free frame is a directory or a page table, and every other
page table has one place in one directory.  Nothing is said of what those tables
and the frames hold.
-/

namespace Nebulea

open ByteMemory ExceptState

/-- No condition on the flags of a directory's entries. -/
def AnyFlags (_ : Nat) : Prop :=
  True

/-- An entry of a directory beyond the shared ones: null, or a page table with
flags that are `ok`. -/
def OwnTable (ok : Nat → Prop) (dirs free : List Nat) (word : Nat) : Prop :=
  word = 0 ∨ IsFrame (frameBits word) ∧ frameBits word ∉ free ∧
    frameBits word ∉ dirs ∧ ok (word % 0x1000)

/-- The free list is well formed, and the page directories lead to no free
frame.  The flags that directories get are `ok`. -/
structure Pool (ok : Nat → Prop) (p : Paging) (dirs free : List Nat) :
    Prop where
  linked : Linked p.bytes p.head free
  nodup : free.Nodup
  isFrame : ∀ f ∈ free, IsFrame f
  directory : ∀ d ∈ dirs, d = pgdir ∨ IsFrame d ∧ d ∉ free
  shared : ∀ d ∈ dirs, ∀ i < 64,
    frameBits (load32 p.bytes (d + 4 * i)) = pgtab + 0x1000 * i
  own : ∀ d ∈ dirs, ∀ i < 1024, 64 ≤ i →
    OwnTable ok dirs free (load32 p.bytes (d + 4 * i))
  distinct : ∀ d ∈ dirs, ∀ e ∈ dirs, ∀ i < 1024, ∀ j < 1024, 64 ≤ i → 64 ≤ j →
    frameBits (load32 p.bytes (d + 4 * i)) ≠ 0 →
    frameBits (load32 p.bytes (e + 4 * j)) =
      frameBits (load32 p.bytes (d + 4 * i)) → e = d ∧ j = i
  identity : ∀ page, memoryStart ≤ 0x1000 * page →
    0x1000 * page < memoryEnd →
    frameBits (load32 p.bytes (pgtab + 4 * page)) = 0x1000 * page
  cr3 : p.cr3 ∈ dirs
  userRw : ok pageTableUserRw

/-- The links and the entries that `Pool` speaks of, after a change of
memory. -/
structure SameWords (dirs free : List Nat) (bytes bytes' : Bytes) : Prop where
  link : ∀ f ∈ free, load32 bytes' f = load32 bytes f
  entry : ∀ d ∈ dirs, ∀ i < 1024,
    load32 bytes' (d + 4 * i) = load32 bytes (d + 4 * i)
  table : ∀ page < 0x10000,
    load32 bytes' (pgtab + 4 * page) = load32 bytes (pgtab + 4 * page)

section Words

variable {ok : Nat → Prop} {p p' : Paging} {dirs free : List Nat} {d : Nat}

theorem Pool.directory_bounds (pool : Pool ok p dirs free) (member : d ∈ dirs) :
    d % 0x1000 = 0 ∧
      (d = 0x101000 ∨ 0x4000000 ≤ d ∧ d + 0x4000 ≤ 0x10000000) := by
  rcases pool.directory d member with rfl | ⟨isFrame, -⟩
  · exact ⟨rfl, .inl rfl⟩
  · exact ⟨isFrame.aligned, .inr isFrame.lt⟩

/-- A page table of a directory beyond the shared ones. -/
theorem Pool.table (pool : Pool ok p dirs free) (member : d ∈ dirs) {i : Nat}
    (less : i < 1024) (high : 64 ≤ i)
    (present : frameBits (load32 p.bytes (d + 4 * i)) ≠ 0) :
    IsFrame (frameBits (load32 p.bytes (d + 4 * i))) ∧
      frameBits (load32 p.bytes (d + 4 * i)) ∉ free ∧
      frameBits (load32 p.bytes (d + 4 * i)) ∉ dirs ∧
      ok (load32 p.bytes (d + 4 * i) % 0x1000) := by
  refine (pool.own d member i less high).resolve_left fun null => present ?_
  rw [null]
  rfl

theorem Pool.mapped_directory (pool : Pool ok p dirs free) (member : d ∈ dirs)
    {i : Nat} (less : i < 1024) : p.Mapped (d + 4 * i) := by
  have bounds := pool.directory_bounds member
  exact mapped (by omega) (by omega)

/-- A frame that is no directory does not overlap one. -/
theorem Pool.directory_far (pool : Pool ok p dirs free) (member : d ∈ dirs)
    {f : Nat} (isFrame : IsFrame f) (other : f ∉ dirs) :
    d + 0x1000 ≤ f ∨ f + 0x4000 ≤ d := by
  have bounds := isFrame.lt
  rcases pool.directory d member with rfl | ⟨isFrame', -⟩
  · unfold pgdir
    omega
  · have distinct : d ≠ f := by
      rintro rfl
      exact other member
    have far := isFrame'.eq_or_far isFrame
    omega

theorem Pool.free_notMem (pool : Pool ok p dirs free) {f : Nat} (member : f ∈ free) :
    f ∉ dirs := by
  intro isDirectory
  have bounds := (pool.isFrame f member).lt
  rcases pool.directory f isDirectory with rfl | ⟨-, notFree⟩
  · unfold pgdir at bounds
    omega
  · exact notFree member

/-- The pool of memory in which only other words have changed. -/
theorem Pool.congr (pool : Pool ok p dirs free) (head : p'.head = p.head)
    (cr3 : p'.cr3 = p.cr3) (same : SameWords dirs free p.bytes p'.bytes) :
    Pool ok p' dirs free where
  linked := by
    rw [head]
    exact pool.linked.congr same.link
  nodup := pool.nodup
  isFrame := pool.isFrame
  directory := pool.directory
  shared := by
    intro d member i low
    rw [same.entry d member i (by omega)]
    exact pool.shared d member i low
  own := by
    intro d member i less high
    rw [same.entry d member i less]
    exact pool.own d member i less high
  distinct := by
    intro d member e member' i less j less'
    rw [same.entry d member i less, same.entry e member' j less']
    exact pool.distinct d member e member' i less j less'
  identity := by
    intro page low high
    have less : page < 0x10000 := by
      unfold memoryEnd at high
      omega
    rw [same.table page less]
    exact pool.identity page low high
  cr3 := by
    rw [cr3]
    exact pool.cr3
  userRw := pool.userRw

/-- A frame that is neither free nor a directory may be written. -/
theorem Pool.sameWords (pool : Pool ok p dirs free) {f : Nat} (isFrame : IsFrame f)
    (notFree : f ∉ free) (other : f ∉ dirs) {bytes' : Bytes}
    (same : ∀ x, x < f ∨ f + 0x1000 ≤ x → bytes' x = p.bytes x) :
    SameWords dirs free p.bytes bytes' := by
  have bounds := isFrame.lt
  have kept {a : Nat} (apart : a + 4 ≤ f ∨ f + 0x1000 ≤ a) :
      load32 bytes' a = load32 p.bytes a := by
    apply load32_congr
    intro x low high
    exact same x (by omega)
  constructor
  · intro g member
    have distinct : g ≠ f := by
      rintro rfl
      exact notFree member
    have far := isFrame.eq_or_far (pool.isFrame g member)
    exact kept (by omega)
  · intro d member i less
    have far := pool.directory_far member isFrame other
    exact kept (by omega)
  · intro page less
    refine kept ?_
    unfold pgtab
    omega

end Words

section Stores

variable {ok : Nat → Prop} {p : Paging} {dirs free : List Nat} {d i word : Nat}

/-- A word of a directory is written. -/
theorem Pool.load_directory (pool : Pool ok p dirs free) (member : d ∈ dirs)
    (less : i < 1024) {e j : Nat} (member' : e ∈ dirs) (less' : j < 1024)
    (small : word < 0x100000000) :
    load32 (store32 p.bytes (d + 4 * i) word) (e + 4 * j) =
      if e = d ∧ j = i then word else load32 p.bytes (e + 4 * j) := by
  have bounds := pool.directory_bounds member
  have bounds' := pool.directory_bounds member'
  rw [load32_store32_aligned (by omega) (by omega), Nat.mod_eq_of_lt small]
  have iff : e + 4 * j = d + 4 * i ↔ e = d ∧ j = i := by omega
  simp only [iff]

/-- A store in a page directory. -/
theorem Pool.setEntry (pool : Pool ok p dirs free) (member : d ∈ dirs)
    (less : i < 1024) (small : word < 0x100000000)
    (low : i < 64 → frameBits word = pgtab + 0x1000 * i)
    (high : 64 ≤ i → OwnTable ok dirs free word)
    (only : 64 ≤ i → frameBits word ≠ 0 → ∀ e ∈ dirs, ∀ j < 1024, 64 ≤ j →
      frameBits (load32 p.bytes (e + 4 * j)) = frameBits word →
      e = d ∧ j = i) :
    Pool ok { p with bytes := store32 p.bytes (d + 4 * i) word } dirs free where
  linked := by
    apply pool.linked.congr
    intro f isFree
    have far := pool.directory_far member (pool.isFrame f isFree)
      (pool.free_notMem isFree)
    exact load32_store32_apart (by omega)
  nodup := pool.nodup
  isFrame := pool.isFrame
  directory := pool.directory
  shared := by
    intro e member' j less'
    rw [pool.load_directory member less member' (by omega) small]
    split
    · next same => rw [low (by omega), same.2]
    · exact pool.shared e member' j less'
  own := by
    intro e member' j less' high'
    rw [pool.load_directory member less member' less' small]
    split
    · exact high (by omega)
    · exact pool.own e member' j less' high'
  distinct := by
    intro e isDir e' isDir' j inside j' inside' above above'
    rw [pool.load_directory member less isDir inside small,
      pool.load_directory member less isDir' inside' small]
    split
    · next here =>
        split
        · next here' =>
            intro _ _
            exact ⟨here'.1.trans here.1.symm, here'.2.trans here.2.symm⟩
        · intro present same
          rw [here.1, here.2]
          exact only (by omega) present e' isDir' j' inside' above' same
    · split
      · next here =>
          intro present same
          rw [here.1, here.2]
          rw [← same] at present
          obtain ⟨isDest, isIndex⟩ :=
            only (by omega) present e isDir j inside above same.symm
          exact ⟨isDest.symm, isIndex.symm⟩
      · exact pool.distinct e isDir e' isDir' j inside j' inside' above above'
  identity := by
    intro page low' high'
    have bounds := pool.directory_bounds member
    rw [load32_store32_apart]
    · exact pool.identity page low' high'
    · unfold memoryEnd at high'
      unfold pgtab
      omega
  cr3 := pool.cr3
  userRw := pool.userRw

/-- The directories do not overlap the kernel's page tables. -/
theorem Pool.load_apart (pool : Pool ok p dirs free) (member : d ∈ dirs)
    (less : i < 1024) {page : Nat} (inside : page < 0x10000) :
    load32 (store32 p.bytes (pgtab + 4 * page) word) (d + 4 * i) =
      load32 p.bytes (d + 4 * i) := by
  have bounds := pool.directory_bounds member
  apply load32_store32_apart
  unfold pgtab
  omega

/-- A store in the kernel's page tables. -/
theorem Pool.setShared (pool : Pool ok p dirs free) {page : Nat}
    (inside : page < 0x10000) (small : word < 0x100000000)
    (same : memoryStart ≤ 0x1000 * page → frameBits word = 0x1000 * page) :
    Pool ok { p with bytes := store32 p.bytes (pgtab + 4 * page) word } dirs
      free where
  linked := by
    apply pool.linked.congr
    intro f isFree
    have bounds := (pool.isFrame f isFree).lt
    apply load32_store32_apart
    unfold pgtab
    omega
  nodup := pool.nodup
  isFrame := pool.isFrame
  directory := pool.directory
  shared := by
    intro e member j less
    rw [pool.load_apart member (by omega) inside]
    exact pool.shared e member j less
  own := by
    intro e member j less high
    rw [pool.load_apart member less inside]
    exact pool.own e member j less high
  distinct := by
    intro e member e' member' j less j' less'
    rw [pool.load_apart member less inside,
      pool.load_apart member' less' inside]
    exact pool.distinct e member e' member' j less j' less'
  identity := by
    intro other low high
    rw [load_table small]
    split
    · next isPage =>
        subst isPage
        exact same low
    · exact pool.identity other low high
  cr3 := pool.cr3
  userRw := pool.userRw

/-- The first free frame is taken. -/
theorem Pool.pop {f : Nat} {rest : List Nat} {p' : Paging}
    (pool : Pool ok p dirs (f :: rest)) (bytes : p'.bytes = p.bytes)
    (head : p'.head = load32 p.bytes f) (cr3 : p'.cr3 = p.cr3) :
    Pool ok p' dirs rest where
  linked := by
    rw [head, bytes]
    exact pool.linked.2
  nodup := pool.nodup.of_cons
  isFrame g member := pool.isFrame g (List.mem_cons_of_mem f member)
  directory d member :=
    (pool.directory d member).imp_right fun isFrame =>
      ⟨isFrame.1, fun isFree => isFrame.2 (List.mem_cons_of_mem f isFree)⟩
  shared := by
    rw [bytes]
    exact pool.shared
  own := by
    rw [bytes]
    intro d member i less high
    exact (pool.own d member i less high).imp_right fun isTable =>
      ⟨isTable.1, fun isFree => isTable.2.1 (List.mem_cons_of_mem f isFree),
        isTable.2.2⟩
  distinct := by
    rw [bytes]
    exact pool.distinct
  identity := by
    rw [bytes]
    exact pool.identity
  cr3 := by
    rw [cr3]
    exact pool.cr3
  userRw := pool.userRw

theorem Pool.head_lt (pool : Pool ok p dirs free) : p.head < 0x10000000 := by
  cases free with
  | nil =>
      rw [pool.linked]
      decide
  | cons f rest =>
      have bounds := (pool.isFrame f List.mem_cons_self).lt
      rw [pool.linked.head_eq]
      omega

/-- A frame that is in use as neither a directory nor a page table. -/
structure Idle (p : Paging) (dirs : List Nat) (f : Nat) : Prop where
  isFrame : IsFrame f
  notDirectory : f ∉ dirs
  notTable : ∀ d ∈ dirs, ∀ i < 1024,
    frameBits (load32 p.bytes (d + 4 * i)) ≠ f

/-- Nothing leads to a free frame. -/
theorem Pool.idle (pool : Pool ok p dirs free) {f : Nat} (member : f ∈ free) :
    Idle p dirs f where
  isFrame := pool.isFrame f member
  notDirectory := pool.free_notMem member
  notTable := by
    intro d isDirectory i less isTable
    have bounds := (pool.isFrame f member).lt
    by_cases low : i < 64
    · rw [pool.shared d isDirectory i low] at isTable
      unfold pgtab at isTable
      omega
    · rcases pool.own d isDirectory i less (by omega) with null | ⟨-, notFree, -⟩
      · rw [null] at isTable
        have isNull : 0 = f := isTable
        omega
      · rw [isTable] at notFree
        exact notFree member

/-- `free_physical_memory_address`. -/
theorem Pool.push {f : Nat} {p' : Paging} (pool : Pool ok p dirs free)
    (idle : Idle p dirs f) (notFree : f ∉ free)
    (bytes : p'.bytes = store32 p.bytes f p.head) (head : p'.head = f)
    (cr3 : p'.cr3 = p.cr3) : Pool ok p' dirs (f :: free) := by
  have isFrame := idle.isFrame
  have same : SameWords dirs free p.bytes p'.bytes := by
    rw [bytes]
    exact pool.sameWords isFrame notFree idle.notDirectory fun x outside =>
      store32_outside (by omega)
  constructor
  · refine ⟨head, ?_⟩
    rw [bytes, load32_store32, Nat.mod_eq_of_lt (by
      have bound := pool.head_lt
      omega)]
    rw [bytes] at same
    exact pool.linked.congr same.link
  · exact List.nodup_cons.mpr ⟨notFree, pool.nodup⟩
  · intro g member
    rcases List.mem_cons.mp member with rfl | member
    · exact isFrame
    · exact pool.isFrame g member
  · intro d member
    refine (pool.directory d member).imp_right fun isFrame' =>
      ⟨isFrame'.1, ?_⟩
    rw [List.mem_cons, not_or]
    exact ⟨fun equal => idle.notDirectory (equal ▸ member), isFrame'.2⟩
  · intro d member i low
    rw [same.entry d member i (by omega)]
    exact pool.shared d member i low
  · intro d member i less high
    rw [same.entry d member i less]
    refine (pool.own d member i less high).imp_right fun isTable =>
      ⟨isTable.1, ?_, isTable.2.2⟩
    rw [List.mem_cons, not_or]
    exact ⟨idle.notTable d member i less, isTable.2.1⟩
  · intro d member e member' i less j less'
    rw [same.entry d member i less, same.entry e member' j less']
    exact pool.distinct d member e member' i less j less'
  · intro page low high
    have less : page < 0x10000 := by
      unfold memoryEnd at high
      omega
    rw [same.table page less]
    exact pool.identity page low high
  · rw [cr3]
    exact pool.cr3
  · exact pool.userRw

/-- A frame that holds the entries of a directory becomes one. -/
theorem Pool.addDirectory {f : Nat} (pool : Pool ok p dirs free)
    (idle : Idle p dirs f) (notFree : f ∉ free)
    (low : ∀ i < 64, frameBits (load32 p.bytes (f + 4 * i)) =
      pgtab + 0x1000 * i)
    (high : ∀ i < 1024, 64 ≤ i → load32 p.bytes (f + 4 * i) = 0) :
    Pool ok p (f :: dirs) free where
  linked := pool.linked
  nodup := pool.nodup
  isFrame := pool.isFrame
  directory := by
    intro d member
    rcases List.mem_cons.mp member with rfl | member
    · exact .inr ⟨idle.isFrame, notFree⟩
    · exact pool.directory d member
  shared := by
    intro d member i less
    rcases List.mem_cons.mp member with rfl | member
    · exact low i less
    · exact pool.shared d member i less
  own := by
    intro d member i less inside
    rcases List.mem_cons.mp member with rfl | member
    · exact .inl (high i less inside)
    · refine (pool.own d member i less inside).imp_right fun isTable =>
        ⟨isTable.1, isTable.2.1, ?_⟩
      rw [List.mem_cons, not_or]
      exact ⟨⟨idle.notTable d member i less, isTable.2.2.1⟩, isTable.2.2.2⟩
  distinct := by
    intro d member e member' i less j less' inside inside' present same
    -- the new directory has no page tables of its own
    have old {d : Nat} (member : d ∈ f :: dirs) {i : Nat} (less : i < 1024)
        (inside : 64 ≤ i)
        (present : frameBits (load32 p.bytes (d + 4 * i)) ≠ 0) : d ∈ dirs := by
      rcases List.mem_cons.mp member with rfl | member
      · rw [high i less inside] at present
        exact absurd rfl present
      · exact member
    have present' := present
    rw [← same] at present'
    exact pool.distinct d (old member less inside present) e
      (old member' less' inside' present') i less j less' inside inside'
      present same
  identity := pool.identity
  cr3 := List.mem_cons_of_mem f pool.cr3
  userRw := pool.userRw

end Stores

/-- Memory that agrees with roles of the frames is a pool, as long as the
directories have no page tables of their own. -/
theorem Layout.pool {ok : Nat → Prop} {p : Paging} {role : Nat → Role}
    {dirs free : List Nat} (layout : Layout p role free)
    (isDirectory : ∀ d ∈ dirs, IsDirectory role d) (cr3 : p.cr3 ∈ dirs)
    (userRw : ok pageTableUserRw)
    (bare : ∀ d ∈ dirs, ∀ i < 1024, 64 ≤ i → load32 p.bytes (d + 4 * i) = 0) :
    Pool ok p dirs free where
  linked := layout.linked
  nodup := layout.nodup
  isFrame f member := layout.isFrame_of_mem member
  directory := by
    intro d member
    rcases isDirectory d member with isKernel | isRole
    · exact .inl isKernel
    · refine .inr ⟨layout.isFrame d (by rw [isRole]; decide), ?_⟩
      rw [layout.mem_free, isRole]
      decide
  shared d member := layout.tables.shared d (isDirectory d member)
  own d member i less inside := .inl (bare d member i less inside)
  distinct := by
    intro d member e member' i less j less' inside inside' present
    rw [bare d member i less inside] at present
    exact absurd rfl present
  identity := layout.tables.identity
  cr3 := cr3
  userRw := userRw

/-- The pool that `init_free_list` makes. -/
theorem pool_booting {ok : Nat → Prop} (userRw : ok pageTableUserRw)
    (readOnly : Nat → Bool) (bytes : Bytes) :
    Pool ok (Paging.booting readOnly bytes) [pgdir] allFrames := by
  apply layout_booting.pool _ (List.mem_singleton_self pgdir) userRw
  · intro d member i less inside
    have high : pgdir + 4 * i + 4 ≤ memoryStart := by
      unfold pgdir memoryStart
      omega
    rw [List.mem_singleton.mp member]
    change load32 (initFreeList _) _ = 0
    rw [load_initFreeList_low high, load_earlyMm_directory less,
      if_neg (by omega)]
  · exact fun _ member => .inl (List.mem_singleton.mp member)

end Nebulea
