import Nebulea.StartRefusals

/-!
# Where a new process finds its argument

`start` stores the argument by its physical address and maps the stack from an
address that is not the start of a page.  The two agree for stacks that are
neither shorter than the slot is deep nor longer than a page.
-/

namespace Nebulea

open ByteMemory ExceptState

/-- The physical address that user code reaches at `a` in the directory `d`. -/
def Paging.translate (p : Paging) (d a : Nat) : Option Nat :=
  (p.userFrame d a).map fun frame => frame + a % 0x1000

/-- The page tables of the directory `d` from index `first` on are there, and
no two of them are the same. -/
structure Chained (p : Paging) (role : Nat → Role) (d first tables : Nat) :
    Prop where
  directory : IsDirectory role d
  high : 64 ≤ first
  inside : first + tables ≤ 1024
  opened : ∀ j, j < tables →
    frameBits (load32 p.bytes (d + 4 * (first + j))) ≠ 0
  separate : Separate p d first tables

/-- Memory after one turn of the loop of `pgdir_copy` that finds its page
table. -/
def Paging.copyTurn (p : Paging) (d a dest : Nat) : Paging :=
  let t := frameBits (load32 p.bytes (d + 4 * pdIndex dest))
  let permitted := store32 p.bytes (d + 4 * pdIndex dest)
    (t ||| pageTableUserRw)
  { p with
    bytes := store32 permitted (t + 4 * ptIndex dest)
      (frameBits (load32 permitted (sharedEntry a)) ||| pageTableUserRw) }

section Copy

variable {p p' : Paging} {role : Nat → Role} {free : List Nat}
variable {d first tables k a dest : Nat}

theorem Chained.table (chained : Chained p role d first tables)
    (layout : Layout p role free) {j : Nat} (less : j < tables) :
    role (frameBits (load32 p.bytes (d + 4 * (first + j)))) = .table := by
  have high := chained.high
  have inside := chained.inside
  exact (layout.tables.own d chained.directory _ (by omega)
    (by omega)).resolve_left (chained.opened j less)

theorem Chained.congr (chained : Chained p role d first tables)
    (same : ∀ j, j < 1024 → frameBits (load32 p'.bytes (d + 4 * j)) =
      frameBits (load32 p.bytes (d + 4 * j))) :
    Chained p' role d first tables := by
  have inside := chained.inside
  refine ⟨chained.directory, chained.high, inside, ?_,
    chained.separate.congr same⟩
  intro j less
  rw [same _ (by omega)]
  exact chained.opened j less

/-- The indices of the page `k` of a region. -/
theorem pdIndex_page (isDest : dest = first * 0x400000 + 0x1000 * k) :
    pdIndex dest = first + k / 1024 := by
  rw [pdIndex_eq, isDest]
  omega

theorem ptIndex_page (isDest : dest = first * 0x400000 + 0x1000 * k) :
    ptIndex dest = k % 1024 := by
  rw [ptIndex_eq, isDest]
  omega

/-- What one turn does to the words of the directory and of its tables. -/
structure Turned (p p' : Paging) (role : Nat → Role) (free : List Nat)
    (d first tables k a : Nat) : Prop where
  layout : Layout p' role free
  targets : ∀ j, j < 1024 → frameBits (load32 p'.bytes (d + 4 * j)) =
    frameBits (load32 p.bytes (d + 4 * j))
  entry : load32 p'.bytes (d + 4 * (first + k / 1024)) =
    frameBits (load32 p.bytes (d + 4 * (first + k / 1024))) ||| pageTableUserRw
  entries : ∀ j, j < 1024 → j ≠ first + k / 1024 →
    load32 p'.bytes (d + 4 * j) = load32 p.bytes (d + 4 * j)
  page : load32 p'.bytes
    (frameBits (load32 p.bytes (d + 4 * (first + k / 1024))) +
      4 * (k % 1024)) = 0x1000 * (a / 0x1000) ||| pageTableUserRw
  pages : ∀ k', k' < 1024 * tables → k' ≠ k →
    load32 p'.bytes (frameBits (load32 p.bytes (d + 4 * (first + k' / 1024))) +
        4 * (k' % 1024)) =
      load32 p.bytes (frameBits (load32 p.bytes
        (d + 4 * (first + k' / 1024))) + 4 * (k' % 1024))

theorem Chained.turned (chained : Chained p role d first tables)
    (layout : Layout p role free) (less : k < 1024 * tables)
    (low : memoryStart ≤ a) (high : a < memoryEnd)
    (isDest : dest = first * 0x400000 + 0x1000 * k) :
    Turned p (p.copyTurn d a dest) role free d first tables k a := by
  have inside := chained.inside
  have isDirectory := chained.directory
  have isTable := chained.table layout (show k / 1024 < tables by omega)
  have isFrame := layout.isFrame _ (by rw [isTable]; decide)
  have index : first + k / 1024 < 1024 := by omega
  have bounds := layout.directory_bounds isDirectory
  have permitted := layout.setPermission isDirectory index
  have small := load32_lt p.bytes (d + 4 * (first + k / 1024))
  have ok := layout.entryOk_permission isDirectory index
  -- the table is no directory
  have apart : ∀ t, role t = .table → d + 0x1000 ≤ t ∨ t + 0x1000 ≤ d := by
    intro t isTable'
    have isFrame := layout.isFrame t (by rw [isTable']; decide)
    have bounds' := isFrame.lt
    rcases isDirectory with rfl | isRole
    · unfold pgdir
      omega
    · have isDirFrame := layout.isFrame d (by rw [isRole]; decide)
      have different : t ≠ d := by
        intro same
        rw [same, isRole] at isTable'
        cases isTable'
      have far := isFrame.eq_or_far isDirFrame
      omega
  have identity : frameBits (load32 (store32 p.bytes
      (d + 4 * (first + k / 1024))
      (frameBits (load32 p.bytes (d + 4 * (first + k / 1024))) |||
        pageTableUserRw)) (sharedEntry a)) = 0x1000 * (a / 0x1000) := by
    rw [sharedEntry_eq]
    unfold memoryStart at low
    unfold memoryEnd at high
    exact permitted.tables.identity _ (by unfold memoryStart; omega)
      (by unfold memoryEnd; omega)
  unfold Paging.copyTurn
  simp only [pdIndex_page isDest, ptIndex_page isDest, identity]
  generalize isT : frameBits (load32 p.bytes (d + 4 * (first + k / 1024))) = t
    at *
  have bounds' := isFrame.lt
  have far := apart t isTable
  have aligned := isFrame.aligned
  have wordSmall : 0x1000 * (a / 0x1000) ||| pageTableUserRw < 0x100000000 := by
    unfold memoryEnd at high
    rw [or_flags (by omega) (by decide)]
    unfold pageTableUserRw
    omega
  generalize isBytes : store32 p.bytes (d + 4 * (first + k / 1024))
    (t ||| pageTableUserRw) = bytes at *
  -- the words of the directory
  have entries : ∀ j, j < 1024 → load32 bytes (d + 4 * j) =
      if j = first + k / 1024 then t ||| pageTableUserRw
      else load32 p.bytes (d + 4 * j) := by
    intro j inside'
    rw [← isBytes, layout.load_directory isDirectory index isDirectory inside'
      ok.small]
    simp only [true_and]
  have outer : ∀ j, j < 1024 → load32 (store32 bytes (t + 4 * (k % 1024))
      (0x1000 * (a / 0x1000) ||| pageTableUserRw)) (d + 4 * j) =
        load32 bytes (d + 4 * j) := by
    intro j inside'
    exact load32_store32_apart (by omega)
  have same : SameEntries role bytes (store32 bytes (t + 4 * (k % 1024))
      (0x1000 * (a / 0x1000) ||| pageTableUserRw)) := by
    apply permitted.sameEntries isFrame (.inl isTable)
    intro x outside
    exact store32_outside (by omega)
  constructor
  · exact permitted.write same
  · intro j inside'
    change frameBits (load32 (store32 bytes _ _) _) = _
    rw [outer j inside', entries j inside']
    split
    · next isIndex =>
        rw [isIndex, isT, frameBits_or_flags aligned (by omega) (by decide)]
    · rfl
  · change load32 (store32 bytes _ _) _ = _
    rw [outer _ index, entries _ index, if_pos rfl, isT]
  · intro j inside' other
    change load32 (store32 bytes _ _) _ = _
    rw [outer j inside', entries j inside', if_neg other]
  · change load32 (store32 bytes _ _) _ = _
    rw [isT, load32_store32, Nat.mod_eq_of_lt wordSmall]
  · intro k' less' other
    have isTable' := chained.table layout (show k' / 1024 < tables by omega)
    have isFrame' := layout.isFrame _ (by rw [isTable']; decide)
    have separate := chained.separate (k' / 1024) (k / 1024) (by omega)
      (by omega) (by omega) index
    rw [isT] at separate
    generalize frameBits (load32 p.bytes (d + 4 * (first + k' / 1024))) = t'
      at *
    have bounds'' := isFrame'.lt
    have aligned' := isFrame'.aligned
    have far' := apart t' isTable'
    have frames := isFrame'.eq_or_far isFrame
    change load32 (store32 bytes _ _) _ = _
    rw [load32_store32_aligned (by omega) (by omega), if_neg, ← isBytes]
    · exact load32_store32_apart (by omega)
    · omega

/-- The page `k` of the region is seen after its turn. -/
theorem Turned.userFrame (turned : Turned p p' role free d first tables k a)
    (chained : Chained p role d first tables) (layout : Layout p role free)
    (less : k < 1024 * tables) (high : a < memoryEnd)
    (isDest : dest = first * 0x400000 + 0x1000 * k) :
    p'.userFrame d dest = some (0x1000 * (a / 0x1000)) := by
  have isTable := chained.table layout (show k / 1024 < tables by omega)
  have isFrame := layout.isFrame _ (by rw [isTable]; decide)
  have aligned := isFrame.aligned
  have bounds := isFrame.lt
  have entry := turned.entry
  have page := turned.page
  unfold memoryEnd at high
  unfold Paging.userFrame
  simp only [pdIndex_page isDest, ptIndex_page isDest]
  generalize frameBits (load32 p.bytes (d + 4 * (first + k / 1024))) = t at *
  simp only [entry]
  rw [frameBits_or_flags aligned (by omega) (by decide), page,
    frameBits_or_flags (by omega) (by omega) (by decide), if_pos]
  unfold isPresent isUser
  rw [testBit_or_flags aligned (by decide), testBit_or_flags aligned (by decide),
    testBit_or_flags (by omega) (by decide),
    testBit_or_flags (by omega) (by decide)]
  decide

/-- The other pages are seen as before. -/
theorem Turned.userFrame_other
    (turned : Turned p p' role free d first tables k a)
    (chained : Chained p role d first tables) (layout : Layout p role free)
    {k' f : Nat} (less : k' < 1024 * tables) (other : k' ≠ k)
    (isDest : dest = first * 0x400000 + 0x1000 * k')
    (seen : p.userFrame d dest = some f) : p'.userFrame d dest = some f := by
  have inside := chained.inside
  have isTable := chained.table layout (show k' / 1024 < tables by omega)
  have isFrame := layout.isFrame _ (by rw [isTable]; decide)
  have aligned := isFrame.aligned
  have target := turned.targets (first + k' / 1024) (by omega)
  have page := turned.pages k' less other
  unfold Paging.userFrame at seen ⊢
  simp only [pdIndex_page isDest, ptIndex_page isDest] at seen ⊢
  rw [target, page]
  split at seen
  · rename_i flags
    rw [if_pos]
    · exact seen
    · refine ⟨?_, ?_, flags.2.2⟩
      · by_cases same : first + k' / 1024 = first + k / 1024
        · rw [same, turned.entry]
          rw [same] at aligned
          exact testBit_or_flags aligned (by decide)
        · rw [turned.entries _ (by omega) same]
          exact flags.1
      · by_cases same : first + k' / 1024 = first + k / 1024
        · rw [same, turned.entry]
          rw [same] at aligned
          exact testBit_or_flags aligned (by decide)
        · rw [turned.entries _ (by omega) same]
          exact flags.2.1
  · cases seen

/-- One turn of the loop of `pgdir_copy` that finds its page table. -/
theorem wp_copyTurn {count : Nat} {post : Unit → Paging → Prop}
    {fault : Fault → Paging → Prop} (chained : Chained p role d first tables)
    (layout : Layout p role free) (less : k < 1024 * tables)
    (high : a < memoryEnd)
    (isDest : dest = first * 0x400000 + 0x1000 * k)
    (rest : wp (copyPages pgdir d (a + 0x1000) (dest + 0x1000) count) post fault
      (p.copyTurn d a dest)) :
    wp (copyPages pgdir d a dest (count + 1)) post fault p := by
  have inside := chained.inside
  have isDirectory := chained.directory
  have isIndex := pdIndex_page isDest
  have index : pdIndex dest < 1024 := by omega
  have opened := chained.opened (k / 1024) (by omega)
  have isTable := chained.table layout (show k / 1024 < tables by omega)
  have isFrame := layout.isFrame _ (by rw [isTable]; decide)
  have permitted := layout.setPermission isDirectory index
  unfold memoryEnd at high
  rw [← isIndex] at opened isFrame
  unfold copyPages
  rw [wp_bind]
  apply wp_findShared layout (.inl rfl) high
  rw [wp_bind]
  unfold getPtableEntry ptable
  simp only [wp_bind]
  apply wp_load (layout.mapped_directory isDirectory index)
  rw [if_pos opened, wp_pure, if_pos ⟨trivial, by decide⟩, wp_bind]
  apply wp_setTablePermission layout isDirectory index
  rw [wp_pure, wp_bind]
  apply wp_load (mapped_sharedEntry high)
  rw [wp_bind]
  apply wp_store (isFrame.mapped_entry dest)
  exact rest

/-- The loop of `pgdir_copy` when the page tables are there. -/
theorem wp_copyPages_seen {count : Nat} (chained : Chained p role d first tables)
    (layout : Layout p role free) (inside : k + count ≤ 1024 * tables)
    (low : memoryStart ≤ a) (high : a + 0x1000 * count ≤ memoryEnd) :
    wp (copyPages pgdir d a (first * 0x400000 + 0x1000 * k) count)
      (fun _ p' =>
        (∀ i, i < count →
          p'.userFrame d (first * 0x400000 + 0x1000 * (k + i)) =
            some (0x1000 * (a / 0x1000 + i))) ∧
        ∀ k', k' < k → ∀ f,
          p.userFrame d (first * 0x400000 + 0x1000 * k') = some f →
            p'.userFrame d (first * 0x400000 + 0x1000 * k') = some f)
      (fun _ _ => False) p := by
  induction count generalizing p a k with
  | zero =>
      refine ⟨?_, fun _ _ _ seen => seen⟩
      intro i less
      omega
  | succ count ih =>
      have turned := chained.turned layout (show k < 1024 * tables by omega) low
        (show a < memoryEnd by omega) rfl
      have chained' := chained.congr turned.targets
      apply wp_copyTurn chained layout (by omega) (by omega) rfl
      rw [show first * 0x400000 + 0x1000 * k + 0x1000 =
        first * 0x400000 + 0x1000 * (k + 1) by omega]
      apply wp_mono (ih chained' turned.layout (by omega) (by omega) (by omega))
      case onFault => exact fun _ _ never => never
      rintro - p' ⟨later, before⟩
      constructor
      · intro i less
        cases i with
        | zero =>
            exact before k (by omega) _ (turned.userFrame chained layout
              (by omega) (by omega) rfl)
        | succ i =>
            rw [show k + (i + 1) = k + 1 + i by omega, later i (by omega),
              show (a + 0x1000) / 0x1000 + i = a / 0x1000 + (i + 1) by omega]
      · intro k' less f seen
        exact before k' (by omega) f (turned.userFrame_other chained layout
          (by omega) (by omega) rfl seen)

end Copy

/-! ## The slot of the argument -/

/-- The address at which `start` stores the argument. -/
def Space.argumentSlot (space : Space) : Nat :=
  (space.userStack + 0x100000000 - 36) % 0x100000000

/-- `user_stack` when `start` returns. -/
def initialUserStack (ssize : Nat) : Nat := twoGigabytes + ssize - 4

/-- The argument lies in the block of the stack, and the new process finds it
28 bytes below its first stack pointer. -/
structure ArgumentInPlace (p : Paging) (space : Space) (base ssize : Nat) :
    Prop where
  inside : base ≤ space.argumentSlot ∧
    space.argumentSlot + 4 ≤ base + (ssize + 8)
  seen : ∀ i, i < 4 → p.translate space.dir (initialUserStack ssize - 28 + i) =
    some (space.argumentSlot + i)

section Slot

variable {p p' : Paging} {role : Nat → Role} {free : List Nat}
variable {space : Space} {base ssize arg d : Nat}

/-- The frame does not depend on the place in the page. -/
theorem userFrame_page (p : Paging) (d a : Nat) :
    p.userFrame d a = p.userFrame d (0x1000 * (a / 0x1000)) := by
  have sameDir : pdIndex (0x1000 * (a / 0x1000)) = pdIndex a := by
    rw [pdIndex_eq, pdIndex_eq]
    omega
  have sameTable : ptIndex (0x1000 * (a / 0x1000)) = ptIndex a := by
    rw [ptIndex_eq, ptIndex_eq]
    omega
  unfold Paging.userFrame
  rw [sameDir, sameTable]

/-- What the new process sees of its stack at the end of `start`. -/
theorem seen_finishSpace {value : Unit} (layout : Layout p role free)
    (directory : role space.dir = .directory) (isFrame : IsFrame base)
    (isStack : space.userStack = base + ssize + 4)
    (member : ⟨base, ssize + 8⟩ ∈ p.blocks)
    (room : base + 0x4000 * pageCount (ssize + 8) ≤ memoryEnd)
    (opened : Opened p space.dir 512 (tableCount (pageCount (ssize + 8))))
    (separate : Separate p space.dir 512 (tableCount (pageCount (ssize + 8))))
    (finished : finishSpace space ssize arg p = .ok value p') :
    ∀ i, i < pageCount (ssize + 8) →
      p'.userFrame space.dir (512 * 0x400000 + 0x1000 * i) =
        some (0x1000 * ((base + ssize) / 0x1000 + i)) := by
  have bounds := isFrame.lt
  have pages : ssize + 8 ≤ 0x1000 * pageCount (ssize + 8) := by
    unfold pageCount
    omega
  unfold memoryEnd at room
  have address : (space.userStack + 0x100000000 - 36) % 0x100000000 =
      base + ssize - 32 := by
    omega
  have source : space.userStack - 4 = base + ssize := by omega
  -- the program is named so that nothing tries to run it
  generalize isCode : Nebulea.finishSpace space ssize arg = code at finished
  suffices rule : wp code (fun _ p' => ∀ i, i < pageCount (ssize + 8) →
      p'.userFrame space.dir (512 * 0x400000 + 0x1000 * i) =
        some (0x1000 * ((base + ssize) / 0x1000 + i)))
      (fun _ _ => True) p by
    have holds := wp_ok rule finished
    exact holds
  rw [← isCode]
  unfold Nebulea.finishSpace
  rw [address, wp_bind]
  apply wp_store (mapped (by omega) (by omega))
  obtain ⟨evolved, targets⟩ := layout.writeBlock member
    (store32 p.bytes (base + ssize - 32) arg) (by
      intro x outside
      simp only at outside
      exact store32_outside (by omega))
  have sameFrames := targets space.dir (.inr directory)
  have few : tableCount (pageCount (ssize + 8)) ≤ 512 := by
    unfold tableCount
    omega
  have chained : Chained
      { p with bytes := store32 p.bytes (base + ssize - 32) arg } role space.dir
      512 (tableCount (pageCount (ssize + 8))) := by
    refine ⟨.inr directory, by decide, by omega, ?_, separate.congr sameFrames⟩
    intro j less
    rw [sameFrames (512 + j) (by omega)]
    exact (opened (512 + j) (by omega) (by omega)).not.mpr (by omega)
  have inside : 0 + pageCount (ssize + 8) ≤
      1024 * tableCount (pageCount (ssize + 8)) := by
    unfold tableCount
    omega
  unfold pgdirCopy
  rw [source]
  apply wp_mono (wp_copyPages_seen chained evolved.layout inside
    (by unfold memoryStart; omega) (by unfold memoryEnd; omega))
  · rintro - p' ⟨seen, -⟩ i less
    have isSeen := seen i less
    rw [Nat.zero_add] at isSeen
    exact isSeen
  · exact fun _ _ never => absurd never id

/-- A new process finds its argument when its stack reaches below the slot and
ends in its first page. -/
theorem argumentInPlace_iff (isFrame : IsFrame base)
    (isStack : space.userStack = base + ssize + 4)
    (room : base + 0x4000 * pageCount (ssize + 8) ≤ memoryEnd)
    (seen : ∀ i, i < pageCount (ssize + 8) →
      p.userFrame space.dir (512 * 0x400000 + 0x1000 * i) =
        some (0x1000 * ((base + ssize) / 0x1000 + i))) :
    ArgumentInPlace p space base ssize ↔ 32 ≤ ssize ∧ ssize < 0x1000 := by
  have bounds := isFrame.lt
  have aligned := isFrame.aligned
  have pages : ssize + 8 ≤ 0x1000 * pageCount (ssize + 8) := by
    unfold pageCount
    omega
  unfold memoryEnd at room
  have address : space.argumentSlot = base + ssize - 32 := by
    unfold Space.argumentSlot
    omega
  have translated : 32 ≤ ssize → ∀ i, i < 4 →
      p.translate space.dir (initialUserStack ssize - 28 + i) =
        some (0x1000 * ((base + ssize) / 0x1000 + (ssize - 32 + i) / 0x1000) +
          (ssize - 32 + i) % 0x1000) := by
    intro deep i less
    have isAddress : initialUserStack ssize - 28 + i =
        0x80000000 + (ssize - 32 + i) := by
      unfold initialUserStack twoGigabytes
      omega
    unfold Paging.translate
    rw [isAddress, userFrame_page,
      show 0x1000 * ((0x80000000 + (ssize - 32 + i)) / 0x1000) =
        512 * 0x400000 + 0x1000 * ((ssize - 32 + i) / 0x1000) by omega,
      seen _ (by omega), Option.map_some]
    rw [show (0x80000000 + (ssize - 32 + i)) % 0x1000 =
      (ssize - 32 + i) % 0x1000 by omega]
  constructor
  · rintro ⟨⟨above, -⟩, places⟩
    rw [address] at above places
    have deep : 32 ≤ ssize := by omega
    have first := places 0 (by decide)
    rw [translated deep 0 (by decide), Option.some.injEq] at first
    refine ⟨deep, ?_⟩
    omega
  · rintro ⟨deep, short⟩
    constructor
    · rw [address]
      omega
    · intro i less
      rw [translated deep i less, address, Option.some.injEq]
      omega

end Slot

/-! ## Runs -/

/-- Frames were only taken from the list that `init_free_list` made. -/
def Paging.InBootOrder (p : Paging) : Prop :=
  ∃ n, ∀ count, linksFrom p.bytes count p.head = (allFrames.drop n).take count

section Runs

variable {platform : Platform} {m m' m'' : Machine} {role role' : Nat → Role}
variable {free rest popped : List Nat} {owner : Nat → Owner} {p : Paging}
variable {name : String} {ssize arg : Nat} {prio : Int}

theorem Layout.free_eq (layout : Layout p role free) {n : Nat}
    (order : ∀ count,
      linksFrom p.bytes count p.head = (allFrames.drop n).take count) :
    free = allFrames.drop n := by
  have same := order (free.length + (allFrames.drop n).length)
  rwa [layout.linksFrom_eq, List.take_of_length_le (by omega),
    List.take_of_length_le (by omega)] at same

/-- The frame number `k` of the list. -/
theorem headD_drop_allFrames {k : Nat} (inside : k < 12288) :
    (allFrames.drop k).headD 0 = 0x4000000 + 0x4000 * k := by
  have isCount : frameCount = 12288 := by decide
  rw [List.headD_eq_head?_getD, List.head?_drop]
  unfold allFrames
  rw [List.getElem?_map, List.getElem?_range (by omega)]
  rfl

/-- There is room for the stack four times over. -/
theorem room_of_enough {n : Nat} {image : Image} {base : Nat}
    (isFree : free = allFrames.drop n)
    (enough : framesOfSpace image ssize ≤ free.length)
    (isBase : base = (free.drop (framesBeforeStack image)).headD 0) :
    base + 0x4000 * pageCount (ssize + 8) ≤ memoryEnd := by
  have isCount : frameCount = 12288 := by decide
  have length : allFrames.length = 12288 := by
    unfold allFrames
    rw [List.length_map, List.length_range, isCount]
  have some : 0 < pageCount (ssize + 8) := pageCount_pos (by omega)
  rw [isFree, List.length_drop, length] at enough
  unfold framesOfSpace at enough
  rw [isBase, isFree, List.drop_drop, headD_drop_allFrames (by omega)]
  unfold memoryEnd
  omega

theorem Machine.enter_paging {a : Action} (next : m.enter a = .next m') :
    m'.memory.paging.bytes = m.memory.paging.bytes ∧
      m'.memory.paging.blocks = m.memory.paging.blocks ∧
      m'.spaces = m.spaces := by
  obtain ⟨s, -, rfl⟩ := Machine.enter_next next
  refine ⟨?_, ?_, Machine.loadCr3_spaces _⟩
  · unfold Machine.loadCr3
    split <;> rfl
  · unfold Machine.loadCr3
    split <;> rfl

/-- What an accepted `start` has done to memory when it returns. -/
theorem MachineOk.start_places (ok : MachineOk m role free owner)
    (small : ssize ≤ 0x10000000)
    (contained : name ∈ m.kernel.symbolsTable →
      m.memory.paging.Contains (platform.images name) ssize)
    (accepted : ¬ (getFreePid m.kernel = -1 ∨ prio > maxPrio))
    (next : m.step platform (.start name ssize prio arg) = .next m')
    (returned : m'.kernel.mode ≠ .pageFault) :
    ∃ space built finished popped role' rest,
      buildSpace (platform.images name) ssize m.memory.paging =
        .ok space built ∧
      Built m.memory.paging role free ssize space popped built role' rest ∧
      space.userStack = (free.drop
        (framesBeforeStack (platform.images name))).headD 0 + ssize + 4 ∧
      Separate built space.dir 512 (tableCount (pageCount (ssize + 8))) ∧
      finishSpace space ssize arg built = .ok () finished ∧
      m'.memory.paging.bytes = finished.bytes ∧
      m'.memory.paging.blocks = finished.blocks ∧
      (m'.spaces m.kernel.nextRef).map ProcessSpace.cr3 = some space.dir := by
  unfold Machine.step at next
  simp only at next
  split at next
  · rename_i refused
    obtain ⟨s, isStep, -⟩ := Machine.enter_next next
    exact absurd isStep
      (step_start_unknown small (refused.resolve_left (by omega)))
  · rename_i notRefused
    have known : name ∈ m.kernel.symbolsTable := by
      by_contra unknown
      exact notRefused (.inr unknown)
    have sane := ok.books.sane
    have rule : wp (onPaging (buildSpace (platform.images name) ssize))
        (fun space memory => ∃ popped role' rest, Built m.memory.paging role
          free ssize space popped memory.paging role' rest ∧
          space.userStack = (free.drop
            (framesBeforeStack (platform.images name))).headD 0 + ssize + 4 ∧
          Separate memory.paging space.dir 512
            (tableCount (pageCount (ssize + 8))))
        (fun _ _ => True) m.memory := by
      rw [wp_onPaging]
      exact wp_mono (wp_placeSpace sane.layout sane.seen small
        (contained known)) (fun _ _ built => built) fun _ _ _ => trivial
    obtain ⟨-, ⟨space, memory, isBuilt, ⟨popped, role', rest, built, isStack,
      separate⟩, finish⟩ | ⟨memory, -, rfl⟩⟩ := Machine.call_next next rule
    · unfold Machine.finishStart at finish
      simp only at finish
      rw [if_neg accepted] at finish
      split at finish
      · rename_i finished isFinished
        obtain ⟨isPaging, -⟩ := onPaging_ok isFinished
        obtain ⟨bytes, blocks, spaces⟩ := Machine.enter_paging finish
        refine ⟨space, memory.paging, finished.paging, popped, role', rest,
          (onPaging_ok isBuilt).1, built, isStack, separate, isPaging, bytes,
          blocks, ?_⟩
        rw [spaces]
        simp
      · cases finish
    · exact absurd rfl returned

/-- What `start` does with its argument while frames were only taken from the
free list. -/
theorem MachineOk.argument_placed (ok : MachineOk m role free owner)
    (small : ssize ≤ 0x10000000) (order : m.memory.paging.InBootOrder)
    (enough : (linksFrom m.memory.paging.bytes
      (framesOfSpace (platform.images name) ssize)
      m.memory.paging.head).length =
        framesOfSpace (platform.images name) ssize)
    (accepted : ¬ (getFreePid m.kernel = -1 ∨ prio > maxPrio))
    (next : m.step platform (.start name ssize prio arg) = .next m')
    (returned : m'.kernel.mode ≠ .pageFault) :
    ∃ space base built finished,
      buildSpace (platform.images name) ssize m.memory.paging =
        .ok space built ∧
      finishSpace space ssize arg built = .ok () finished ∧
      m'.memory.paging.bytes = finished.bytes ∧
      (m'.spaces m.kernel.nextRef).map ProcessSpace.cr3 = some space.dir ∧
      ⟨base, ssize + 8⟩ ∈ m'.memory.paging.blocks ∧
      space.userStack = base + ssize + 4 ∧
      (ArgumentInPlace m'.memory.paging space base ssize ↔
        32 ≤ ssize ∧ ssize < 0x1000) := by
  have layout := ok.books.sane.layout
  obtain ⟨n, order⟩ := order
  have isFree := layout.free_eq order
  have isEnough : framesOfSpace (platform.images name) ssize ≤ free.length := by
    rw [layout.linksFrom_eq, List.length_take] at enough
    omega
  have consecutive : allFrames = allFrames.take n ++ free := by
    rw [isFree, List.take_append_drop]
  have contains := contains_booting layout consecutive (platform.images name)
    ssize (.inr isEnough)
  obtain ⟨space, built, finished, popped, role', rest, isBuilt, spaceBuilt,
    isHead, separate, isFinished, bytes, blocks, isDir⟩ :=
    ok.start_places small (fun _ => contains) accepted next returned
  obtain ⟨base, isFrame, isStack, member⟩ := spaceBuilt.stack
  have isBase : base =
      (free.drop (framesBeforeStack (platform.images name))).headD 0 := by
    omega
  have room := room_of_enough isFree isEnough isBase
  have layout' := spaceBuilt.evolved.layout
  have evolved := layout'.finishSpace small spaceBuilt.directory isFrame isStack
    member spaceBuilt.opened isFinished
  have seen := seen_finishSpace layout' spaceBuilt.directory isFrame isStack
    member room spaceBuilt.opened separate isFinished
  refine ⟨space, base, built, finished, isBuilt, isFinished, bytes, isDir, ?_,
    isStack, ?_⟩
  · rw [blocks]
    exact evolved.blocks _ member
  · apply argumentInPlace_iff isFrame isStack room
    intro i less
    rw [← seen i less]
    unfold Paging.userFrame
    rw [bytes]

/-- A new process finds its argument exactly when its stack has at least 32
bytes and less than a page. -/
theorem argument_in_place_iff (booted : bootMachine platform = some m)
    (run : MachineRun platform (fun m request => request.Contained platform m)
      m m')
    (name : String) (ssize arg : Nat) (prio : Int) (small : ssize ≤ 0x10000000)
    (order : m'.memory.paging.InBootOrder)
    (enough : (linksFrom m'.memory.paging.bytes
      (framesOfSpace (platform.images name) ssize)
      m'.memory.paging.head).length =
        framesOfSpace (platform.images name) ssize)
    (accepted : ¬ (getFreePid m'.kernel = -1 ∨ prio > maxPrio))
    (next : m'.step platform (.start name ssize prio arg) = .next m'')
    (returned : m''.kernel.mode ≠ .pageFault) :
    ∃ space base built finished,
      buildSpace (platform.images name) ssize m'.memory.paging =
        .ok space built ∧
      finishSpace space ssize arg built = .ok () finished ∧
      m''.memory.paging.bytes = finished.bytes ∧
      (m''.spaces m'.kernel.nextRef).map ProcessSpace.cr3 = some space.dir ∧
      ⟨base, ssize + 8⟩ ∈ m''.memory.paging.blocks ∧
      space.userStack = base + ssize + 4 ∧
      (ArgumentInPlace m''.memory.paging space base ssize ↔
        32 ≤ ssize ∧ ssize < 0x1000) := by
  obtain ⟨role, free, owner, ok⟩ := run.inOrder (inOrder_bootMachine booted)
  exact ok.argument_placed small order enough accepted next returned

/-! ### The first process -/

theorem inBootOrder_bootMachine (booted : bootMachine platform = some m) :
    m.memory.paging.InBootOrder := by
  unfold bootMachine at booted
  split at booted
  · rename_i idle space paging value kernel isPaging isKernel
    cases booted
    obtain ⟨popped, role, rest, popped', role', rest', evolved, -, later, -, -⟩ :=
      bootPaging_ok isPaging
    refine ⟨(popped ++ popped').length, fun count => ?_⟩
    rw [later.layout.linksFrom_eq, evolved.free, later.free,
      ← List.append_assoc, List.drop_left]
  · cases booted

/-- Entries that only concern processes leave the free list alone. -/
theorem MachineRun.inBootOrder
    (run : MachineRun platform (fun _ request => request.isKernel = true) m m')
    (order : m.memory.paging.InBootOrder) : m'.memory.paging.InBootOrder := by
  induction run with
  | refl => exact order
  | @step m₁ m₂ request front isKernel next ih =>
      cases request with
      | kernel a =>
          unfold Machine.step at next
          simp only at next
          split at next
          · cases next
          · obtain ⟨n, order⟩ := ih
            refine ⟨n, fun count => ?_⟩
            rw [(Machine.enter_paging next).1, Machine.enter_head next]
            exact order count
      | start | shmCreate | shmAcquire | shmRelease => cases isKernel

/-- The first process can start another one. -/
theorem placed_of_evaluation (ssize : Nat) (prio : Int)
    (evaluated : ((bootMachine samplePlatform).bind
      (runRequests samplePlatform schedule)).any (fun m' =>
        decide ((linksFrom m'.memory.paging.bytes
          (framesOfSpace (samplePlatform.images "autotest") ssize)
          m'.memory.paging.head).length =
            framesOfSpace (samplePlatform.images "autotest") ssize) &&
        decide (¬ (getFreePid m'.kernel = -1 ∨ prio > maxPrio)) &&
        match m'.step samplePlatform (.start "autotest" ssize prio 7) with
        | .next m'' => decide (m''.kernel.mode ≠ .pageFault)
        | _ => false) = true) :
    ∃ m m' m'', bootMachine samplePlatform = some m ∧
      MachineRun samplePlatform
        (fun m request => request.Contained samplePlatform m) m m' ∧
      m'.memory.paging.InBootOrder ∧
      (linksFrom m'.memory.paging.bytes
        (framesOfSpace (samplePlatform.images "autotest") ssize)
        m'.memory.paging.head).length =
          framesOfSpace (samplePlatform.images "autotest") ssize ∧
      ¬ (getFreePid m'.kernel = -1 ∨ prio > maxPrio) ∧
      m'.step samplePlatform (.start "autotest" ssize prio 7) = .next m'' ∧
      m''.kernel.mode ≠ .pageFault := by
  obtain ⟨m, m', booted, run, passed⟩ := run_of_evaluation samplePlatform
    schedule (fun _ request => request.isKernel) (fun _ _ isKernel => isKernel)
    _ (by decide +kernel) evaluated
  simp only [Bool.and_eq_true, decide_eq_true_eq] at passed
  obtain ⟨⟨enough, accepted⟩, passed⟩ := passed
  split at passed
  · rename_i m'' next
    refine ⟨m, m', m'', booted, run.mono ?_,
      run.inBootOrder (inBootOrder_bootMachine booted), enough, accepted, next,
      of_decide_eq_true passed⟩
    intro m request isKernel
    cases request with
    | kernel a => trivial
    | start | shmCreate | shmAcquire | shmRelease => cases isKernel
  · cases passed

/-- A stack of 4000 bytes. -/
theorem argument_in_place_short : ∃ m m' m'' space base,
    bootMachine samplePlatform = some m ∧
    MachineRun samplePlatform
      (fun m request => request.Contained samplePlatform m) m m' ∧
    m'.step samplePlatform (.start "autotest" 4000 1 7) = .next m'' ∧
    (m''.spaces m'.kernel.nextRef).map ProcessSpace.cr3 =
      some space.dir ∧
    ArgumentInPlace m''.memory.paging space base 4000 := by
  obtain ⟨m, m', m'', booted, run, order, enough, accepted, next, returned⟩ :=
    placed_of_evaluation 4000 1 (by decide +kernel)
  obtain ⟨space, base, built, finished, -, -, -, isDir, -, -, places⟩ :=
    argument_in_place_iff booted run "autotest" 4000 7 1 (by decide) order enough
      accepted next returned
  exact ⟨m, m', m'', space, base, booted, run, next, isDir,
    places.mpr (by decide)⟩

/-- A stack of 4096 bytes. -/
theorem argument_out_of_place : ∃ m m' m'' space base,
    bootMachine samplePlatform = some m ∧
    MachineRun samplePlatform
      (fun m request => request.Contained samplePlatform m) m m' ∧
    m'.memory.paging.InBootOrder ∧
    m'.step samplePlatform (.start "autotest" 4096 1 7) = .next m'' ∧
    m''.kernel.mode ≠ .pageFault ∧
    (m''.spaces m'.kernel.nextRef).map ProcessSpace.cr3 = some space.dir ∧
    ⟨base, 4096 + 8⟩ ∈ m''.memory.paging.blocks ∧
    space.userStack = base + 4096 + 4 ∧
    ¬ ArgumentInPlace m''.memory.paging space base 4096 := by
  obtain ⟨m, m', m'', booted, run, order, enough, accepted, next, returned⟩ :=
    placed_of_evaluation 4096 1 (by decide +kernel)
  obtain ⟨role, free, owner, ok⟩ := run.inOrder (inOrder_bootMachine booted)
  obtain ⟨space, base, built, finished, -, -, -, isDir, member, isStack,
    places⟩ :=
    ok.argument_placed (by decide) order enough accepted next returned
  exact ⟨m, m', m'', space, base, booted, run, order, next, returned, isDir,
    member, isStack, places.not.mpr (by decide)⟩

end Runs

end Nebulea
