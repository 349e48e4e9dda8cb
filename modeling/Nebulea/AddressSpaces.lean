import Nebulea.PagingPrograms

/-!
# Address spaces of new processes

`start` copies a program into one block, makes a page directory and a stack,
and maps both.  It writes to whole blocks although `virtual_malloc` hands out
single frames, so it stays within its own memory only when the frames that
follow each other in memory also follow each other in the free list.
-/

namespace Nebulea

open ByteMemory ExceptState

/-- The first `count` elements of the free list, as the links give them. -/
def linksFrom (bytes : Bytes) : Nat → Nat → List Nat
  | 0, _ => []
  | count + 1, head =>
      if head = 0 then [] else head :: linksFrom bytes count (load32 bytes head)

/-- The frames that `start` takes before those of the user stack. -/
def framesBeforeStack (image : Image) : Nat :=
  pageCount image.size + 1 + tableCount (pageCount image.size)

/-- The frames that `start` takes. -/
def framesOfSpace (image : Image) (ssize : Nat) : Nat :=
  framesBeforeStack image + pageCount (ssize + 8) +
    tableCount (pageCount (ssize + 8))

/-- Each of the two blocks of `start` covers no frame but those that
`virtual_malloc` takes for it, and the free list does not end in a null pointer
that can be followed. -/
structure Paging.Contains (p : Paging) (image : Image) (ssize : Nat) :
    Prop where
  imageFits : Fits ((linksFrom p.bytes (framesOfSpace image ssize) p.head).take
    (pageCount image.size)) image.size
  stackFits : Fits (((linksFrom p.bytes (framesOfSpace image ssize) p.head).drop
    (framesBeforeStack image)).take (pageCount (ssize + 8))) (ssize + 8)
  enough : p.Guarded ∨
    (linksFrom p.bytes (framesOfSpace image ssize) p.head).length =
      framesOfSpace image ssize

variable {p : Paging} {role : Nat → Role} {free : List Nat}

theorem Linked.linksFrom_eq {bytes : Bytes} {head : Nat}
    (linked : Linked bytes head free) (nonNull : ∀ f ∈ free, f ≠ 0)
    (count : Nat) : linksFrom bytes count head = free.take count := by
  induction count generalizing head free with
  | zero => simp [linksFrom]
  | succ count ih =>
      cases free with
      | nil =>
          have isNull : head = 0 := linked
          simp [linksFrom, isNull]
      | cons f rest =>
          obtain ⟨isHead, linked⟩ := linked
          rw [isHead] at *
          have isFrame := nonNull f List.mem_cons_self
          unfold linksFrom
          rw [if_neg isFrame, List.take_succ_cons]
          rw [ih linked fun g member => nonNull g (List.mem_cons_of_mem f member)]

theorem Layout.isFrame_of_mem (layout : Layout p role free) {f : Nat}
    (member : f ∈ free) : IsFrame f := by
  apply layout.isFrame
  rw [(layout.mem_free f).mp member]
  decide

theorem Layout.linksFrom_eq (layout : Layout p role free) (count : Nat) :
    linksFrom p.bytes count p.head = free.take count := by
  apply layout.linked.linksFrom_eq
  intro f member
  have bounds := (layout.isFrame_of_mem member).lt
  omega

/-- There are 12288 frames. -/
theorem Layout.length_le (layout : Layout p role free) :
    free.length ≤ 12288 := by
  have distinct : (free.map fun f => (f - memoryStart) / stride).Nodup := by
    apply layout.nodup.map_on
    intro f member g member' same
    have isFrame := layout.isFrame_of_mem member
    have isFrame' := layout.isFrame_of_mem member'
    unfold IsFrame memoryStart stride at *
    omega
  have bounded : free.map (fun f => (f - memoryStart) / stride) ⊆
      List.range 12288 := by
    intro k member
    obtain ⟨f, isFree, rfl⟩ := List.mem_map.mp member
    have bounds := (layout.isFrame_of_mem isFree).lt
    rw [List.mem_range]
    unfold memoryStart stride
    omega
  have counted := (List.subperm_of_subset distinct bounded).length_le
  simpa using counted

/-! ## Writing to blocks -/

/-- Neither the bytes of a block nor those just before it are structural. -/
theorem Layout.not_structural_block (layout : Layout p role free)
    {block : Block} (member : block ∈ p.blocks) {x : Nat}
    (low : block.base ≤ x + 0x3000) (high : x < block.base + block.size) :
    ¬ Structural role x := by
  obtain ⟨isFrame, -⟩ := layout.blocks.isFrame block member
  have bounds := isFrame.lt
  rintro (inKernel | ⟨g, isRole, low', high'⟩)
  · unfold pgdir at inKernel
    omega
  · have used : role g ≠ .data := by
      rcases isRole with isRole | isRole <;> rw [isRole] <;> decide
    have isFrame' := layout.isFrame g used
    have far := isFrame.eq_or_far isFrame'
    exact used (layout.blocks.data block member g isFrame'
      ⟨by omega, by omega⟩)

/-- Stores inside or just before a block. -/
theorem Layout.writeBlock (layout : Layout p role free) {block : Block}
    (member : block ∈ p.blocks) (bytes' : Bytes)
    (same : ∀ x, x + 0x3000 < block.base ∨ block.base + block.size ≤ x →
      bytes' x = p.bytes x) :
    Evolved p role free [] { p with bytes := bytes' } role free ∧
      SameTargets role p { p with bytes := bytes' } := by
  have entries : SameEntries role p.bytes bytes' := by
    apply SameEntries.of_structural
    intro x structural
    apply same
    by_contra inside
    exact layout.not_structural_block member (by omega) (by omega) structural
  constructor
  · exact .of_layout (layout.write entries) rfl rfl rfl
      (entries.table 0 (by decide))
  · intro d isDirectory j less
    change frameBits (load32 bytes' _) = _
    rw [entries.directory d isDirectory j less]

/-- `memcpy` of a program into its block. -/
theorem wp_memcpy (layout : Layout p role free) {a size : Nat}
    {content : Nat → Nat}
    (member : 0 < size → IsFrame a ∧ ⟨a, size⟩ ∈ p.blocks) :
    wp (memcpy a size content)
      (fun _ p' => Evolved p role free [] p' role free ∧ SameTargets role p p' ∧
        p'.blocks = p.blocks)
      (Faulted p role free) p := by
  unfold memcpy
  simp only [wp_bind, wp_get]
  by_cases none : size = 0
  · rw [if_pos none]
    exact ⟨.refl layout, fun _ _ _ _ => rfl, rfl⟩
  · obtain ⟨isFrame, inBlocks⟩ := member (Nat.pos_of_ne_zero none)
    have bounds := isFrame.lt
    have written := layout.writeBlock inBlocks
      (storeBytes p.bytes a (min size (memoryEnd - a)) content) (by
        intro x outside
        have isOutside : x < a ∨ a + min size (memoryEnd - a) ≤ x := by
          simp only at outside
          omega
        exact storeBytes_outside isOutside)
    rw [if_neg none, if_pos (mapped (by omega) (by omega))]
    simp only [wp_bind, wp_set]
    split
    · exact fun _ => ⟨[], role, free, written.1⟩
    · exact ⟨written.1, written.2, rfl⟩

/-! ## `start` -/

/-- `fill_new_pgdir` turns a frame just taken into a directory that shares the
kernel's page tables and has no other. -/
theorem wp_fillNewPgdir {d : Nat} {post : Unit → Paging → Prop}
    {fault : Fault → Paging → Prop} (layout : Layout p role free)
    (spare : Spare p role d)
    (hidden : isUser (load32 p.bytes (sharedEntry d)) = false)
    (seen : idleBlock ∈ p.blocks)
    (holds : ∀ filled, load32 filled pgtab = load32 p.bytes pgtab →
      Layout { p with bytes := filled } (assign role [d] .directory) free →
      Opened { p with bytes := filled } d 64 0 →
      post () { p with bytes := filled }) :
    wp (fillNewPgdir d pgdir) post fault p := by
  have bounds := spare.isFrame.lt
  unfold fillNewPgdir
  simp only [wp_bind, wp_get]
  apply wp_storeArray (by omega) (by omega) (by omega)
  generalize isWords : (fun i => if i < 64 then load32 p.bytes (pgdir + 4 * i)
    else 0) = words
  generalize isFilled : storeWords p.bytes d 1024 words = filled
  have apart : ∀ b, b + 4 ≤ d ∨ d + 0x1000 ≤ b →
      load32 filled b = load32 p.bytes b := by
    intro b outside
    rw [← isFilled]
    exact load32_storeWords_apart (by omega)
  have content : ∀ i, i < 1024 → load32 filled (d + 4 * i) =
      if i < 64 then load32 p.bytes (pgdir + 4 * i) else 0 := by
    intro i less
    have isWord : words i =
        if i < 64 then load32 p.bytes (pgdir + 4 * i) else 0 := by
      rw [← isWords]
    rw [← isFilled, load32_storeWords less, isWord]
    split
    · exact Nat.mod_eq_of_lt (load32_lt _ _)
    · rfl
  have written := layout.write (layout.sameEntries spare.isFrame
    (.inr spare.data) filled (by
      intro x outside
      rw [← isFilled]
      exact storeWords_outside (by omega)))
  have isKernel : IsDirectory role pgdir := .inl rfl
  have entries : ∀ i, i < 1024 → EntryOk role i (load32 filled (d + 4 * i)) := by
    intro i less
    rw [content i less]
    split
    · next low =>
        refine ⟨load32_lt _ _, ?_, by omega, ?_⟩
        · exact fun _ => layout.tables.shared pgdir isKernel i low
        · rintro rfl
          exact (layout.seen seen).directories pgdir isKernel
    · next high =>
        refine ⟨by decide, by omega, fun _ => .inl rfl, ?_⟩
        rintro rfl
        exact absurd (show pdIndex memoryStart < 64 by decide) high
  have isDirectory := written.retype ⟨spare.isFrame, spare.data, spare.uncovered⟩
    (by
      change isUser (load32 filled (sharedEntry d)) = false
      rw [apart _ (by unfold sharedEntry pgtab; omega)]
      exact hidden)
    .directory (by decide) (fun _ => entries)
  apply holds filled (apart pgtab (by unfold pgtab; omega)) isDirectory
  intro j low less
  change frameBits (load32 filled (d + 4 * j)) = 0 ↔ _
  rw [content j less, if_neg (by omega)]
  constructor
  · exact fun _ => by omega
  · exact fun _ => rfl

/-- Steps 3 and 4 of `start`: a new page directory. -/
theorem wp_newDirectory {Value : Type} {next : Nat → PM Value}
    {post : Value → Paging → Prop} {fault : Fault → Paging → Prop}
    (layout : Layout p role free) (seen : idleBlock ∈ p.blocks)
    (safe : p.Guarded ∨ free ≠ [])
    (holds : ∀ d rest q,
      Evolved p role free [d] q (assign role [d] .directory) rest →
      q.blocks = p.blocks → Opened q d 64 0 → wp (next d) post fault q)
    (empty : free = [] → fault .page p) :
    wp (do
      let dir ← allocatePhysicalMemoryAddress
      fillNewPgdir dir pgdir
      next dir) post fault p := by
  rw [wp_bind]
  apply wp_allocate layout safe _ empty
  rintro d rest rfl
  obtain ⟨isFrame, uncovered, hidden⟩ := layout.spare_pop
  have isData : assign role [d] .data d = .data :=
    assign_of_mem (List.mem_singleton.mpr rfl)
  rw [wp_bind]
  apply wp_fillNewPgdir (layout.pop (d :: p.taken))
    ⟨isFrame, isData, uncovered⟩ hidden seen
  intro filled first isDirectory opened
  have roles : assign (assign role [d] .data) [d] .directory =
      assign role [d] .directory := by
    funext g
    by_cases same : g = d <;> simp [assign, same]
  rw [roles] at isDirectory
  exact holds d rest _ ⟨isDirectory, rfl,
    fun g notMember => assign_of_notMem notMember, rfl, fun _ member => member,
    rfl, first⟩ rfl opened

theorem Layout.idle_notFree (layout : Layout p role free)
    (seen : idleBlock ∈ p.blocks) : role memoryStart ≠ .free := by
  rw [layout.blocks.data idleBlock seen memoryStart .memoryStart
    idleBlock_covers]
  decide

/-- What steps 2 to 5 of `start` have made of a memory. -/
structure Loaded (p : Paging) (role : Nat → Role) (free : List Nat)
    (image : Image) (d : Nat) (popped : List Nat) (p' : Paging)
    (role' : Nat → Role) (rest : List Nat) : Prop where
  evolved : Evolved p role free popped p' role' rest
  length : popped.length = framesBeforeStack image
  member : d ∈ popped
  directory : role' d = .directory
  opened : Opened p' d 512 0

theorem wp_loadProgram {image : Image} (layout : Layout p role free)
    (seen : idleBlock ∈ p.blocks)
    (fits : Fits (free.take (pageCount image.size)) image.size)
    (enough : p.Guarded ∨ framesBeforeStack image ≤ free.length) :
    wp (loadProgram image)
      (fun d p' => ∃ popped role' rest,
        Loaded p role free image d popped p' role' rest)
      (Faulted p role free) p := by
  have total := layout.length_le
  unfold framesBeforeStack at enough
  have safe₁ : p.Guarded ∨ pageCount image.size ≤ free.length :=
    enough.imp_right fun isAll => by omega
  unfold loadProgram
  rw [wp_bind]
  -- the block of the program
  apply wp_mono (wp_virtualMalloc layout safe₁ fits (layout.idle_notFree seen))
  case onFault => exact fun _ _ faulted => faulted
  rintro code p₁ ⟨popped₁, rest₁, evolved₁, length₁, -, -, inBlocks⟩
  have total₁ : free.length = popped₁.length + rest₁.length := by
    rw [evolved₁.free, List.length_append]
  -- the page directory
  apply wp_newDirectory evolved₁.layout (evolved₁.blocks _ seen)
  case safe =>
    rcases enough with guarded | isAll
    · exact .inl (evolved₁.guarded guarded)
    · right
      rintro rfl
      rw [List.length_nil] at total₁
      omega
  case empty => exact fun _ => .after evolved₁ (.refl evolved₁.layout .page)
  intro d rest₂ p₂ evolved₂ blocks₂ opened₂
  have total₂ : rest₁.length = 1 + rest₂.length := by
    rw [evolved₂.free, List.length_append, List.length_singleton]
  have evolved₁₂ := evolved₁.trans evolved₂
  have isDirectory₂ : IsDirectory (assign (assign role popped₁ .data) [d]
      .directory) d :=
    .inr (assign_of_mem (List.mem_singleton.mpr rfl))
  -- the copy of the program
  rw [wp_bind]
  apply wp_mono (wp_memcpy evolved₂.layout (by
    intro positive
    rw [blocks₂]
    exact inBlocks positive))
  case onFault => exact fun _ _ faulted => .after evolved₁₂ faulted
  rintro - p₃ ⟨evolved₃, targets₃, -⟩
  have evolved₁₃ := evolved₁₂.trans evolved₃
  have opened₃ : Opened p₃ d 256 0 := by
    intro j low less
    rw [targets₃ d isDirectory₂ j less, opened₂ j (by omega) less]
    omega
  -- its mapping
  have reach : 0 < pageCount image.size →
      code + 0x1000 * pageCount image.size ≤ 0x100000000 := by
    intro some
    have positive : 0 < image.size := by
      unfold pageCount at some
      omega
    have bounds := (inBlocks positive).1.lt
    omega
  have safe₃ : p₃.Guarded ∨
      max 0 (tableCount (0 + pageCount image.size)) - 0 ≤ rest₂.length := by
    rcases enough with guarded | isAll
    · exact .inl (evolved₁₃.guarded guarded)
    · right
      rw [Nat.zero_add]
      omega
  rw [wp_bind]
  apply wp_mono (wp_copyPages evolved₃.layout (.inl rfl)
    (evolved₃.isDirectory evolved₂.layout isDirectory₂) (by decide)
    (by omega : 256 * 1024 + 0 + pageCount image.size ≤ 0x100000) reach
    opened₃ (by decide) safe₃)
  case onFault => exact fun _ _ faulted => .after evolved₁₃ faulted
  rintro - p₄ ⟨popped₄, rest₄, evolved₄, -, length₄, opened₄, -⟩
  rw [Nat.zero_add, Nat.zero_max, Nat.sub_zero] at length₄
  rw [Nat.zero_add, Nat.zero_max] at opened₄
  have few : tableCount (pageCount image.size) ≤ 12 := by
    unfold tableCount
    omega
  rw [wp_pure]
  refine ⟨_, _, rest₄, evolved₁₃.trans evolved₄, ?_, ?_, ?_, ?_⟩
  · unfold framesBeforeStack
    simp only [List.length_append, List.length_singleton, List.length_nil,
      length₁, length₄]
  · simp
  · rcases evolved₄.isDirectory evolved₃.layout
      (evolved₃.isDirectory evolved₂.layout isDirectory₂) with isKernel | isRole
    · have bounds : IsFrame d := by
        apply evolved₂.layout.isFrame
        rw [assign_of_mem (List.mem_singleton.mpr rfl)]
        decide
      rw [isKernel] at bounds
      exact absurd bounds (by decide)
    · exact isRole
  · intro j low less
    rw [opened₄ j (by omega) less]
    omega

/-- What `start` has made of a memory when it looks for a pid. -/
structure Built (p : Paging) (role : Nat → Role) (free : List Nat)
    (ssize : Nat) (space : Space) (popped : List Nat) (p' : Paging)
    (role' : Nat → Role) (rest : List Nat) : Prop where
  evolved : Evolved p role free popped p' role' rest
  member : space.dir ∈ popped
  directory : role' space.dir = .directory
  stack : ∃ base, IsFrame base ∧ space.userStack = base + ssize + 4 ∧
    ⟨base, ssize + 8⟩ ∈ p'.blocks
  opened : Opened p' space.dir 512 (tableCount (pageCount (ssize + 8)))

/-- Steps 2 to 6 of `start`, with the place of the stack and its page
tables. -/
theorem wp_placeSpace {image : Image} {ssize : Nat}
    (layout : Layout p role free) (seen : idleBlock ∈ p.blocks)
    (small : ssize ≤ 0x10000000) (contains : p.Contains image ssize) :
    wp (buildSpace image ssize)
      (fun space p' => ∃ popped role' rest,
        Built p role free ssize space popped p' role' rest ∧
        space.userStack =
          (free.drop (framesBeforeStack image)).headD 0 + ssize + 4 ∧
        Separate p' space.dir 512 (tableCount (pageCount (ssize + 8))))
      (Faulted p role free) p := by
  obtain ⟨imageFits, stackFits, enough⟩ := contains
  have imageLess : pageCount image.size ≤ framesOfSpace image ssize := by
    unfold framesOfSpace framesBeforeStack
    omega
  rw [layout.linksFrom_eq] at imageFits stackFits enough
  rw [List.take_take, Nat.min_eq_left imageLess] at imageFits
  rw [List.length_take] at enough
  have enough' : p.Guarded ∨ framesBeforeStack image + pageCount (ssize + 8) +
      tableCount (pageCount (ssize + 8)) ≤ free.length := by
    unfold framesOfSpace at enough
    exact enough.imp_right fun isAll => by omega
  have stackLess : pageCount (ssize + 8) ≤ 0x10001 := by
    unfold pageCount
    omega
  unfold buildSpace
  rw [wp_bind]
  apply wp_mono (wp_loadProgram layout seen imageFits
    (enough'.imp_right fun isAll => by omega))
  case onFault => exact fun _ _ faulted => faulted
  rintro d p₁ ⟨popped₁, role₁, rest₁, evolved₁, length₁, member₁, isDirectory₁,
    opened₁⟩
  have total₁ : free.length = popped₁.length + rest₁.length := by
    rw [evolved₁.free, List.length_append]
  -- the block of the stack
  have isRest : ((free.take (framesOfSpace image ssize)).drop
      (framesBeforeStack image)).take (pageCount (ssize + 8)) =
        rest₁.take (pageCount (ssize + 8)) := by
    have wide : pageCount (ssize + 8) ≤
        framesOfSpace image ssize - framesBeforeStack image := by
      unfold framesOfSpace
      omega
    rw [List.drop_take, List.take_take, Nat.min_eq_left wide, evolved₁.free,
      List.drop_left' length₁]
  rw [isRest] at stackFits
  have safe₁ : p₁.Guarded ∨ pageCount (ssize + 8) ≤ rest₁.length := by
    rcases enough' with guarded | isAll
    · exact .inl (evolved₁.guarded guarded)
    · exact .inr (by omega)
  rw [wp_bind]
  apply wp_mono (wp_virtualMalloc evolved₁.layout safe₁ stackFits
    (evolved₁.layout.idle_notFree (evolved₁.blocks _ seen)))
  case onFault => exact fun _ _ faulted => .after evolved₁ faulted
  rintro base p₂ ⟨popped₂, rest₂, evolved₂, length₂, isHead, targets₂, inBlocks⟩
  obtain ⟨isFrame, inBlocks⟩ := inBlocks (by omega)
  have bounds := isFrame.lt
  have isBase : base = (free.drop (framesBeforeStack image)).headD 0 := by
    rw [isHead, evolved₁.free, List.drop_left' length₁, evolved₂.free]
    cases popped₂ with
    | nil =>
        rw [isHead] at bounds
        exact absurd bounds.1 (by decide)
    | cons f others => rfl
  have total₂ : rest₁.length = popped₂.length + rest₂.length := by
    rw [evolved₂.free, List.length_append]
  have opened₂ : Opened p₂ d 512 0 := opened₁.congr (targets₂ d (.inr isDirectory₁))
  have isDirectory₂ := evolved₂.isDirectory evolved₁.layout (.inr isDirectory₁)
  have evolved₁₂ := evolved₁.trans evolved₂
  -- its mapping
  have safe₂ : p₂.Guarded ∨
      max 0 (tableCount (0 + pageCount (ssize + 8))) - 0 ≤ rest₂.length := by
    rcases enough' with guarded | isAll
    · exact .inl (evolved₁₂.guarded guarded)
    · right
      rw [Nat.zero_add]
      omega
  rw [wp_bind]
  apply wp_mono (wp_copyPages evolved₂.layout (.inl rfl) isDirectory₂ (by decide)
    (by omega : 512 * 1024 + 0 + pageCount (ssize + 8) ≤ 0x100000) (by omega)
    opened₂ (by decide) safe₂)
  case onFault => exact fun _ _ faulted => .after evolved₁₂ faulted
  rintro - p₃ ⟨popped₃, rest₃, evolved₃, blocks₃, -, opened₃, separate₃⟩
  rw [Nat.zero_add, Nat.zero_max] at opened₃ separate₃
  have none : Separate p₂ d 512 0 := fun j _ less => absurd less (by omega)
  rw [wp_pure]
  refine ⟨_, _, rest₃, ⟨evolved₁₂.trans evolved₃, ?_, ?_, ?_, opened₃⟩, ?_,
    separate₃ none⟩
  · simp [member₁]
  · rcases evolved₃.isDirectory evolved₂.layout isDirectory₂ with
      isKernel | isRole
    · have isDirFrame : IsFrame d := by
        apply evolved₁.layout.isFrame
        rw [isDirectory₁]
        decide
      rw [isKernel] at isDirFrame
      exact absurd isDirFrame (by decide)
    · exact isRole
  · refine ⟨base, isFrame, rfl, ?_⟩
    rw [blocks₃]
    exact inBlocks
  · rw [← isBase]

/-- Steps 2 to 6 of `start`. -/
theorem wp_buildSpace {image : Image} {ssize : Nat}
    (layout : Layout p role free) (seen : idleBlock ∈ p.blocks)
    (small : ssize ≤ 0x10000000) (contains : p.Contains image ssize) :
    wp (buildSpace image ssize)
      (fun space p' => ∃ popped role' rest,
        Built p role free ssize space popped p' role' rest)
      (Faulted p role free) p := by
  apply wp_mono (wp_placeSpace layout seen small contains)
  · rintro space p' ⟨popped, role', rest, built, -, -⟩
    exact ⟨popped, role', rest, built⟩
  · exact fun _ _ faulted => faulted

/-- The end of `start` takes no frame. -/
theorem Layout.finishSpace {ssize arg base : Nat} {space : Space}
    {value : Unit} {p' : Paging} (layout : Layout p role free)
    (small : ssize ≤ 0x10000000)
    (directory : role space.dir = .directory) (isFrame : IsFrame base)
    (isStack : space.userStack = base + ssize + 4)
    (member : ⟨base, ssize + 8⟩ ∈ p.blocks)
    (opened : Opened p space.dir 512 (tableCount (pageCount (ssize + 8))))
    (finished : finishSpace space ssize arg p = .ok value p') :
    Evolved p role free [] p' role free := by
  have bounds := isFrame.lt
  have address : (space.userStack + 0x100000000 - 36) % 0x100000000 =
      base + ssize - 32 := by
    omega
  -- the program is named so that nothing tries to run it
  generalize isCode : Nebulea.finishSpace space ssize arg = code at finished
  suffices rule : wp code (fun _ p' => Evolved p role free [] p' role free)
      (fun _ _ => True) p by
    have holds := wp_ok rule finished
    exact holds
  rw [← isCode]
  unfold Nebulea.finishSpace
  rw [address, wp_bind]
  by_cases isMapped : p.Mapped (base + ssize - 32)
  · apply wp_store isMapped
    have written := layout.writeBlock member
      (store32 p.bytes (base + ssize - 32) arg) (by
        intro x outside
        simp only at outside
        exact store32_outside (by omega))
    obtain ⟨evolved, targets⟩ := written
    have stackLess : pageCount (ssize + 8) ≤ 0x10001 := by
      unfold pageCount
      omega
    have same : max (tableCount (pageCount (ssize + 8)))
        (tableCount (0 + pageCount (ssize + 8))) =
          tableCount (pageCount (ssize + 8)) := by
      rw [Nat.zero_add, Nat.max_self]
    have reach : 0 < pageCount (ssize + 8) →
        space.userStack - 4 + 0x1000 * pageCount (ssize + 8) ≤ 0x100000000 := by
      omega
    have inside : 512 * 1024 + 0 + pageCount (ssize + 8) ≤ 0x100000 := by
      omega
    unfold pgdirCopy
    apply wp_mono (wp_copyPages evolved.layout (.inl rfl) (.inr directory)
      (by decide) inside reach
      (opened.congr (targets space.dir (.inr directory))) (Nat.zero_le _)
      (.inr (by rw [same, Nat.sub_self]; exact Nat.zero_le _)))
    case onFault => exact fun _ _ _ => trivial
    rintro - p₂ ⟨popped, rest, evolved₂, -, length, -⟩
    rw [same, Nat.sub_self, List.length_eq_zero_iff] at length
    subst length
    rw [assign_nil] at evolved₂
    have isRest : free = rest := evolved₂.free
    rw [← isRest] at evolved₂
    exact evolved.trans evolved₂
  · unfold store
    simp [isMapped]

end Nebulea
