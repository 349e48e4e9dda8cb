import Nebulea.Mmu
import Nebulea.ExceptStateWp
import Mathlib.Data.List.Pairwise

/-!
# What the frames of physical memory hold

Every frame of the initial free list is free, a page directory, a page table
or data.  `Layout` says that memory agrees with such an assignment of roles:
the free frames are chained, the directories share the kernel's page tables,
those tables map the memory one to one, and only data is visible to user code
there.  Nothing is said of what the other page tables and the data contain.
-/

namespace Nebulea

open ByteMemory

inductive Role where
  | free
  | directory
  | table
  | data
  deriving DecidableEq, Repr

/-- The frames that `init_free_list` chains. -/
def IsFrame (f : Nat) : Prop :=
  memoryStart ≤ f ∧ f < memoryEnd ∧ (f - memoryStart) % stride = 0

instance (f : Nat) : Decidable (IsFrame f) :=
  inferInstanceAs (Decidable (_ ∧ _ ∧ _))

/-- The list found in memory from `head` on. -/
def Linked (bytes : Bytes) : Nat → List Nat → Prop
  | head, [] => head = 0
  | head, f :: rest => head = f ∧ Linked bytes (load32 bytes f) rest

/-- The address of the shared entry for an address. -/
def sharedEntry (a : Nat) : Nat :=
  pgtab + 4 * (a / 0x1000)

def IsDirectory (role : Nat → Role) (d : Nat) : Prop :=
  d = pgdir ∨ role d = .directory

def Block.Covers (block : Block) (a : Nat) : Prop :=
  block.base ≤ a ∧ a < block.base + block.size

instance (block : Block) (a : Nat) : Decidable (block.Covers a) :=
  inferInstanceAs (Decidable (_ ∧ _))

/-- No byte belongs to both blocks. -/
def Block.Apart (first second : Block) : Prop :=
  ∀ a, first.Covers a → ¬ second.Covers a

instance : Std.Symm Block.Apart where
  symm := fun _ _ apart a covers covers' => apart a covers' covers

/-- The record of idle. -/
def idleBlock : Block :=
  ⟨memoryStart, sizeofProcess⟩

/-- The page directories and the kernel's page tables. -/
structure Tables (bytes : Bytes) (role : Nat → Role) : Prop where
  shared : ∀ d, IsDirectory role d → ∀ i, i < 64 →
    frameBits (load32 bytes (d + 4 * i)) = pgtab + 0x1000 * i
  own : ∀ d, IsDirectory role d → ∀ i, 64 ≤ i → i < 1024 →
    frameBits (load32 bytes (d + 4 * i)) = 0 ∨
      role (frameBits (load32 bytes (d + 4 * i))) = .table
  identity : ∀ page, memoryStart ≤ 0x1000 * page →
    0x1000 * page < memoryEnd →
    frameBits (load32 bytes (pgtab + 4 * page)) = 0x1000 * page
  hidden : ∀ f, role f ≠ .data →
    isUser (load32 bytes (sharedEntry f)) = false

/-- User code reaches the first frame in every address space. -/
structure IdleSeen (bytes : Bytes) (role : Nat → Role) : Prop where
  entry : isPresent (load32 bytes (sharedEntry memoryStart)) = true ∧
    isUser (load32 bytes (sharedEntry memoryStart)) = true
  directories : ∀ d, IsDirectory role d →
    isPresent (load32 bytes (d + 4 * pdIndex memoryStart)) = true ∧
      isUser (load32 bytes (d + 4 * pdIndex memoryStart)) = true

/-- The blocks lie in frames that hold data and do not overlap. -/
structure BlocksOk (blocks : List Block) (role : Nat → Role) : Prop where
  isFrame : ∀ block ∈ blocks, IsFrame block.base ∧ 0 < block.size
  data : ∀ block ∈ blocks, ∀ f, IsFrame f → block.Covers f → role f = .data
  apart : blocks.Pairwise Block.Apart

/-- Memory agrees with the roles of the frames. -/
structure Layout (p : Paging) (role : Nat → Role) (free : List Nat) :
    Prop where
  linked : Linked p.bytes p.head free
  nodup : free.Nodup
  mem_free : ∀ f, f ∈ free ↔ role f = .free
  isFrame : ∀ f, role f ≠ .data → IsFrame f
  tables : Tables p.bytes role
  seen : idleBlock ∈ p.blocks → IdleSeen p.bytes role
  blocks : BlocksOk p.blocks role
  released : ∀ f ∈ p.released, role f = .free
  cr3 : IsDirectory role p.cr3

/-! ## Addresses -/

theorem IsFrame.aligned {f : Nat} (isFrame : IsFrame f) : f % 0x1000 = 0 := by
  obtain ⟨low, -, multiple⟩ := isFrame
  unfold memoryStart stride at *
  omega

theorem IsFrame.lt {f : Nat} (isFrame : IsFrame f) :
    0x4000000 ≤ f ∧ f + 0x4000 ≤ 0x10000000 := by
  obtain ⟨low, high, multiple⟩ := isFrame
  unfold memoryStart memoryEnd stride at *
  omega

theorem IsFrame.memoryStart : IsFrame memoryStart := by
  decide

/-- Two frames are equal or far from each other. -/
theorem IsFrame.eq_or_far {f g : Nat} (isFrame : IsFrame f)
    (isFrame' : IsFrame g) : f = g ∨ f + 0x4000 ≤ g ∨ g + 0x4000 ≤ f := by
  obtain ⟨low, -, multiple⟩ := isFrame
  obtain ⟨low', -, multiple'⟩ := isFrame'
  unfold Nebulea.memoryStart stride at *
  omega

variable {p : Paging} {role : Nat → Role} {free : List Nat} {bytes : Bytes}

theorem Layout.directory_bounds (layout : Layout p role free) {d : Nat}
    (isDirectory : IsDirectory role d) :
    d % 0x1000 = 0 ∧ (d = 0x101000 ∨ 0x4000000 ≤ d ∧ d + 0x4000 ≤ 0x10000000) := by
  rcases isDirectory with rfl | isRole
  · exact ⟨rfl, .inl rfl⟩
  · have isFrame := layout.isFrame d (by rw [isRole]; decide)
    exact ⟨isFrame.aligned, .inr isFrame.lt⟩

/-- Two directories are equal or do not overlap. -/
theorem Layout.directory_eq_or_far (layout : Layout p role free) {d e : Nat}
    (isDirectory : IsDirectory role d) (isDirectory' : IsDirectory role e) :
    d = e ∨ d + 0x1000 ≤ e ∨ e + 0x1000 ≤ d := by
  have bounds := layout.directory_bounds isDirectory
  have bounds' := layout.directory_bounds isDirectory'
  omega

/-- The frame of a null-free entry for a high address is a page table. -/
theorem Layout.directory_ne_free (layout : Layout p role free) {d f : Nat}
    (isDirectory : IsDirectory role d) (isFree : role f = .free) :
    d + 0x1000 ≤ f ∨ f + 0x1000 ≤ d := by
  have isFrame := layout.isFrame f (by rw [isFree]; decide)
  have bounds := layout.directory_bounds isDirectory
  have low := isFrame.lt
  have aligned := isFrame.aligned
  rcases isDirectory with rfl | isRole
  · unfold pgdir at *
    omega
  · have distinct : d ≠ f := by
      rintro rfl
      rw [isRole] at isFree
      cases isFree
    omega

/-! ## Stores -/

/-- The bytes that `Layout` speaks of. -/
def Structural (role : Nat → Role) (x : Nat) : Prop :=
  pgdir ≤ x ∧ x < pgdir + 0x41000 ∨
    ∃ f, (role f = .free ∨ role f = .directory) ∧ f ≤ x ∧ x < f + 0x1000

theorem structural_directory {d i x : Nat} (isDirectory : IsDirectory role d)
    (less : i < 1024) (low : d + 4 * i ≤ x) (high : x < d + 4 * i + 4) :
    Structural role x := by
  rcases isDirectory with rfl | isRole
  · exact .inl (by omega)
  · exact .inr ⟨d, .inr isRole, by omega, by omega⟩

theorem structural_table {page x : Nat} (less : page < 0x10000)
    (low : pgtab + 4 * page ≤ x) (high : x < pgtab + 4 * page + 4) :
    Structural role x := by
  left
  unfold pgtab at *
  unfold pgdir
  omega

theorem Linked.congr {bytes' : Bytes} {head : Nat}
    (linked : Linked bytes head free)
    (same : ∀ f ∈ free, load32 bytes' f = load32 bytes f) :
    Linked bytes' head free := by
  induction free generalizing head with
  | nil => exact linked
  | cons f rest ih =>
      obtain ⟨isHead, linked⟩ := linked
      refine ⟨isHead, ?_⟩
      rw [same f List.mem_cons_self]
      exact ih linked fun g member => same g (List.mem_cons_of_mem f member)

theorem Linked.head_eq {head f : Nat} {rest : List Nat}
    (linked : Linked bytes head (f :: rest)) : head = f :=
  linked.1

/-- The entries and links that `Layout` speaks of, after a change of memory. -/
structure SameEntries (role : Nat → Role) (bytes bytes' : Bytes) : Prop where
  link : ∀ f, role f = .free → load32 bytes' f = load32 bytes f
  directory : ∀ d, IsDirectory role d → ∀ i, i < 1024 →
    load32 bytes' (d + 4 * i) = load32 bytes (d + 4 * i)
  table : ∀ page, page < 0x10000 →
    load32 bytes' (pgtab + 4 * page) = load32 bytes (pgtab + 4 * page)

theorem SameEntries.of_structural {bytes' : Bytes}
    (same : ∀ x, Structural role x → bytes' x = bytes x) :
    SameEntries role bytes bytes' where
  link := by
    intro f isFree
    apply load32_congr
    intro x low high
    exact same x (.inr ⟨f, .inl isFree, low, by omega⟩)
  directory := by
    intro d isDirectory i less
    apply load32_congr
    intro x low high
    exact same x (structural_directory isDirectory less low high)
  table := by
    intro page less
    apply load32_congr
    intro x low high
    exact same x (structural_table less low high)

theorem sharedEntry_eq (a : Nat) : sharedEntry a = pgtab + 4 * (a / 0x1000) :=
  rfl

theorem Tables.congr {bytes' : Bytes} (tables : Tables bytes role)
    (isFrame : ∀ f, role f ≠ .data → IsFrame f)
    (same : SameEntries role bytes bytes') : Tables bytes' role where
  shared := by
    intro d isDirectory i less
    rw [same.directory d isDirectory i (by omega)]
    exact tables.shared d isDirectory i less
  own := by
    intro d isDirectory i low less
    rw [same.directory d isDirectory i less]
    exact tables.own d isDirectory i low less
  identity := by
    intro page low high
    have less : page < 0x10000 := by
      unfold memoryEnd at high
      omega
    rw [same.table page less]
    exact tables.identity page low high
  hidden := by
    intro f used
    have bounds := (isFrame f used).lt
    rw [sharedEntry_eq, same.table (f / 0x1000) (by omega)]
    exact tables.hidden f used

theorem IdleSeen.congr {bytes' : Bytes} (seen : IdleSeen bytes role)
    (same : SameEntries role bytes bytes') : IdleSeen bytes' role where
  entry := by
    rw [sharedEntry_eq, same.table (memoryStart / 0x1000) (by decide)]
    exact seen.entry
  directories := by
    intro d isDirectory
    rw [same.directory d isDirectory _ (by decide)]
    exact seen.directories d isDirectory

/-- Stores that change no link and no entry. -/
theorem Layout.write {bytes' : Bytes} (layout : Layout p role free)
    (same : SameEntries role p.bytes bytes') :
    Layout { p with bytes := bytes' } role free where
  linked := layout.linked.congr fun f member =>
    same.link f ((layout.mem_free f).mp member)
  nodup := layout.nodup
  mem_free := layout.mem_free
  isFrame := layout.isFrame
  tables := layout.tables.congr layout.isFrame same
  seen := fun member => (layout.seen member).congr same
  blocks := layout.blocks
  released := layout.released
  cr3 := layout.cr3

/-- A word store at an aligned address changes one aligned word. -/
theorem load32_store32_aligned {a b word : Nat} (aligned : a % 4 = 0)
    (aligned' : b % 4 = 0) :
    load32 (store32 bytes a word) b =
      if b = a then word % 0x100000000 else load32 bytes b := by
  split
  · next equal => rw [equal, load32_store32]
  · exact load32_store32_apart (by omega)

/-- The words that may stand at index `i` of a directory. -/
structure EntryOk (role : Nat → Role) (i word : Nat) : Prop where
  small : word < 0x100000000
  low : i < 64 → frameBits word = pgtab + 0x1000 * i
  high : 64 ≤ i → frameBits word = 0 ∨ role (frameBits word) = .table
  seen : i = pdIndex memoryStart → isPresent word = true ∧ isUser word = true

section Entries

variable {d i word : Nat}

theorem Layout.load_directory (layout : Layout p role free)
    (isDirectory : IsDirectory role d) (less : i < 1024) {e j : Nat}
    (isDirectory' : IsDirectory role e) (less' : j < 1024)
    (small : word < 0x100000000) :
    load32 (store32 p.bytes (d + 4 * i) word) (e + 4 * j) =
      if e = d ∧ j = i then word else load32 p.bytes (e + 4 * j) := by
  have bounds := layout.directory_bounds isDirectory
  have bounds' := layout.directory_bounds isDirectory'
  have far := layout.directory_eq_or_far isDirectory isDirectory'
  rw [load32_store32_aligned (by omega) (by omega),
    Nat.mod_eq_of_lt small]
  have iff : e + 4 * j = d + 4 * i ↔ e = d ∧ j = i := by omega
  simp only [iff]

theorem Layout.load_directory_table (layout : Layout p role free)
    (isDirectory : IsDirectory role d) (less : i < 1024) {page : Nat}
    (inside : page < 0x10000) :
    load32 (store32 p.bytes (d + 4 * i) word) (pgtab + 4 * page) =
      load32 p.bytes (pgtab + 4 * page) := by
  have bounds := layout.directory_bounds isDirectory
  apply load32_store32_apart
  unfold pgtab
  omega

/-- A store in a page directory. -/
theorem Layout.setEntry (layout : Layout p role free)
    (isDirectory : IsDirectory role d) (less : i < 1024)
    (ok : EntryOk role i word) :
    Layout { p with bytes := store32 p.bytes (d + 4 * i) word } role free where
  linked := by
    apply layout.linked.congr
    intro f member
    have isFree := (layout.mem_free f).mp member
    have far := layout.directory_ne_free isDirectory isFree
    exact load32_store32_apart (by omega)
  nodup := layout.nodup
  mem_free := layout.mem_free
  isFrame := layout.isFrame
  tables :=
    { shared := by
        intro e isDirectory' j low
        rw [layout.load_directory isDirectory less isDirectory' (by omega)
          ok.small]
        split
        · next same => rw [ok.low (by omega), same.2]
        · exact layout.tables.shared e isDirectory' j low
      own := by
        intro e isDirectory' j low high
        rw [layout.load_directory isDirectory less isDirectory' high ok.small]
        split
        · exact ok.high (by omega)
        · exact layout.tables.own e isDirectory' j low high
      identity := by
        intro page low high
        have inside : page < 0x10000 := by
          unfold memoryEnd at high
          omega
        rw [layout.load_directory_table isDirectory less inside]
        exact layout.tables.identity page low high
      hidden := by
        intro f used
        have bounds := (layout.isFrame f used).lt
        rw [sharedEntry_eq,
          layout.load_directory_table isDirectory less (by omega)]
        exact layout.tables.hidden f used }
  seen := by
    intro member
    have seen := layout.seen member
    constructor
    · rw [sharedEntry_eq,
        layout.load_directory_table isDirectory less (by decide)]
      exact seen.entry
    · intro e isDirectory'
      rw [layout.load_directory isDirectory less isDirectory' (by decide)
        ok.small]
      split
      · next same => exact ok.seen same.2.symm
      · exact seen.directories e isDirectory'
  blocks := layout.blocks
  released := layout.released
  cr3 := layout.cr3

end Entries

section SharedEntries

variable {page word : Nat}

theorem load_table {bytes : Bytes} (small : word < 0x100000000) (other : Nat) :
    load32 (store32 bytes (pgtab + 4 * page) word) (pgtab + 4 * other) =
      if other = page then word else load32 bytes (pgtab + 4 * other) := by
  rw [load32_store32_aligned (by unfold pgtab; omega) (by unfold pgtab; omega),
    Nat.mod_eq_of_lt small]
  have iff : pgtab + 4 * other = pgtab + 4 * page ↔ other = page := by omega
  simp only [iff]

theorem Layout.load_table_directory (layout : Layout p role free)
    (inside : page < 0x10000) {d i : Nat} (isDirectory : IsDirectory role d)
    (less : i < 1024) :
    load32 (store32 p.bytes (pgtab + 4 * page) word) (d + 4 * i) =
      load32 p.bytes (d + 4 * i) := by
  have bounds := layout.directory_bounds isDirectory
  apply load32_store32_apart
  unfold pgtab
  omega

/-- A store in the kernel's page tables.  The entry may be user only when the
frame holds data. -/
theorem Layout.setShared (layout : Layout p role free)
    (inside : page < 0x10000) (small : word < 0x100000000)
    (identity : memoryStart ≤ 0x1000 * page → frameBits word = 0x1000 * page)
    (hidden : role (0x1000 * page) ≠ .data → isUser word = false)
    (seen : page = memoryStart / 0x1000 → idleBlock ∈ p.blocks →
      isPresent word = true ∧ isUser word = true) :
    Layout { p with bytes := store32 p.bytes (pgtab + 4 * page) word }
      role free where
  linked := by
    apply layout.linked.congr
    intro f member
    have isFree := (layout.mem_free f).mp member
    have isFrame := layout.isFrame f (by rw [isFree]; decide)
    have bounds := isFrame.lt
    apply load32_store32_apart
    unfold pgtab
    omega
  nodup := layout.nodup
  mem_free := layout.mem_free
  isFrame := layout.isFrame
  tables :=
    { shared := by
        intro d isDirectory i less
        rw [layout.load_table_directory inside isDirectory (by omega)]
        exact layout.tables.shared d isDirectory i less
      own := by
        intro d isDirectory i low less
        rw [layout.load_table_directory inside isDirectory less]
        exact layout.tables.own d isDirectory i low less
      identity := by
        intro other low high
        rw [load_table small]
        split
        · next same =>
            subst same
            exact identity low
        · exact layout.tables.identity other low high
      hidden := by
        intro f used
        have aligned := (layout.isFrame f used).aligned
        rw [sharedEntry_eq, load_table small]
        split
        · next same =>
            apply hidden
            have equal : 0x1000 * page = f := by omega
            rwa [equal]
        · exact layout.tables.hidden f used }
  seen := by
    intro member
    have was := layout.seen member
    constructor
    · rw [sharedEntry_eq, load_table small]
      split
      · next same => exact seen same.symm member
      · exact was.entry
    · intro d isDirectory
      rw [layout.load_table_directory inside isDirectory (by decide)]
      exact was.directories d isDirectory
  blocks := layout.blocks
  released := layout.released
  cr3 := layout.cr3

end SharedEntries

/-! ## Changes of role -/

/-- The listed frames get a new role. -/
def assign (role : Nat → Role) (frames : List Nat) (new : Role) : Nat → Role :=
  fun f => if f ∈ frames then new else role f

theorem assign_of_mem {frames : List Nat} {new : Role} {f : Nat}
    (member : f ∈ frames) : assign role frames new f = new :=
  if_pos member

theorem assign_of_notMem {frames : List Nat} {new : Role} {f : Nat}
    (member : f ∉ frames) : assign role frames new f = role f :=
  if_neg member

theorem assign_nil (new : Role) : assign role [] new = role := by
  funext f
  exact assign_of_notMem List.not_mem_nil

theorem assign_assign {first second : List Nat} {new : Role} :
    assign (assign role first new) second new =
      assign role (first ++ second) new := by
  funext f
  by_cases member : f ∈ first <;> by_cases member' : f ∈ second <;>
    simp [assign, member, member']

theorem assign_singleton {f g : Nat} {new : Role} :
    assign role [f] new g = if g = f then new else role g := by
  simp [assign]

/-- A frame that holds data and lies in no block. -/
structure Spare (p : Paging) (role : Nat → Role) (f : Nat) : Prop where
  isFrame : IsFrame f
  data : role f = .data
  uncovered : ∀ block ∈ p.blocks, ¬ block.Covers f

theorem Layout.uncovered (layout : Layout p role free) {f : Nat}
    (used : role f ≠ .data) : ∀ block ∈ p.blocks, ¬ block.Covers f := by
  intro block member covers
  exact used (layout.blocks.data block member f (layout.isFrame f used) covers)

theorem idleBlock_covers : idleBlock.Covers memoryStart := by
  decide

/-- `allocate_physical_memory_address`, on a list that is not empty. -/
theorem Layout.pop {f : Nat} {rest : List Nat}
    (layout : Layout p role (f :: rest)) (taken : List Nat) :
    Layout
      { p with
        head := load32 p.bytes f
        taken := taken
        released := p.released.filter fun frame => frame ≠ f }
      (assign role [f] .data) rest := by
  have isFree : role f = .free := (layout.mem_free f).mp List.mem_cons_self
  have wasDirectory : ∀ d, IsDirectory (assign role [f] .data) d →
      IsDirectory role d := by
    intro d isDirectory
    unfold IsDirectory at *
    rw [assign_singleton] at isDirectory
    split at isDirectory
    · exact .inl (by simpa using isDirectory)
    · exact isDirectory
  have wasUsed : ∀ g, assign role [f] .data g ≠ .data →
      g ≠ f ∧ role g ≠ .data := by
    intro g used
    rw [assign_singleton] at used
    split at used
    · exact absurd rfl used
    · next other => exact ⟨other, used⟩
  constructor
  case linked => exact layout.linked.2
  case nodup => exact layout.nodup.of_cons
  case mem_free =>
    intro g
    rw [assign_singleton]
    split
    · next same =>
        subst same
        simpa using (List.nodup_cons.mp layout.nodup).1
    · next other =>
        rw [← layout.mem_free g, List.mem_cons]
        simp [other]
  case isFrame => exact fun g used => layout.isFrame g (wasUsed g used).2
  case tables =>
    constructor
    · exact fun d isDirectory => layout.tables.shared d (wasDirectory d isDirectory)
    · intro d isDirectory i low less
      rcases layout.tables.own d (wasDirectory d isDirectory) i low less with
        null | isTable
      · exact .inl null
      · right
        rwa [assign_of_notMem]
        rw [List.mem_singleton]
        intro same
        rw [same, isFree] at isTable
        cases isTable
    · exact layout.tables.identity
    · exact fun g used => layout.tables.hidden g (wasUsed g used).2
  case seen =>
    intro member
    exact ⟨(layout.seen member).entry, fun d isDirectory =>
      (layout.seen member).directories d (wasDirectory d isDirectory)⟩
  case blocks =>
    refine ⟨layout.blocks.isFrame, ?_, layout.blocks.apart⟩
    intro block member g isFrame covers
    rw [assign_singleton]
    split
    · rfl
    · exact layout.blocks.data block member g isFrame covers
  case released =>
    intro g member
    obtain ⟨member, other⟩ := List.mem_filter.mp member
    rw [assign_singleton, if_neg (by simpa using other)]
    exact layout.released g member
  case cr3 =>
    rcases layout.cr3 with isKernel | isRole
    · exact .inl isKernel
    · right
      rwa [assign_of_notMem]
      rw [List.mem_singleton]
      intro same
      rw [same, isFree] at isRole
      cases isRole

/-- A frame just taken from the list. -/
theorem Layout.spare_pop {f : Nat} {rest : List Nat}
    (layout : Layout p role (f :: rest)) : IsFrame f ∧
      (∀ block ∈ p.blocks, ¬ block.Covers f) ∧
      isUser (load32 p.bytes (sharedEntry f)) = false := by
  have isFree : role f = .free := (layout.mem_free f).mp List.mem_cons_self
  have used : role f ≠ .data := by
    rw [isFree]
    decide
  exact ⟨layout.isFrame f used, layout.uncovered used,
    layout.tables.hidden f used⟩

section Retype

variable {f : Nat}

theorem Layout.isDirectory_assign {new : Role} (spare : Spare p role f) {d : Nat}
    (isDirectory : IsDirectory role d) : IsDirectory (assign role [f] new) d := by
  rcases isDirectory with isKernel | isRole
  · exact .inl isKernel
  · right
    rw [assign_singleton]
    split
    · next same =>
        rw [same, spare.data] at isRole
        cases isRole
    · exact isRole

/-- A spare frame becomes a page table or a page directory. -/
theorem Layout.retype (layout : Layout p role free) (spare : Spare p role f)
    (hidden : isUser (load32 p.bytes (sharedEntry f)) = false) (new : Role)
    (notFree : new ≠ .free)
    (entries : new = .directory → ∀ i, i < 1024 →
      EntryOk role i (load32 p.bytes (f + 4 * i))) :
    Layout p (assign role [f] new) free := by
  have wasDirectory : ∀ d, IsDirectory (assign role [f] new) d →
      IsDirectory role d ∨ d = f ∧ new = .directory := by
    intro d isDirectory
    unfold IsDirectory at *
    rw [assign_singleton] at isDirectory
    split at isDirectory
    · next same => tauto
    · exact .inl isDirectory
  have stillTable : ∀ t, role t = .table →
      assign role [f] new t = .table := by
    intro t isTable
    rw [assign_singleton]
    split
    · next same =>
        rw [same, spare.data] at isTable
        cases isTable
    · exact isTable
  constructor
  case linked => exact layout.linked
  case nodup => exact layout.nodup
  case mem_free =>
    intro g
    rw [layout.mem_free g, assign_singleton]
    split
    · next same =>
        rw [same, spare.data]
        simp [notFree]
    · exact Iff.rfl
  case isFrame =>
    intro g used
    rw [assign_singleton] at used
    split at used
    · next same =>
        rw [same]
        exact spare.isFrame
    · exact layout.isFrame g used
  case tables =>
    constructor
    · intro d isDirectory i less
      rcases wasDirectory d isDirectory with was | ⟨rfl, isNew⟩
      · exact layout.tables.shared d was i less
      · exact (entries isNew i (by omega)).low less
    · intro d isDirectory i low less
      have was : frameBits (load32 p.bytes (d + 4 * i)) = 0 ∨
          role (frameBits (load32 p.bytes (d + 4 * i))) = .table := by
        rcases wasDirectory d isDirectory with was | ⟨rfl, isNew⟩
        · exact layout.tables.own d was i low less
        · exact (entries isNew i less).high low
      exact was.imp_right (stillTable _)
    · exact layout.tables.identity
    · intro g used
      rw [assign_singleton] at used
      split at used
      · next same => rwa [same]
      · exact layout.tables.hidden g used
  case seen =>
    intro member
    refine ⟨(layout.seen member).entry, ?_⟩
    intro d isDirectory
    rcases wasDirectory d isDirectory with was | ⟨rfl, isNew⟩
    · exact (layout.seen member).directories d was
    · exact (entries isNew _ (by decide)).seen rfl
  case blocks =>
    refine ⟨layout.blocks.isFrame, ?_, layout.blocks.apart⟩
    intro block member g isFrame covers
    rw [assign_singleton]
    split
    · next same =>
        rw [same] at covers
        exact absurd covers (spare.uncovered block member)
    · exact layout.blocks.data block member g isFrame covers
  case released =>
    intro g member
    have isFree := layout.released g member
    rw [assign_singleton]
    split
    · next same =>
        rw [same, spare.data] at isFree
        cases isFree
    · exact isFree
  case cr3 => exact Layout.isDirectory_assign spare layout.cr3

end Retype

/-! ## Blocks -/

/-- `virtual_malloc` returns a block whose frames hold data and were in no
block before. -/
theorem Layout.addBlock (layout : Layout p role free) (block : Block)
    (isFrame : IsFrame block.base) (positive : 0 < block.size)
    (spare : ∀ f, IsFrame f → block.Covers f → Spare p role f)
    (seen : block = idleBlock → IdleSeen p.bytes role) :
    Layout { p with blocks := block :: p.blocks } role free where
  linked := layout.linked
  nodup := layout.nodup
  mem_free := layout.mem_free
  isFrame := layout.isFrame
  tables := layout.tables
  seen := by
    intro member
    rcases List.mem_cons.mp member with isNew | member
    · exact seen isNew.symm
    · exact layout.seen member
  blocks := by
    constructor
    · intro other member
      rcases List.mem_cons.mp member with rfl | member
      · exact ⟨isFrame, positive⟩
      · exact layout.blocks.isFrame other member
    · intro other member f isFrame' covers
      rcases List.mem_cons.mp member with rfl | member
      · exact (spare f isFrame' covers).data
      · exact layout.blocks.data other member f isFrame' covers
    · refine List.pairwise_cons.mpr ⟨?_, layout.blocks.apart⟩
      intro other member a covers covers'
      obtain ⟨isFrame', -⟩ := layout.blocks.isFrame other member
      -- the block that starts later starts inside the other one
      unfold Block.Covers at covers covers'
      by_cases order : block.base ≤ other.base
      · have inside : block.Covers other.base := ⟨order, by omega⟩
        exact (spare _ isFrame' inside).uncovered other member
          ⟨Nat.le_refl _, by omega⟩
      · have inside : other.Covers block.base := ⟨by omega, by omega⟩
        exact (spare _ isFrame ⟨Nat.le_refl _, by omega⟩).uncovered other member
          inside
  released := layout.released
  cr3 := layout.cr3

/-! ## A page that is given back -/

section Push

variable {f : Nat}

theorem Layout.head_lt (layout : Layout p role free) : p.head < 0x100000000 := by
  cases free with
  | nil =>
      rw [layout.linked]
      decide
  | cons g rest =>
      have isFree : role g = .free := (layout.mem_free g).mp List.mem_cons_self
      have bounds := (layout.isFrame g (by rw [isFree]; decide)).lt
      rw [layout.linked.head_eq]
      omega

/-- The directories lie apart from a frame that becomes free. -/
theorem Layout.directory_of_push (layout : Layout p role free)
    (isFrame : IsFrame f) {d : Nat}
    (isDirectory : IsDirectory (assign role [f] .free) d) :
    IsDirectory role d ∧ (d + 0x1000 ≤ f ∨ f + 0x1000 ≤ d) := by
  unfold IsDirectory at isDirectory
  rw [assign_singleton] at isDirectory
  have bounds := isFrame.lt
  have aligned := isFrame.aligned
  rcases isDirectory with rfl | isRole
  · refine ⟨.inl rfl, ?_⟩
    unfold pgdir
    omega
  · split at isRole
    · cases isRole
    · next other =>
        have bounds' := layout.directory_bounds (.inr isRole)
        refine ⟨.inr isRole, ?_⟩
        omega

theorem Layout.directory_push (layout : Layout p role free)
    (isFrame : IsFrame f) {d : Nat}
    (isDirectory : IsDirectory (assign role [f] .free) d) {i : Nat}
    (less : i < 1024) :
    load32 (store32 p.bytes f p.head) (d + 4 * i) =
      load32 p.bytes (d + 4 * i) := by
  have far := (layout.directory_of_push isFrame isDirectory).2
  exact load32_store32_apart (by omega)

theorem shared_push (isFrame : IsFrame f) {page : Nat} (inside : page < 0x10000) :
    load32 (store32 p.bytes f p.head) (pgtab + 4 * page) =
      load32 p.bytes (pgtab + 4 * page) := by
  have bounds := isFrame.lt
  apply load32_store32_apart
  unfold pgtab
  omega

theorem Layout.tables_push (layout : Layout p role free) (isFrame : IsFrame f)
    (data : role f = .data)
    (hidden : isUser (load32 p.bytes (sharedEntry f)) = false) :
    Tables (store32 p.bytes f p.head) (assign role [f] .free) := by
  constructor
  case shared =>
    intro d isDirectory i less
    rw [layout.directory_push isFrame isDirectory (by omega)]
    exact layout.tables.shared d
      (layout.directory_of_push isFrame isDirectory).1 i less
  case own =>
    intro d isDirectory i low less
    rw [layout.directory_push isFrame isDirectory less]
    rcases layout.tables.own d
      (layout.directory_of_push isFrame isDirectory).1 i low less with
      null | isTable
    · exact .inl null
    · right
      rwa [assign_of_notMem]
      rw [List.mem_singleton]
      intro same
      rw [same, data] at isTable
      cases isTable
  case identity =>
    intro page low high
    have inside : page < 0x10000 := by
      unfold memoryEnd at high
      omega
    rw [shared_push isFrame inside]
    exact layout.tables.identity page low high
  case hidden =>
    intro g used
    have isUsed : IsFrame g ∧ isUser (load32 p.bytes (sharedEntry g)) = false := by
      rw [assign_singleton] at used
      split at used
      · next same =>
          rw [same]
          exact ⟨isFrame, hidden⟩
      · exact ⟨layout.isFrame g used, layout.tables.hidden g used⟩
    have bounds := isUsed.1.lt
    rw [sharedEntry_eq, shared_push isFrame (show g / 0x1000 < 0x10000 by omega)]
    exact isUsed.2

theorem Layout.seen_push (layout : Layout p role free) (isFrame : IsFrame f)
    (seen : IdleSeen p.bytes role) :
    IdleSeen (store32 p.bytes f p.head) (assign role [f] .free) := by
  constructor
  · rw [sharedEntry_eq, shared_push isFrame (by decide)]
    exact seen.entry
  · intro d isDirectory
    rw [layout.directory_push isFrame isDirectory (by decide)]
    exact seen.directories d (layout.directory_of_push isFrame isDirectory).1

theorem BlocksOk.push {blocks : List Block} (ok : BlocksOk blocks role)
    (member : ⟨f, 0x1000⟩ ∈ blocks) :
    BlocksOk (blocks.filter fun block => block.base ≠ f)
      (assign role [f] .free) := by
  constructor
  · exact fun block member' =>
      ok.isFrame block (List.mem_of_mem_filter member')
  · intro block member' g isFrame covers
    obtain ⟨wasMember, other⟩ := List.mem_filter.mp member'
    rw [assign_singleton]
    split
    · next same =>
        subst same
        -- another block would overlap the block of the page
        have isOther : block ≠ ⟨g, 0x1000⟩ := by
          rintro rfl
          simp at other
        have apart : Block.Apart block ⟨g, 0x1000⟩ :=
          ok.apart.forall wasMember member isOther
        exact absurd ⟨Nat.le_refl g, by simp⟩ (apart g covers)
    · exact ok.data block wasMember g isFrame covers
  · exact ok.apart.sublist List.filter_sublist

/-- `virtual_free` of one page, as a whole: the shared entry is hidden from
user code, the frame is chained, and its block is gone. -/
theorem Layout.push (layout : Layout p role free) (data : role f = .data)
    (member : ⟨f, 0x1000⟩ ∈ p.blocks)
    (hidden : isUser (load32 p.bytes (sharedEntry f)) = false) :
    Layout
      { p with
        bytes := store32 p.bytes f p.head
        head := f
        released := f :: p.released
        blocks := p.blocks.filter fun block => block.base ≠ f }
      (assign role [f] .free) (f :: free) := by
  have isFrame : IsFrame f := (layout.blocks.isFrame _ member).1
  have notFree : f ∉ free := by
    intro isFree
    rw [layout.mem_free, data] at isFree
    cases isFree
  have link_kept : ∀ g ∈ free,
      load32 (store32 p.bytes f p.head) g = load32 p.bytes g := by
    intro g isFree
    have far : f = g ∨ f + 0x4000 ≤ g ∨ g + 0x4000 ≤ f := by
      apply isFrame.eq_or_far
      apply layout.isFrame
      rw [(layout.mem_free g).mp isFree]
      decide
    have other : g ≠ f := by
      rintro rfl
      exact notFree isFree
    exact load32_store32_apart (by omega)
  constructor
  case linked =>
    refine ⟨rfl, ?_⟩
    change Linked _ (load32 (store32 p.bytes f p.head) f) free
    rw [load32_store32, Nat.mod_eq_of_lt layout.head_lt]
    exact layout.linked.congr link_kept
  case nodup => exact List.nodup_cons.mpr ⟨notFree, layout.nodup⟩
  case mem_free =>
    intro g
    rw [List.mem_cons, layout.mem_free g, assign_singleton]
    split
    · next same => simp [same]
    · next other => simp [other]
  case isFrame =>
    intro g used
    rw [assign_singleton] at used
    split at used
    · next same =>
        rw [same]
        exact isFrame
    · exact layout.isFrame g used
  case tables => exact layout.tables_push isFrame data hidden
  case seen =>
    intro member'
    exact layout.seen_push isFrame (layout.seen (List.mem_of_mem_filter member'))
  case blocks => exact layout.blocks.push member
  case released =>
    intro g member'
    rcases List.mem_cons.mp member' with rfl | member'
    · exact assign_of_mem (List.mem_singleton.mpr rfl)
    · rw [assign_singleton]
      split
      · rfl
      · exact layout.released g member'
  case cr3 =>
    rcases layout.cr3 with isKernel | isRole
    · exact .inl isKernel
    · right
      rw [assign_singleton]
      split
      · next same =>
          rw [same, data] at isRole
          cases isRole
      · exact isRole

end Push

end Nebulea
