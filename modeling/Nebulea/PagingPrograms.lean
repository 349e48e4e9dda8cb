import Nebulea.PagingLayout

/-!
# The functions of `mmu.c` on a memory with roles

Each function is given a rule that says which frames it takes from the free
list, what role they get, and that memory agrees with the roles again.
-/

namespace Nebulea

open ByteMemory ExceptState

/-- The first page is not mapped, so that a null pointer faults. -/
def Paging.Guarded (p : Paging) : Prop :=
  isPresent (load32 p.bytes pgtab) = false

/-- What a call that takes the frames `popped` leaves of a memory. -/
structure Evolved (p : Paging) (role : Nat → Role) (free popped : List Nat)
    (p' : Paging) (role' : Nat → Role) (free' : List Nat) : Prop where
  layout : Layout p' role' free'
  free : free = popped ++ free'
  role : ∀ f ∉ popped, role' f = role f
  taken : p'.taken = popped.reverse ++ p.taken
  blocks : ∀ block ∈ p.blocks, block ∈ p'.blocks
  cr3 : p'.cr3 = p.cr3
  first : load32 p'.bytes pgtab = load32 p.bytes pgtab

/-- What a call leaves when it ends in a page fault. -/
def Faulted (p : Paging) (role : Nat → Role) (free : List Nat)
    (failure : Fault) (p' : Paging) : Prop :=
  failure = .page →
    ∃ popped role' free', Evolved p role free popped p' role' free'

variable {p p' p'' : Paging} {role role' role'' : Nat → Role}
variable {free free' free'' popped popped' : List Nat}

theorem Evolved.trans (first : Evolved p role free popped p' role' free')
    (second : Evolved p' role' free' popped' p'' role'' free'') :
    Evolved p role free (popped ++ popped') p'' role'' free'' where
  layout := second.layout
  free := by
    rw [first.free, second.free, List.append_assoc]
  role := by
    intro f notMember
    rw [List.mem_append, not_or] at notMember
    rw [second.role f notMember.2, first.role f notMember.1]
  taken := by
    rw [second.taken, first.taken, List.reverse_append, List.append_assoc]
  blocks := fun block member => second.blocks block (first.blocks block member)
  cr3 := second.cr3.trans first.cr3
  first := second.first.trans first.first

theorem Evolved.of_layout (layout : Layout p' role free)
    (taken : p'.taken = p.taken) (blocks : p'.blocks = p.blocks)
    (cr3 : p'.cr3 = p.cr3)
    (first : load32 p'.bytes pgtab = load32 p.bytes pgtab) :
    Evolved p role free [] p' role free where
  layout := layout
  free := rfl
  role := fun _ _ => rfl
  taken := taken
  blocks := by
    rw [blocks]
    exact fun _ member => member
  cr3 := cr3
  first := first

theorem Evolved.refl (layout : Layout p role free) :
    Evolved p role free [] p role free :=
  .of_layout layout rfl rfl rfl rfl

theorem Evolved.isDirectory (evolved : Evolved p role free popped p' role' free')
    (layout : Layout p role free) {d : Nat} (isDirectory : IsDirectory role d) :
    IsDirectory role' d := by
  rcases isDirectory with isKernel | isRole
  · exact .inl isKernel
  · right
    rw [evolved.role d, isRole]
    intro member
    have isFree : d ∈ free := by
      rw [evolved.free]
      exact List.mem_append_left _ member
    rw [layout.mem_free, isRole] at isFree
    cases isFree

theorem Evolved.guarded (evolved : Evolved p role free popped p' role' free')
    (guarded : p.Guarded) : p'.Guarded := by
  unfold Paging.Guarded at *
  rwa [evolved.first]

theorem Faulted.refl (layout : Layout p role free) (failure : Fault) :
    Faulted p role free failure p :=
  fun _ => ⟨[], role, free, .refl layout⟩

theorem Faulted.after {failure : Fault}
    (evolved : Evolved p role free popped p' role' free')
    (faulted : Faulted p' role' free' failure p'') :
    Faulted p role free failure p'' := by
  intro isPage
  obtain ⟨popped', role'', free'', later⟩ := faulted isPage
  exact ⟨_, _, _, evolved.trans later⟩

/-! ## Loads, stores and the free list -/

section Access

variable {a word : Nat} {fault : Fault → Paging → Prop}

theorem mapped (low : 0x1000 ≤ a) (high : a < 0x10000000) : p.Mapped a :=
  ⟨high, fun less => absurd low (by omega)⟩

theorem wp_load {post : Nat → Paging → Prop} (isMapped : p.Mapped a)
    (holds : post (load32 p.bytes a) p) : wp (load a) post fault p := by
  unfold load
  simpa [isMapped] using holds

theorem wp_store {post : Unit → Paging → Prop} (isMapped : p.Mapped a)
    (holds : post () { p with bytes := store32 p.bytes a word }) :
    wp (store a word) post fault p := by
  unfold store
  simpa [isMapped] using holds

/-- `allocate_physical_memory_address`, when it does not follow a null
pointer into a mapped page. -/
theorem wp_allocate {post : Nat → Paging → Prop} (layout : Layout p role free)
    (safe : p.Guarded ∨ free ≠ [])
    (taken : ∀ f rest, free = f :: rest →
      post f
        { p with
          head := load32 p.bytes f
          taken := f :: p.taken
          released := p.released.filter fun frame => frame ≠ f })
    (empty : free = [] → fault .page p) :
    wp allocatePhysicalMemoryAddress post fault p := by
  unfold allocatePhysicalMemoryAddress
  simp only [wp_bind, wp_get]
  cases free with
  | nil =>
      have guarded : p.Guarded := by
        rcases safe with guarded | nonempty
        · exact guarded
        · exact absurd rfl nonempty
      have isHead : p.head = 0 := layout.linked
      have unmapped : ¬ p.Mapped p.head := by
        rintro ⟨-, present⟩
        have isPresent := present (by omega)
        rw [guarded] at isPresent
        cases isPresent
      unfold load
      simpa [unmapped] using empty rfl
  | cons f rest =>
      have isFree : role f = .free :=
        (layout.mem_free f).mp List.mem_cons_self
      have bounds := (layout.isFrame f (by rw [isFree]; decide)).lt
      have isHead := layout.linked.head_eq
      rw [isHead]
      apply wp_load (mapped (by omega) (by omega))
      simp only [wp_bind, wp_modify, wp_pure]
      exact taken f rest rfl

end Access

/-! ## Indices -/

theorem pdIndex_eq (a : Nat) : pdIndex a = a / 0x400000 :=
  Nat.shiftRight_eq_div_pow a 22

theorem ptIndex_eq (a : Nat) : ptIndex a = a / 0x1000 % 0x400 := by
  unfold ptIndex
  rw [Nat.shiftRight_eq_div_pow]
  exact Nat.and_two_pow_sub_one_eq_mod _ 10

theorem ptIndex_lt (a : Nat) : ptIndex a < 1024 := by
  rw [ptIndex_eq]
  omega

/-- The 64 page tables of the kernel are one array. -/
theorem sharedEntry_split (a : Nat) :
    pgtab + 0x1000 * pdIndex a + 4 * ptIndex a = sharedEntry a := by
  rw [pdIndex_eq, ptIndex_eq, sharedEntry_eq]
  omega

/-- The entry for an address in a page table. -/
theorem IsFrame.mapped_entry {t : Nat} (isFrame : IsFrame t) (a : Nat) :
    p.Mapped (t + 4 * ptIndex a) := by
  have bounds := isFrame.lt
  have inTable := ptIndex_lt a
  exact mapped (by omega) (by omega)

theorem mapped_sharedEntry {a : Nat} (low : a < 0x10000000) :
    p.Mapped (sharedEntry a) := by
  unfold sharedEntry pgtab
  exact mapped (by omega) (by omega)

/-! ## Entries of page tables -/

theorem Layout.mapped_directory (layout : Layout p role free) {d i : Nat}
    (isDirectory : IsDirectory role d) (less : i < 1024) :
    p.Mapped (d + 4 * i) := by
  have bounds := layout.directory_bounds isDirectory
  exact mapped (by omega) (by omega)

/-- `set_table_permission` gives an entry that may stand where the old one
stood. -/
theorem Layout.entryOk_permission (layout : Layout p role free) {d i : Nat}
    (isDirectory : IsDirectory role d) (less : i < 1024) :
    EntryOk role i
      (frameBits (load32 p.bytes (d + 4 * i)) ||| pageTableUserRw) := by
  have small := load32_lt p.bytes (d + 4 * i)
  have aligned := frameBits_aligned small
  have bound := frameBits_lt small
  have frame : frameBits (frameBits (load32 p.bytes (d + 4 * i)) |||
      pageTableUserRw) = frameBits (load32 p.bytes (d + 4 * i)) :=
    frameBits_or_flags aligned bound (by decide)
  constructor
  · rw [or_flags aligned (by decide)]
    unfold pageTableUserRw
    omega
  · intro low
    rw [frame]
    exact layout.tables.shared d isDirectory i low
  · intro high
    rw [frame]
    exact layout.tables.own d isDirectory i high less
  · intro _
    exact ⟨testBit_or_flags aligned (by decide),
      testBit_or_flags aligned (by decide)⟩

theorem Layout.setPermission (layout : Layout p role free) {d i : Nat}
    (isDirectory : IsDirectory role d) (less : i < 1024) :
    Layout
      { p with
        bytes := store32 p.bytes (d + 4 * i)
          (frameBits (load32 p.bytes (d + 4 * i)) ||| pageTableUserRw) }
      role free :=
  layout.setEntry isDirectory less (layout.entryOk_permission isDirectory less)

section PtableEntry

variable {a d flags : Nat} {post : Nat → Paging → Prop}
variable {fault : Fault → Paging → Prop}

theorem wp_setTablePermission {post : Unit → Paging → Prop}
    (layout : Layout p role free) (isDirectory : IsDirectory role d)
    (less : pdIndex a < 1024)
    (holds : post ()
      { p with
        bytes := store32 p.bytes (d + 4 * pdIndex a)
          (frameBits (load32 p.bytes (d + 4 * pdIndex a)) ||| flags) }) :
    wp (setTablePermission a d flags) post fault p := by
  unfold setTablePermission
  have isMapped := layout.mapped_directory isDirectory less
  rw [wp_bind]
  apply wp_load isMapped
  exact wp_store isMapped holds

/-- Below 256 MB every directory points to the kernel's page tables. -/
theorem Tables.shared_low {bytes : Bytes} (tables : Tables bytes role)
    (isDirectory : IsDirectory role d) (low : a < 0x10000000) :
    pdIndex a < 64 ∧
      frameBits (load32 bytes (d + 4 * pdIndex a)) =
        pgtab + 0x1000 * pdIndex a ∧
      frameBits (load32 bytes (d + 4 * pdIndex a)) ≠ 0 := by
  have index : pdIndex a < 64 := by
    rw [pdIndex_eq]
    omega
  have table := tables.shared d isDirectory (pdIndex a) index
  refine ⟨index, table, ?_⟩
  rw [table]
  unfold pgtab
  omega

/-- `get_ptable_entry_from_virtual_address` below 256 MB, without creation. -/
theorem wp_findShared (layout : Layout p role free)
    (isDirectory : IsDirectory role d) (low : a < 0x10000000)
    (holds : post (sharedEntry a) p) :
    wp (getPtableEntry a d false 0) post fault p := by
  obtain ⟨index, table, nonNull⟩ := layout.tables.shared_low isDirectory low
  unfold getPtableEntry ptable
  simp only [wp_bind]
  apply wp_load (layout.mapped_directory isDirectory (by omega))
  rw [if_pos nonNull, wp_pure, if_neg (by simp), wp_pure, table,
    sharedEntry_split]
  exact holds

/-- `get_ptable_entry_from_virtual_address` below 256 MB, with permissions. -/
theorem wp_openShared (layout : Layout p role free)
    (isDirectory : IsDirectory role d) (low : a < 0x10000000)
    (holds : post (sharedEntry a)
      { p with
        bytes := store32 p.bytes (d + 4 * pdIndex a)
          (frameBits (load32 p.bytes (d + 4 * pdIndex a)) |||
            pageTableUserRw) }) :
    wp (getPtableEntry a d true pageTableUserRw) post fault p := by
  obtain ⟨index, table, nonNull⟩ := layout.tables.shared_low isDirectory low
  unfold getPtableEntry ptable
  simp only [wp_bind]
  apply wp_load (layout.mapped_directory isDirectory (by omega))
  rw [if_pos nonNull, wp_pure, if_pos ⟨trivial, by decide⟩, wp_bind]
  apply wp_setTablePermission layout isDirectory (by omega)
  rw [wp_pure, table, sharedEntry_split, ← table]
  exact holds

end PtableEntry

/-! ## `virtual_malloc` -/

theorem IsFrame.sharedEntry_eq {f : Nat} (isFrame : IsFrame f) :
    ∃ page, 0x4000 ≤ page ∧ page < 0x10000 ∧ 0x1000 * page = f ∧
      sharedEntry f = pgtab + 4 * page := by
  have bounds := isFrame.lt
  have aligned := isFrame.aligned
  exact ⟨f / 0x1000, by omega, by omega, by omega, rfl⟩

/-- The shared entry of a frame that holds data becomes readable and writable
for user code. -/
theorem Layout.show (layout : Layout p role free) {f : Nat} (isFrame : IsFrame f)
    (data : role f = .data) :
    Layout
      { p with
        bytes := store32 p.bytes (sharedEntry f)
          (frameBits f ||| pageTableUserRw) }
      role free := by
  obtain ⟨page, -, inside, isPage, entry⟩ := isFrame.sharedEntry_eq
  have aligned := isFrame.aligned
  have bounds := isFrame.lt
  rw [entry, frameBits_of_aligned aligned (by omega)]
  apply layout.setShared inside
  · rw [or_flags aligned (by decide)]
    unfold pageTableUserRw
    omega
  · intro _
    rw [isPage]
    exact frameBits_or_flags aligned (by omega) (by decide)
  · rw [isPage, data]
    exact fun used => absurd rfl used
  · exact fun _ _ => ⟨testBit_or_flags aligned (by decide),
      testBit_or_flags aligned (by decide)⟩

/-- Memory after `virtual_malloc` has taken and mapped the frame `f`. -/
def Paging.mallocTurn (p : Paging) (f : Nat) : Paging :=
  let permitted := store32 p.bytes (p.cr3 + 4 * pdIndex f)
    (frameBits (load32 p.bytes (p.cr3 + 4 * pdIndex f)) ||| pageTableUserRw)
  { p with
    bytes := store32 permitted (sharedEntry f) (frameBits f ||| pageTableUserRw)
    head := load32 p.bytes f
    taken := f :: p.taken
    released := p.released.filter fun frame => frame ≠ f }

/-- Every entry of every directory leads to the same frame as before. -/
def SameTargets (role : Nat → Role) (p p' : Paging) : Prop :=
  ∀ d, IsDirectory role d → ∀ j, j < 1024 →
    frameBits (load32 p'.bytes (d + 4 * j)) =
      frameBits (load32 p.bytes (d + 4 * j))

theorem Layout.sameTargets_mallocTurn (layout : Layout p role free) {f : Nat}
    (isFrame : IsFrame f) : SameTargets role p (p.mallocTurn f) := by
  intro d isDirectory j less
  have bounds := isFrame.lt
  have bounds' := layout.directory_bounds isDirectory
  have index : pdIndex f < 1024 := by
    rw [pdIndex_eq]
    omega
  have ok := layout.entryOk_permission layout.cr3 index
  have small := load32_lt p.bytes (p.cr3 + 4 * pdIndex f)
  unfold Paging.mallocTurn
  simp only
  rw [load32_store32_apart (by unfold sharedEntry pgtab; omega),
    layout.load_directory layout.cr3 index isDirectory less ok.small]
  split
  · next same =>
      rw [frameBits_or_flags (frameBits_aligned small) (frameBits_lt small)
        (by decide), same.1, same.2]
  · rfl

theorem Layout.mallocTurn {f : Nat} {rest : List Nat}
    (layout : Layout p role (f :: rest)) :
    Evolved p role (f :: rest) [f] (p.mallocTurn f) (assign role [f] .data)
      rest := by
  obtain ⟨isFrame, -, -⟩ := layout.spare_pop
  have bounds := isFrame.lt
  have index : pdIndex f < 1024 := by
    rw [pdIndex_eq]
    omega
  have popped := layout.pop (f :: p.taken)
  have permitted := popped.setPermission popped.cr3 index
  have shown := permitted.show isFrame
    (assign_of_mem (List.mem_singleton.mpr rfl))
  have bounds' := layout.directory_bounds layout.cr3
  refine ⟨shown, rfl, ?_, rfl, fun _ member => member, rfl, ?_⟩
  · exact fun g notMember => assign_of_notMem notMember
  · unfold Paging.mallocTurn
    simp only
    rw [load32_store32_apart, load32_store32_apart]
    · unfold pgtab
      omega
    · unfold sharedEntry pgtab
      omega

section Malloc

variable {fault : Fault → Paging → Prop} {post : Nat → Paging → Prop}

/-- One turn of the loop of `virtual_malloc`. -/
theorem wp_mallocTurn {initial count : Nat} (layout : Layout p role free)
    (safe : p.Guarded ∨ free ≠ [])
    (taken : ∀ f rest, free = f :: rest →
      wp (mallocPages (if initial = 0 then f else initial) count) post fault
        (p.mallocTurn f))
    (empty : free = [] → fault .page p) :
    wp (mallocPages initial (count + 1)) post fault p := by
  unfold mallocPages
  rw [wp_bind]
  apply wp_allocate layout safe _ empty
  rintro f rest rfl
  obtain ⟨isFrame, -, -⟩ := layout.spare_pop
  have bounds := isFrame.lt
  have nonNull : f ≠ 0 := by omega
  have popped := layout.pop (f :: p.taken)
  rw [if_neg nonNull]
  simp only [wp_bind, wp_get]
  apply wp_openShared popped popped.cr3 (by omega)
  rw [wp_bind]
  apply wp_store (mapped_sharedEntry (by omega))
  exact taken f rest rfl

/-- The loop of `virtual_malloc`. -/
theorem wp_mallocPages {initial count : Nat} (layout : Layout p role free)
    (safe : p.Guarded ∨ count ≤ free.length) :
    wp (mallocPages initial count)
      (fun base p' => ∃ popped rest,
        Evolved p role free popped p' (assign role popped .data) rest ∧
        popped.length = count ∧ p'.blocks = p.blocks ∧ SameTargets role p p' ∧
        base = if initial = 0 then popped.headD 0 else initial)
      (Faulted p role free) p := by
  induction count generalizing p role free initial with
  | zero =>
      refine ⟨[], free, ?_, rfl, rfl, fun _ _ _ _ => rfl, ?_⟩
      · rw [assign_nil]
        exact .refl layout
      · split <;> simp_all
  | succ count ih =>
      apply wp_mallocTurn layout
      · rcases safe with guarded | enough
        · exact .inl guarded
        · right
          rintro rfl
          simp at enough
      · rintro f rest rfl
        have turn := layout.mallocTurn
        have safe' : (p.mallocTurn f).Guarded ∨ count ≤ rest.length := by
          rcases safe with guarded | enough
          · exact .inl (turn.guarded guarded)
          · exact .inr (by simpa using enough)
        have nonNull : f ≠ 0 := by
          have bounds := layout.spare_pop.1.lt
          omega
        apply wp_mono (ih turn.layout safe')
        · rintro base p' ⟨popped, rest', evolved, length, blocks, targets,
            isBase⟩
          rw [assign_assign] at evolved
          refine ⟨[f] ++ popped, rest', turn.trans evolved, ?_, blocks, ?_, ?_⟩
          · simp [length]
          · intro d isDirectory j less
            rw [targets d (turn.isDirectory layout isDirectory) j less]
            exact layout.sameTargets_mallocTurn layout.spare_pop.1 d isDirectory
              j less
          · rw [isBase]
            by_cases isNull : initial = 0
            · simp [isNull, nonNull]
            · simp [isNull]
        · exact fun failure p' faulted => .after turn faulted
      · exact fun _ => .refl layout .page

/-- The frames that a block of this size covers from the first of the listed
frames on are all among them. -/
def Fits (frames : List Nat) (size : Nat) : Prop :=
  frames.length = pageCount size →
    ∀ f, IsFrame f → (Block.mk (frames.headD 0) size).Covers f → f ∈ frames

theorem pageCount_pos {size : Nat} (positive : 0 < size) :
    0 < pageCount size := by
  unfold pageCount
  omega

/-- `virtual_malloc`. -/
theorem wp_virtualMalloc {size : Nat} (layout : Layout p role free)
    (safe : p.Guarded ∨ pageCount size ≤ free.length)
    (fits : Fits (free.take (pageCount size)) size)
    (notIdle : role memoryStart ≠ .free) :
    wp (virtualMalloc size)
      (fun base p' => ∃ popped rest,
        Evolved p role free popped p' (assign role popped .data) rest ∧
        popped.length = pageCount size ∧ base = popped.headD 0 ∧
        SameTargets role p p' ∧
        (0 < size → IsFrame base ∧ ⟨base, size⟩ ∈ p'.blocks))
      (Faulted p role free) p := by
  unfold virtualMalloc
  rw [wp_bind]
  apply wp_mono (wp_mallocPages layout safe)
  · rintro base p' ⟨popped, rest, evolved, length, blocks, targets, isBase⟩
    simp only [if_pos] at isBase
    have isPopped : free.take (pageCount size) = popped := by
      rw [evolved.free, List.take_left' length]
    rw [isPopped] at fits
    have wasFree : ∀ f ∈ popped, role f = .free := by
      intro f member
      rw [← layout.mem_free, evolved.free]
      exact List.mem_append_left _ member
    have wasFrame : ∀ f ∈ popped, IsFrame f := by
      intro f member
      apply layout.isFrame
      rw [wasFree f member]
      decide
    cases popped with
    | nil =>
        have isNull : base = 0 := isBase
        rw [if_pos isNull, wp_pure]
        refine ⟨[], rest, evolved, length, rfl, targets, ?_⟩
        intro positive
        exact absurd length (pageCount_pos positive).ne
    | cons g others =>
        have isFrame : IsFrame g := wasFrame g List.mem_cons_self
        have positive : 0 < size := by
          rw [Nat.pos_iff_ne_zero]
          rintro rfl
          simp [pageCount] at length
        have isHead : base = g := isBase
        have bounds := isFrame.lt
        rw [if_neg (by omega)]
        simp only [wp_bind, wp_modify, wp_pure]
        have spare : ∀ f, IsFrame f → (Block.mk base size).Covers f →
            Spare p' (assign role (g :: others) .data) f := by
          intro f isFrame' covers
          rw [isHead] at covers
          have member := fits length f isFrame' covers
          refine ⟨isFrame', assign_of_mem member, ?_⟩
          rw [blocks]
          apply layout.uncovered
          rw [wasFree f member]
          decide
        have added := evolved.layout.addBlock ⟨base, size⟩
          (by rw [isHead]; exact isFrame) positive spare (by
            intro isIdle
            have isStart : g = memoryStart := by
              rw [← isHead]
              exact congrArg Block.base isIdle
            rw [← isStart, wasFree g List.mem_cons_self] at notIdle
            exact absurd rfl notIdle)
        refine ⟨g :: others, rest, ⟨added, evolved.free, evolved.role,
          evolved.taken, ?_, evolved.cr3, evolved.first⟩, length, isHead, targets, ?_⟩
        · exact fun block member =>
            List.mem_cons_of_mem _ (evolved.blocks block member)
        · intro _
          rw [isHead]
          exact ⟨isFrame, List.mem_cons_self⟩
  · exact fun _ _ faulted => faulted

end Malloc

/-! ## Page tables of one address space -/

/-- Bytes of page tables and of data are not structural. -/
theorem Layout.not_structural (layout : Layout p role free) {f x : Nat}
    (isFrame : IsFrame f) (other : role f = .table ∨ role f = .data)
    (low : f ≤ x) (high : x < f + 0x1000) : ¬ Structural role x := by
  have bounds := isFrame.lt
  rintro (inKernel | ⟨g, isRole, low', high'⟩)
  · unfold pgdir at inKernel
    omega
  · have isFrame' : IsFrame g := by
      apply layout.isFrame
      rcases isRole with isRole | isRole <;> rw [isRole] <;> decide
    have same : f = g := by
      have far := isFrame.eq_or_far isFrame'
      omega
    rw [same] at other
    rcases isRole with isRole | isRole <;> rw [isRole] at other <;>
      simp at other

theorem Layout.sameEntries (layout : Layout p role free) {f : Nat}
    (isFrame : IsFrame f) (other : role f = .table ∨ role f = .data)
    (bytes' : Bytes)
    (same : ∀ x, x < f ∨ f + 0x1000 ≤ x → bytes' x = p.bytes x) :
    SameEntries role p.bytes bytes' := by
  apply SameEntries.of_structural
  intro x structural
  apply same
  by_contra inside
  exact layout.not_structural isFrame other (by omega) (by omega) structural

theorem wp_storeArray {a count : Nat} {words : Nat → Nat}
    {post : Unit → Paging → Prop} {fault : Fault → Paging → Prop}
    (low : 0x1000 ≤ a) (high : a + 4 * count ≤ 0x10000000) (some : 0 < count)
    (holds : post () { p with bytes := storeWords p.bytes a count words }) :
    wp (storeArray a count words) post fault p := by
  have isMapped : p.Mapped a := mapped low (by omega)
  have fits : min count ((memoryEnd - a) / 4) = count := by
    unfold memoryEnd
    omega
  unfold storeArray
  simp only [wp_bind, wp_get, if_pos isMapped, fits, wp_set]
  rw [if_neg (Nat.lt_irrefl count), wp_pure]
  exact holds

section OwnTables

variable {a d : Nat}

/-- The frame of each entry of a directory after one of them changed. -/
def Retargeted (p p' : Paging) (d index t : Nat) : Prop :=
  ∀ i, i < 1024 → frameBits (load32 p'.bytes (d + 4 * i)) =
    if i = index then t else frameBits (load32 p.bytes (d + 4 * i))

/-- A page table is made for a null entry of a directory. -/
theorem wp_newTable (layout : Layout p role free)
    (isDirectory : IsDirectory role d) (low : 64 ≤ pdIndex a)
    (high : pdIndex a < 1024) (safe : p.Guarded ∨ free ≠ []) :
    wp (newTable a d pageTableUserRw)
      (fun t p' => ∃ rest,
        Evolved p role free [t] p' (assign role [t] .table) rest ∧
        p'.blocks = p.blocks ∧ IsFrame t ∧ Retargeted p p' d (pdIndex a) t)
      (Faulted p role free) p := by
  unfold newTable
  rw [wp_bind]
  apply wp_allocate layout safe _ fun _ => .refl layout .page
  rintro t rest rfl
  obtain ⟨isFrame, uncovered, hidden⟩ := layout.spare_pop
  have bounds := isFrame.lt
  have aligned := isFrame.aligned
  have apart := layout.directory_ne_free isDirectory
    ((layout.mem_free t).mp List.mem_cons_self)
  have bounds' := layout.directory_bounds isDirectory
  rw [if_neg (by omega), wp_bind]
  apply wp_storeArray (by omega) (by omega) (by omega)
  rw [wp_bind]
  apply wp_store (mapped (by omega) (by omega))
  rw [wp_pure]
  generalize isCleared : storeWords p.bytes t 1024 (fun _ => 0) = cleared
  have cleared_apart : ∀ b, b + 4 ≤ t ∨ t + 0x1000 ≤ b →
      load32 cleared b = load32 p.bytes b := by
    intro b apart
    rw [← isCleared]
    exact load32_storeWords_apart (by omega)
  have popped := layout.pop (t :: p.taken)
  have isData : assign role [t] .data t = .data :=
    assign_of_mem (List.mem_singleton.mpr rfl)
  have written := popped.write (popped.sameEntries isFrame (.inr isData) cleared
    (by
      intro x outside
      rw [← isCleared]
      exact storeWords_outside (by omega)))
  have isTable := written.retype ⟨isFrame, isData, uncovered⟩ (by
    change isUser (load32 cleared (sharedEntry t)) = false
    rw [cleared_apart _ (by unfold sharedEntry pgtab; omega)]
    exact hidden) .table (by decide) (by intro isDirectory; cases isDirectory)
  have roles : assign (assign role [t] .data) [t] .table =
      assign role [t] .table := by
    funext g
    by_cases same : g = t <;> simp [assign, same]
  rw [roles] at isTable
  have stillDirectory : IsDirectory (assign role [t] .table) d := by
    rcases isDirectory with isKernel | isRole
    · exact .inl isKernel
    · right
      rwa [assign_of_notMem]
      rw [List.mem_singleton]
      omega
  have frame : frameBits (frameBits t ||| pageTableUserRw) = t := by
    rw [frameBits_of_aligned aligned (by omega)]
    exact frameBits_or_flags aligned (by omega) (by decide)
  have small : frameBits t ||| pageTableUserRw < 0x100000000 := by
    rw [frameBits_of_aligned aligned (by omega), or_flags aligned (by decide)]
    unfold pageTableUserRw
    omega
  have entryOk : EntryOk (assign role [t] .table) (pdIndex a)
      (frameBits t ||| pageTableUserRw) := by
    refine ⟨small, by omega, ?_, ?_⟩
    · intro _
      right
      rw [frame]
      exact assign_of_mem (List.mem_singleton.mpr rfl)
    · intro isIndex
      rw [isIndex] at low
      exact absurd low (by decide)
  have entered := isTable.setEntry stillDirectory high entryOk
  refine ⟨rest, ⟨entered, rfl, fun g notMember => assign_of_notMem notMember,
    rfl, fun _ member => member, rfl, ?_⟩, rfl, isFrame, ?_⟩
  · change load32 (store32 cleared (d + 4 * pdIndex a) _) pgtab = _
    rw [load32_store32_apart, cleared_apart]
    · unfold pgtab
      omega
    · unfold pgtab
      omega
  · intro i less
    change frameBits (load32 (store32 cleared (d + 4 * pdIndex a) _) _) = _
    rw [isTable.load_directory stillDirectory high stillDirectory less small]
    by_cases same : i = pdIndex a
    · rw [if_pos ⟨rfl, same⟩, if_pos same, frame]
    · rw [if_neg (by tauto), if_neg same]
      change frameBits (load32 cleared _) = _
      rw [cleared_apart _ (by omega)]

/-- `get_ptable_entry_from_virtual_address` for an address that the kernel
does not map, with creation. -/
theorem wp_openOwn (layout : Layout p role free)
    (isDirectory : IsDirectory role d) (low : 64 ≤ pdIndex a)
    (high : pdIndex a < 1024)
    (safe : p.Guarded ∨
      (frameBits (load32 p.bytes (d + 4 * pdIndex a)) = 0 → free ≠ [])) :
    wp (getPtableEntry a d true pageTableUserRw)
      (fun entry p' => ∃ popped rest t,
        Evolved p role free popped p' (assign role popped .table) rest ∧
        p'.blocks = p.blocks ∧ IsFrame t ∧ assign role popped .table t = .table ∧
        entry = t + 4 * ptIndex a ∧
        popped.length =
          (if frameBits (load32 p.bytes (d + 4 * pdIndex a)) = 0 then 1 else 0) ∧
        (t ∈ popped ∨ t = frameBits (load32 p.bytes (d + 4 * pdIndex a))) ∧
        Retargeted p p' d (pdIndex a) t)
      (Faulted p role free) p := by
  -- what the permissions change, once there is a table
  have permit : ∀ {t q popped rest},
      Evolved p role free popped q (assign role popped .table) rest →
      q.blocks = p.blocks → Retargeted p q d (pdIndex a) t →
      ∃ q', q' =
        { q with
          bytes := store32 q.bytes (d + 4 * pdIndex a)
            (frameBits (load32 q.bytes (d + 4 * pdIndex a)) |||
              pageTableUserRw) } ∧
        Evolved p role free popped q' (assign role popped .table) rest ∧
        q'.blocks = p.blocks ∧ Retargeted p q' d (pdIndex a) t := by
    intro t q popped rest evolved blocks retargeted
    have isDirectory' := evolved.isDirectory layout isDirectory
    have bounds := layout.directory_bounds isDirectory
    have permitted := evolved.layout.setPermission isDirectory' high
    have ok := evolved.layout.entryOk_permission isDirectory' high
    refine ⟨_, rfl, ⟨permitted, evolved.free, evolved.role, evolved.taken,
      evolved.blocks, evolved.cr3, ?_⟩, blocks, ?_⟩
    · change load32 (store32 q.bytes (d + 4 * pdIndex a) _) pgtab = _
      rw [load32_store32_apart (by unfold pgtab; omega), evolved.first]
    · intro i less
      change frameBits (load32 (store32 q.bytes (d + 4 * pdIndex a) _) _) = _
      rw [evolved.layout.load_directory isDirectory' high isDirectory' less
        ok.small, ← retargeted i less]
      split
      · next same =>
          have small := load32_lt q.bytes (d + 4 * pdIndex a)
          rw [same.2, frameBits_or_flags (frameBits_aligned small)
            (frameBits_lt small) (by decide)]
      · rfl
  unfold getPtableEntry ptable
  rw [wp_bind, wp_bind]
  apply wp_load (layout.mapped_directory isDirectory high)
  by_cases null : frameBits (load32 p.bytes (d + 4 * pdIndex a)) = 0
  · rw [if_neg (not_not.mpr null), if_pos rfl]
    have safe' : p.Guarded ∨ free ≠ [] := safe.imp_right fun enough => enough null
    apply wp_mono (wp_newTable layout isDirectory low high safe')
    · rintro t q ⟨rest, evolved, blocks, isFrame, retargeted⟩
      rw [if_pos ⟨rfl, by decide⟩, wp_bind]
      apply wp_setTablePermission evolved.layout
        (evolved.isDirectory layout isDirectory) high
      obtain ⟨q', isNext, evolved', blocks', retargeted'⟩ :=
        permit evolved blocks retargeted
      rw [wp_pure, ← isNext]
      refine ⟨[t], rest, t, evolved', blocks', isFrame,
        assign_of_mem (List.mem_singleton.mpr rfl), rfl, ?_,
        .inl (List.mem_singleton.mpr rfl), retargeted'⟩
      rw [if_pos null]
      rfl
    · exact fun _ _ faulted => faulted
  · rw [if_pos null, wp_pure, if_pos ⟨rfl, by decide⟩, wp_bind]
    apply wp_setTablePermission layout isDirectory high
    have isTable := (layout.tables.own d isDirectory _ low high).resolve_left null
    have same : Evolved p role free [] p (assign role [] .table) free := by
      rw [assign_nil]
      exact .refl layout
    obtain ⟨q', isNext, evolved', blocks', retargeted'⟩ :=
      permit (t := frameBits (load32 p.bytes (d + 4 * pdIndex a))) same rfl (by
        intro i less
        split
        · next isIndex => rw [isIndex]
        · rfl)
    rw [wp_pure, ← isNext]
    refine ⟨[], free, _, evolved', blocks', ?_, ?_, rfl, ?_, .inr rfl,
      retargeted'⟩
    · apply layout.isFrame
      rw [isTable]
      decide
    · rw [assign_nil]
      exact isTable
    · rw [if_neg null]
      rfl

/-- `get_ptable_entry_from_virtual_address` without creation: it finds a shared
entry, an entry of another page table, or panics. -/
theorem wp_find {post : Nat → Paging → Prop} {fault : Fault → Paging → Prop}
    (layout : Layout p role free) (isDirectory : IsDirectory role d)
    (less : a < 0x100000000)
    (shared : a < 0x10000000 → post (sharedEntry a) p)
    (own : ∀ t, role t = .table → post (t + 4 * ptIndex a) p)
    (panics : ∀ message, fault (.panic message) p) :
    wp (getPtableEntry a d false 0) post fault p := by
  by_cases low : a < 0x10000000
  · exact wp_findShared layout isDirectory low (shared low)
  · have index : 64 ≤ pdIndex a ∧ pdIndex a < 1024 := by
      rw [pdIndex_eq]
      omega
    unfold getPtableEntry ptable
    rw [wp_bind, wp_bind]
    apply wp_load (layout.mapped_directory isDirectory index.2)
    by_cases null : frameBits (load32 p.bytes (d + 4 * pdIndex a)) = 0
    · rw [if_neg (not_not.mpr null), if_neg (by decide), wp_throw]
      exact panics _
    · rw [if_pos null, wp_pure, if_neg (by simp), wp_pure]
      exact own _
        ((layout.tables.own d isDirectory _ index.1 index.2).resolve_left null)

end OwnTables

/-! ## `pgdir_copy` -/

/-- The page tables that `count` pages need from a multiple of 4 MB on. -/
def tableCount (count : Nat) : Nat := (count + 1023) / 1024

/-- The directory has exactly `tables` page tables from index `first` on. -/
def Opened (p : Paging) (d first tables : Nat) : Prop :=
  ∀ j, first ≤ j → j < 1024 →
    (frameBits (load32 p.bytes (d + 4 * j)) = 0 ↔ first + tables ≤ j)

theorem Opened.congr {d first tables : Nat} (opened : Opened p d first tables)
    (same : ∀ j, j < 1024 →
      frameBits (load32 p'.bytes (d + 4 * j)) =
        frameBits (load32 p.bytes (d + 4 * j))) :
    Opened p' d first tables := by
  intro j low less
  rw [same j less]
  exact opened j low less

/-- A page table is added, or an existing one is used again. -/
theorem Opened.retargeted {d first tables page t : Nat}
    (opened : Opened p d first tables) (near : page ≤ tables)
    (nonNull : t ≠ 0) (retargeted : Retargeted p p' d (first + page) t) :
    Opened p' d first (max tables (page + 1)) := by
  intro j low less
  rw [retargeted j less]
  split
  · next isIndex =>
      constructor
      · exact fun isNull => absurd isNull nonNull
      · omega
  · rw [opened j low less]
    omega

/-- The page tables from index `first` on are different frames. -/
def Separate (p : Paging) (d first tables : Nat) : Prop :=
  ∀ j j', j < tables → j' < tables → first + j < 1024 → first + j' < 1024 →
    frameBits (load32 p.bytes (d + 4 * (first + j))) =
      frameBits (load32 p.bytes (d + 4 * (first + j'))) → j = j'

theorem Separate.congr {d first tables : Nat}
    (separate : Separate p d first tables)
    (same : ∀ j, j < 1024 →
      frameBits (load32 p'.bytes (d + 4 * j)) =
        frameBits (load32 p.bytes (d + 4 * j))) :
    Separate p' d first tables := by
  intro j j' less less' inside inside' equal
  rw [same _ inside, same _ inside'] at equal
  exact separate j j' less less' inside inside' equal

/-- The table that is added is different from those that were there. -/
theorem Separate.retargeted {d first tables page t : Nat}
    (separate : Separate p d first tables)
    (retargeted : Retargeted p p' d (first + page) t)
    (new : (page = tables ∧ ∀ j, j < tables → first + j < 1024 →
        frameBits (load32 p.bytes (d + 4 * (first + j))) ≠ t) ∨
      page < tables ∧ t = frameBits (load32 p.bytes (d + 4 * (first + page)))) :
    Separate p' d first (max tables (page + 1)) := by
  intro j j' less less' inside inside' equal
  rw [retargeted _ inside, retargeted _ inside'] at equal
  rcases new with ⟨rfl, new⟩ | ⟨old, isOld⟩
  · by_cases isLast : j = page
    · by_cases isLast' : j' = page
      · rw [isLast, isLast']
      · rw [if_pos (by omega), if_neg (by omega)] at equal
        exact absurd equal.symm (new j' (by omega) inside')
    · rw [if_neg (by omega)] at equal
      by_cases isLast' : j' = page
      · rw [if_pos (by omega)] at equal
        exact absurd equal (new j (by omega) inside)
      · rw [if_neg (by omega)] at equal
        exact separate j j' (by omega) (by omega) inside inside' equal
  · have same : ∀ j, (if first + j = first + page then t
        else frameBits (load32 p.bytes (d + 4 * (first + j)))) =
          frameBits (load32 p.bytes (d + 4 * (first + j))) := by
      intro j
      split
      · next isPage => rw [isPage, isOld]
      · rfl
    rw [same, same] at equal
    exact separate j j' (by omega) (by omega) inside inside' equal

/-- The table that a turn of `pgdir_copy` uses is new, and was a free frame, or
is the one that was there. -/
theorem Separate.turned {d first tables page t : Nat}
    (separate : Separate p d first tables) (layout : Layout p role free)
    (isDirectory : IsDirectory role d) (high : 64 ≤ first)
    (opened : Opened p d first tables) (near : page ≤ tables)
    (inside : first + page < 1024) {popped : List Nat}
    (fromFree : ∀ f ∈ popped, f ∈ free)
    (length : popped.length =
      if frameBits (load32 p.bytes (d + 4 * (first + page))) = 0 then 1 else 0)
    (isNew : t ∈ popped ∨
      t = frameBits (load32 p.bytes (d + 4 * (first + page))))
    (nonNull : t ≠ 0) (retargeted : Retargeted p p' d (first + page) t) :
    Separate p' d first (max tables (page + 1)) := by
  have isNull := opened (first + page) (by omega) inside
  apply separate.retargeted retargeted
  by_cases old : page < tables
  · right
    refine ⟨old, isNew.resolve_left ?_⟩
    intro member
    rw [if_neg (isNull.not.mpr (by omega)), List.length_eq_zero_iff] at length
    rw [length] at member
    exact absurd member List.not_mem_nil
  · left
    refine ⟨by omega, ?_⟩
    intro j less within same
    -- a frame that was free is not the frame of a table
    have present := (opened (first + j) (by omega) within).not.mpr (by omega)
    have isTable := (layout.tables.own d isDirectory _ (by omega)
      within).resolve_left present
    have isFree : role t = .free := by
      rw [← layout.mem_free]
      apply fromFree
      apply isNew.resolve_right
      rw [isNull.mpr (by omega)]
      exact nonNull
    rw [same, isFree] at isTable
    cases isTable

/-- The loop of `pgdir_copy`, from page `i` of the region on. -/
theorem wp_copyPages {s d a first i count tables : Nat}
    (layout : Layout p role free) (isSource : IsDirectory role s)
    (isDirectory : IsDirectory role d) (high : 64 ≤ first)
    (inside : first * 1024 + i + count ≤ 0x100000)
    (reach : 0 < count → a + 0x1000 * count ≤ 0x100000000)
    (opened : Opened p d first tables) (near : i ≤ 1024 * tables)
    (safe : p.Guarded ∨
      max tables (tableCount (i + count)) - tables ≤ free.length) :
    wp (copyPages s d a (first * 0x400000 + 0x1000 * i) count)
      (fun _ p' => ∃ popped rest,
        Evolved p role free popped p' (assign role popped .table) rest ∧
        p'.blocks = p.blocks ∧
        popped.length = max tables (tableCount (i + count)) - tables ∧
        Opened p' d first (max tables (tableCount (i + count))) ∧
        (Separate p d first tables →
          Separate p' d first (max tables (tableCount (i + count)))))
      (Faulted p role free) p := by
  induction count generalizing p role free a i tables with
  | zero =>
      have enough : max tables (tableCount (i + 0)) = tables := by
        unfold tableCount
        omega
      refine ⟨[], free, ?_, rfl, ?_, ?_, ?_⟩
      · rw [assign_nil]
        exact .refl layout
      · rw [enough, Nat.sub_self]
        rfl
      · rwa [enough]
      · rw [enough]
        exact id
  | succ count ih =>
      generalize isDest : first * 0x400000 + 0x1000 * i = dest
      have index : pdIndex dest = first + i / 1024 := by
        rw [pdIndex_eq, ← isDest]
        omega
      have next : max tables (i / 1024 + 1) ≤
          max tables (tableCount (i + (count + 1))) := by
        unfold tableCount
        omega
      have sameMax : max (max tables (i / 1024 + 1))
          (tableCount (i + (count + 1))) =
            max tables (tableCount (i + (count + 1))) := by
        unfold tableCount
        omega
      have isNull := opened (first + i / 1024) (by omega) (by omega)
      unfold copyPages
      rw [wp_bind]
      -- the turn, whichever entry it reads
      have turn : ∀ entry, (∀ q : Paging, q.Mapped entry) →
          wp (do
            let destEntry ← getPtableEntry dest d true pageTableUserRw
            store destEntry (frameBits (← load entry) ||| pageTableUserRw)
            copyPages s d (a + 0x1000) (dest + 0x1000) count)
          (fun _ p' => ∃ popped rest,
            Evolved p role free popped p' (assign role popped .table) rest ∧
            p'.blocks = p.blocks ∧
            popped.length = max tables (tableCount (i + (count + 1))) - tables ∧
            Opened p' d first (max tables (tableCount (i + (count + 1)))) ∧
            (Separate p d first tables →
              Separate p' d first (max tables (tableCount (i + (count + 1))))))
          (Faulted p role free) p := by
        intro entry isMapped
        rw [wp_bind]
        have safe' : p.Guarded ∨
            (frameBits (load32 p.bytes (d + 4 * pdIndex dest)) = 0 →
              free ≠ []) := by
          rcases safe with guarded | enough
          · exact .inl guarded
          · right
            rw [index, isNull]
            intro missing isEmpty
            rw [isEmpty, List.length_nil] at enough
            omega
        apply wp_mono (wp_openOwn layout isDirectory (by omega) (by omega) safe')
        · rintro destEntry q ⟨popped, rest, t, evolved, blocks, isFrame, isTable,
            isEntry, length, isNew, retargeted⟩
          rw [index] at length isNew retargeted
          have isDirectory' := evolved.isDirectory layout isDirectory
          have bounds := isFrame.lt
          have inTable := ptIndex_lt dest
          have isOpened : Opened q d first (max tables (i / 1024 + 1)) :=
            opened.retargeted (by omega) (by omega) retargeted
          have isSeparate : Separate p d first tables →
              Separate q d first (max tables (i / 1024 + 1)) := by
            refine fun separate => separate.turned layout isDirectory high opened
              (by omega) (by omega) ?_ length isNew (by omega) retargeted
            intro f member
            rw [evolved.free]
            exact List.mem_append_left rest member
          rw [wp_bind]
          apply wp_load (isMapped q)
          rw [wp_bind, isEntry]
          apply wp_store (isFrame.mapped_entry dest)
          generalize isStored : store32 q.bytes (t + 4 * ptIndex dest) _ = stored
          have same : SameEntries (assign role popped .table) q.bytes stored := by
            apply evolved.layout.sameEntries isFrame (.inl isTable)
            intro x outside
            rw [← isStored]
            exact store32_outside (by omega)
          have kept : Evolved q (assign role popped .table) rest []
              { q with bytes := stored } (assign role popped .table) rest :=
            .of_layout (evolved.layout.write same) rfl rfl rfl
              (same.table 0 (by decide))
          have turned := evolved.trans kept
          rw [List.append_nil] at turned
          have targets : ∀ j, j < 1024 →
              frameBits (load32 stored (d + 4 * j)) =
                frameBits (load32 q.bytes (d + 4 * j)) := by
            intro j less
            rw [← same.directory d isDirectory' j less]
          have opened' : Opened { q with bytes := stored } d first
              (max tables (i / 1024 + 1)) :=
            isOpened.congr targets
          have safe'' : Paging.Guarded { q with bytes := stored } ∨
              max (max tables (i / 1024 + 1)) (tableCount (i + 1 + count)) -
                max tables (i / 1024 + 1) ≤ rest.length := by
            rcases safe with guarded | enough
            · exact .inl (turned.guarded guarded)
            · right
              have total : free.length = popped.length + rest.length := by
                rw [evolved.free, List.length_append]
              rw [if_congr isNull rfl rfl] at length
              rw [show i + 1 + count = i + (count + 1) by omega]
              split at length <;> omega
          have isNext : dest + 0x1000 = first * 0x400000 + 0x1000 * (i + 1) := by
            omega
          rw [isNext]
          apply wp_mono (ih turned.layout
            (evolved.isDirectory layout isSource) isDirectory' (by omega)
            (by omega) opened' (by omega) safe'')
          · rintro - p' ⟨popped', rest', later, blocks', length', isOpened',
              isSeparate'⟩
            rw [assign_assign] at later
            rw [show i + 1 + count = i + (count + 1) by omega, sameMax]
              at length' isOpened' isSeparate'
            refine ⟨popped ++ popped', rest', turned.trans later,
              blocks'.trans blocks, ?_, isOpened', fun separate =>
                isSeparate' ((isSeparate separate).congr targets)⟩
            rw [if_congr isNull rfl rfl] at length
            rw [List.length_append, length']
            split at length <;> omega
          · exact fun _ _ faulted => .after turned faulted
        · exact fun _ _ faulted => faulted
      apply wp_find layout isSource (by omega)
      · exact fun low => turn _ fun _ => mapped_sharedEntry low
      · intro t isTable
        have isFrame := layout.isFrame t (by rw [isTable]; decide)
        exact turn _ fun _ => isFrame.mapped_entry a
      · intro message isPage
        cases isPage

end Nebulea
