import Nebulea.AddressSpaces

/-!
# Memory at boot

Until the first page is given back, the free list holds consecutive frames, so
every block lies in the frames that were taken for it.
-/

namespace Nebulea

open ByteMemory ExceptState

/-- The frames of `init_free_list`, in order. -/
def frameAt (k : Nat) : Nat :=
  memoryStart + stride * k

def allFrames : List Nat :=
  (List.range frameCount).map frameAt

theorem isFrame_iff (f : Nat) : IsFrame f ↔ ∃ k < frameCount, frameAt k = f := by
  unfold IsFrame frameAt frameCount memoryStart memoryEnd stride
  constructor
  · rintro ⟨low, high, multiple⟩
    exact ⟨(f - 0x4000000) / 0x4000, by omega, by omega⟩
  · rintro ⟨k, less, rfl⟩
    omega

theorem mem_allFrames (f : Nat) : f ∈ allFrames ↔ IsFrame f := by
  rw [isFrame_iff, allFrames, List.mem_map]
  simp only [List.mem_range]

theorem allFrames_nodup : allFrames.Nodup := by
  apply List.Nodup.map _ List.nodup_range
  intro j k same
  unfold frameAt stride at same
  omega

/-! ## `init_free_list` -/

/-- One turn of the loop of `init_free_list`. -/
theorem storeLinks_succ (bytes : Bytes) (count : Nat) :
    storeLinks bytes (count + 1) =
      store32 (storeLinks bytes count) (frameAt count) (frameAt (count + 1)) := by
  funext x
  unfold storeLinks store32 frameAt memoryStart stride
  by_cases last : 0x4000000 + 0x4000 * count ≤ x ∧
      x < 0x4000000 + 0x4000 * count + 4
  · have quotient : (x - 0x4000000) / 0x4000 = count := by omega
    have remainder : (x - 0x4000000) % 0x4000 =
        x - (0x4000000 + 0x4000 * count) := by omega
    rw [if_neg (by omega), if_neg (by omega), quotient, remainder]
  · rw [if_pos (show x < 0x4000000 + 0x4000 * count ∨
      0x4000000 + 0x4000 * count + 4 ≤ x by omega)]
    exact if_congr (by omega) rfl rfl

theorem load_storeLinks {bytes : Bytes} {count k : Nat} (less : k < count) :
    load32 (storeLinks bytes count) (frameAt k) =
      frameAt (k + 1) % 0x100000000 := by
  apply load32_of_bytes
  intro i small
  unfold storeLinks frameAt memoryStart stride
  have quotient : (0x4000000 + 0x4000 * k + i - 0x4000000) / 0x4000 = k := by
    omega
  have remainder : (0x4000000 + 0x4000 * k + i - 0x4000000) % 0x4000 = i := by
    omega
  rw [if_neg (by omega), quotient, remainder]

/-- The link of each frame. -/
theorem load_initFreeList {bytes : Bytes} {k : Nat} (less : k < frameCount) :
    load32 (initFreeList bytes) (frameAt k) =
      if k + 1 < frameCount then frameAt (k + 1) else 0 := by
  unfold initFreeList
  change load32 (store32 _ (frameAt (frameCount - 1)) 0) _ = _
  by_cases last : k + 1 < frameCount
  · have apart : frameAt k + 4 ≤ frameAt (frameCount - 1) := by
      unfold frameAt stride
      omega
    have small : frameAt (k + 1) < 0x100000000 := by
      unfold frameAt memoryStart stride
      unfold frameCount memoryEnd memoryStart stride at last
      omega
    rw [if_pos last, load32_store32_apart (.inl apart),
      load_storeLinks (by omega), Nat.mod_eq_of_lt small]
  · have isLast : k = frameCount - 1 := by omega
    rw [if_neg last, isLast, load32_store32]

/-- `init_free_list` writes nothing below the frames. -/
theorem load_initFreeList_low {bytes : Bytes} {a : Nat}
    (low : a + 4 ≤ memoryStart) :
    load32 (initFreeList bytes) a = load32 bytes a := by
  unfold initFreeList
  rw [load32_store32_apart (by omega)]
  apply load32_congr
  intro x _ high
  exact if_pos (by omega)

theorem linked_initFreeList {bytes : Bytes} {k count : Nat}
    (ends : k + count + 1 = frameCount) :
    Linked (initFreeList bytes) (frameAt k)
      ((List.range' k (count + 1)).map frameAt) := by
  induction count generalizing k with
  | zero =>
      refine ⟨rfl, ?_⟩
      rw [load_initFreeList (by omega), if_neg (by omega)]
      rfl
  | succ count ih =>
      refine ⟨rfl, ?_⟩
      rw [load_initFreeList (by omega), if_pos (by omega)]
      exact ih (by omega)

/-! ## `early_mm_map_kernel` -/

section EarlyMm

variable {readOnly : Nat → Bool} {bytes : Bytes}

theorem load_earlyMm_directory {i : Nat} (less : i < 1024) :
    load32 (earlyMmMapKernel readOnly bytes) (pgdir + 4 * i) =
      (if i < 64 then (pgtab + i * 0x1000) ||| pageTableRw else 0) := by
  unfold earlyMmMapKernel
  rw [load32_storeWords less]
  apply Nat.mod_eq_of_lt
  split
  · have aligned : (pgtab + i * 0x1000) % 0x1000 = 0 := by
      unfold pgtab
      omega
    rw [or_flags aligned (by decide)]
    unfold pgtab pageTableRw
    omega
  · decide

/-- The flags of the kernel's entries. -/
def earlyFlags (readOnly : Nat → Bool) (page : Nat) : Nat :=
  if 0x1000 * page < memoryStart ∧ readOnly page then pageTableRo
  else pageTableRw

theorem earlyFlags_lt (readOnly : Nat → Bool) (page : Nat) :
    earlyFlags readOnly page < 0x1000 := by
  unfold earlyFlags
  split <;> decide

theorem load_earlyMm_table {page : Nat} (less : page < 0x10000) :
    load32 (earlyMmMapKernel readOnly bytes) (pgtab + 4 * page) =
      if page = 0 then 0 else page * 0x1000 ||| earlyFlags readOnly page := by
  unfold earlyMmMapKernel
  rw [load32_storeWords_apart (by unfold pgtab pgdir; omega),
    load32_storeWords (show page < 64 * 1024 by omega)]
  apply Nat.mod_eq_of_lt
  split
  · decide
  · have flags := earlyFlags_lt readOnly page
    unfold earlyFlags at flags
    rw [or_flags (Nat.mul_mod_left page 0x1000) flags]
    omega

/-- The roles at boot. -/
def bootRole (f : Nat) : Role :=
  if IsFrame f then .free else .data

theorem isDirectory_bootRole {d : Nat} (isDirectory : IsDirectory bootRole d) :
    d = pgdir := by
  rcases isDirectory with isKernel | isRole
  · exact isKernel
  · unfold bootRole at isRole
    split at isRole <;> cases isRole

theorem allFrames_eq : allFrames = (List.range' 0 (12287 + 1)).map frameAt := by
  unfold allFrames
  rw [List.range_eq_range']
  rfl

/-- Memory agrees with the roles when `init_free_list` returns. -/
theorem layout_booting :
    Layout (Paging.booting readOnly bytes) bootRole allFrames where
  linked := by
    have ends : 0 + 12287 + 1 = frameCount := by decide
    have linked : Linked (initFreeList (earlyMmMapKernel readOnly bytes))
        (frameAt 0) ((List.range' 0 (12287 + 1)).map frameAt) :=
      linked_initFreeList ends
    rw [allFrames_eq]
    exact linked
  nodup := allFrames_nodup
  mem_free := by
    intro f
    rw [mem_allFrames]
    unfold bootRole
    split <;> simp_all
  isFrame := by
    intro f used
    unfold bootRole at used
    split at used
    · assumption
    · exact absurd rfl used
  tables :=
    { shared := by
        intro d isDirectory i less
        rw [isDirectory_bootRole isDirectory]
        change frameBits (load32 (initFreeList _) _) = _
        have aligned : (pgtab + i * 0x1000) % 0x1000 = 0 := by
          unfold pgtab
          omega
        rw [load_initFreeList_low (by unfold pgdir memoryStart; omega),
          load_earlyMm_directory (by omega), if_pos less,
          frameBits_or_flags aligned (by unfold pgtab; omega) (by decide),
          Nat.mul_comm]
      own := by
        intro d isDirectory i low less
        rw [isDirectory_bootRole isDirectory]
        change frameBits (load32 (initFreeList _) _) = 0 ∨ _
        rw [load_initFreeList_low (by unfold pgdir memoryStart; omega),
          load_earlyMm_directory less, if_neg (by omega)]
        exact .inl rfl
      identity := by
        intro page low high
        change frameBits (load32 (initFreeList _) _) = _
        unfold memoryStart memoryEnd at *
        rw [load_initFreeList_low (by unfold pgtab memoryStart; omega),
          load_earlyMm_table (by omega), if_neg (by omega),
          frameBits_or_flags (Nat.mul_mod_left page 0x1000) (by omega)
            (earlyFlags_lt readOnly page), Nat.mul_comm]
      hidden := by
        intro f used
        change isUser (load32 (initFreeList _) _) = false
        have isFrame : IsFrame f := by
          unfold bootRole at used
          split at used
          · assumption
          · exact absurd rfl used
        have bounds := isFrame.lt
        rw [load_initFreeList_low
            (by unfold sharedEntry pgtab memoryStart; omega), sharedEntry_eq,
          load_earlyMm_table (by omega), if_neg (by omega)]
        unfold isUser
        rw [testBit_or_flags (Nat.mul_mod_left _ 0x1000) (by decide)]
        unfold earlyFlags
        split <;> decide }
  seen := by
    intro member
    cases member
  blocks := ⟨by simp [Paging.booting], by simp [Paging.booting],
    List.Pairwise.nil⟩
  released := by
    intro f member
    cases member
  cr3 := .inl rfl

theorem guarded_booting : (Paging.booting readOnly bytes).Guarded := by
  unfold Paging.Guarded
  change isPresent (load32 (initFreeList _) (pgtab + 4 * 0)) = false
  rw [load_initFreeList_low (by decide), load_earlyMm_table (by decide),
    if_pos rfl]
  decide

end EarlyMm

/-! ## Blocks in fresh memory -/

theorem covers_frame_iff {f g size : Nat} (isFrame : IsFrame f)
    (isFrame' : IsFrame g) (small : size ≤ 0x4000)
    (covers : (Block.mk g size).Covers f) : f = g := by
  have far := isFrame.eq_or_far isFrame'
  obtain ⟨low, high⟩ := covers
  simp only at low high
  omega

/-- A block that is no longer than the distance of two frames. -/
theorem fits_of_small {frames : List Nat} {size : Nat}
    (areFrames : ∀ f ∈ frames, IsFrame f) (small : size ≤ 0x4000) :
    Fits frames size := by
  intro length f isFrame covers
  cases frames with
  | nil =>
      have none : size = 0 := by
        unfold pageCount at length
        simp only [List.length_nil] at length
        omega
      obtain ⟨low, high⟩ := covers
      simp only [List.headD_nil, none] at low high
      omega
  | cons g rest =>
      have same := covers_frame_iff isFrame (areFrames g List.mem_cons_self) small
        covers
      rw [same]
      exact List.mem_cons_self

/-- A block of consecutive frames. -/
theorem fits_of_consecutive (k size : Nat) :
    Fits ((allFrames.drop k).take (pageCount size)) size := by
  intro length f isFrame covers
  have isList : allFrames.drop k =
      (List.range' k (frameCount - k)).map frameAt := by
    unfold allFrames
    rw [← List.map_drop, List.range_eq_range', List.drop_range', Nat.zero_add,
      Nat.mul_one]
  have taken : (allFrames.drop k).take (pageCount size) =
      (List.range' k (pageCount size)).map frameAt := by
    have enough : pageCount size ≤ frameCount - k := by
      rw [isList, List.length_take, List.length_map, List.length_range'] at length
      omega
    rw [isList, ← List.map_take, List.take_range'_of_length_ge enough]
  rw [taken] at covers ⊢
  obtain ⟨j, less, rfl⟩ := (isFrame_iff f).mp isFrame
  apply List.mem_map_of_mem
  rw [List.mem_range'_1]
  obtain ⟨low, high⟩ := covers
  cases isCount : pageCount size with
  | zero =>
      have none : size = 0 := by
        unfold pageCount at isCount
        omega
      simp only [none] at low high
      omega
  | succ count =>
      rw [isCount] at low high
      simp only [List.range'_succ, List.map_cons, List.headD_cons] at low high
      unfold frameAt stride at low high
      unfold pageCount at isCount
      omega

/-! ## `__init_idle` -/

section Idle

variable {p : Paging} {role : Nat → Role} {free : List Nat}

/-- The record of idle is in the first frame, in the sight of user code. -/
theorem wp_mallocIdle {rest : List Nat}
    (layout : Layout p role (memoryStart :: rest)) (isKernel : p.cr3 = pgdir)
    (alone : ∀ d, IsDirectory role d → d = pgdir) :
    wp (virtualMalloc sizeofProcess)
      (fun _ p' => Evolved p role (memoryStart :: rest) [memoryStart] p'
        (assign role [memoryStart] .data) rest ∧ idleBlock ∈ p'.blocks)
      (Faulted p role (memoryStart :: rest)) p := by
  have turn := layout.mallocTurn
  unfold virtualMalloc
  rw [wp_bind]
  change wp (mallocPages 0 (0 + 1)) _ _ _
  apply wp_mallocTurn layout (.inr (List.cons_ne_nil _ _))
  case empty => exact fun isEmpty => absurd isEmpty (List.cons_ne_nil _ _)
  intro f rest' isList
  obtain ⟨rfl, rfl⟩ := List.cons.inj isList
  unfold mallocPages
  rw [wp_pure, if_pos rfl, if_neg (by decide)]
  simp only [wp_bind, wp_modify, wp_pure]
  have isData : assign role [memoryStart] .data memoryStart = .data :=
    assign_of_mem (List.mem_singleton.mpr rfl)
  have seen : IdleSeen (p.mallocTurn memoryStart).bytes
      (assign role [memoryStart] .data) := by
    unfold Paging.mallocTurn
    simp only [isKernel]
    constructor
    · rw [load32_store32]
      decide
    · intro d isDirectory
      have isPgdir : d = pgdir := by
        apply alone
        rcases isDirectory with isKernel | isRole
        · exact .inl isKernel
        · right
          rw [assign_singleton] at isRole
          split at isRole
          · cases isRole
          · exact isRole
      have shared := layout.tables.shared pgdir (.inl rfl) (pdIndex memoryStart)
        (by decide)
      rw [isPgdir, load32_store32_apart (by decide), load32_store32, shared]
      decide
  have added := turn.layout.addBlock idleBlock .memoryStart (by decide) (by
    intro f isFrame covers
    have same := covers_frame_iff isFrame .memoryStart (by decide) covers
    rw [same]
    exact ⟨.memoryStart, isData, layout.spare_pop.2.1⟩) (fun _ => seen)
  refine ⟨⟨added, turn.free, turn.role, turn.taken, ?_, turn.cr3, turn.first⟩,
    List.mem_cons_self⟩
  exact fun block member => List.mem_cons_of_mem _ (turn.blocks block member)

/-- Blocks that fit between two frames need no further condition. -/
theorem wp_mallocSmall {size : Nat} (layout : Layout p role free)
    (safe : p.Guarded ∨ pageCount size ≤ free.length)
    (seen : idleBlock ∈ p.blocks) (small : size ≤ 0x4000) :
    wp (virtualMalloc size)
      (fun base p' => ∃ popped rest,
        Evolved p role free popped p' (assign role popped .data) rest ∧
        popped.length = pageCount size ∧ base = popped.headD 0 ∧
        SameTargets role p p' ∧
        (0 < size → IsFrame base ∧ ⟨base, size⟩ ∈ p'.blocks))
      (Faulted p role free) p := by
  apply wp_virtualMalloc layout safe _ (layout.idle_notFree seen)
  apply fits_of_small _ small
  intro f member
  exact layout.isFrame_of_mem (List.mem_of_mem_take member)

/-- One page can be had while the free list is not empty. -/
theorem wp_mallocOne (layout : Layout p role free)
    (safe : p.Guarded ∨ free ≠ []) :
    wp (virtualMalloc 0x1000) (fun _ _ => True) (fun _ _ => free = []) p := by
  unfold virtualMalloc
  rw [wp_bind]
  apply wp_mallocTurn layout safe
  · rintro f rest rfl
    unfold mallocPages
    rw [wp_pure, wp_ite, if_pos rfl]
    split
    · trivial
    · trivial
  · exact id

/-- `map_page_from_virtual_address` above the memory that the kernel maps. -/
theorem wp_mapPage {a : Nat} (layout : Layout p role free) (guarded : p.Guarded)
    (low : 0x10000000 ≤ a) (high : a < 0x100000000) :
    wp (mapPage pgdir a pageTableUserRw)
      (fun _ p' => ∃ popped role' rest,
        Evolved p role free popped p' role' rest)
      (Faulted p role free) p := by
  have index : 64 ≤ pdIndex a ∧ pdIndex a < 1024 := by
    rw [pdIndex_eq]
    omega
  unfold mapPage
  rw [wp_bind]
  apply wp_mono (wp_openOwn layout (.inl rfl) index.1 index.2 (.inl guarded))
  case onFault => exact fun _ _ faulted => faulted
  rintro entry p₁ ⟨popped, rest, t, evolved, -, isFrame, isTable, rfl, -, -, -⟩
  have bounds := isFrame.lt
  have inTable := ptIndex_lt a
  simp only [wp_bind, wp_get]
  apply wp_store (isFrame.mapped_entry a)
  generalize isStored : store32 p₁.bytes (t + 4 * ptIndex a) _ = stored
  have same : SameEntries (assign role popped .table) p₁.bytes stored := by
    apply evolved.layout.sameEntries isFrame (.inl isTable)
    intro x outside
    rw [← isStored]
    exact store32_outside (by omega)
  have kept : Evolved p₁ (assign role popped .table) rest []
      { p₁ with bytes := stored } (assign role popped .table) rest :=
    .of_layout (evolved.layout.write same) rfl rfl rfl (same.table 0 (by decide))
  have evolved' := evolved.trans kept
  rw [wp_bind]
  apply wp_allocate kept.layout (.inl (evolved'.guarded guarded))
  case empty => exact fun _ => .after evolved' (.refl kept.layout .page)
  rintro f rest' rfl
  rw [wp_pure]
  have popped' := kept.layout.pop (f :: p₁.taken)
  exact ⟨_, _, rest', evolved'.trans ⟨popped', rfl,
    fun g notMember => assign_of_notMem notMember, rfl,
    fun _ member => member, rfl, rfl⟩⟩

/-- The loop of `map_region`. -/
theorem wp_mapPages {a count : Nat} (layout : Layout p role free)
    (guarded : p.Guarded) (low : 0x10000000 ≤ a)
    (high : a + 0x1000 * count ≤ 0x100000000) :
    wp (mapPages pgdir a pageTableUserRw count)
      (fun _ p' => ∃ popped role' rest,
        Evolved p role free popped p' role' rest)
      (Faulted p role free) p := by
  induction count generalizing p role free a with
  | zero => exact ⟨[], role, free, .refl layout⟩
  | succ count ih =>
      unfold mapPages
      rw [wp_bind]
      apply wp_mono (wp_mapPage layout guarded low (by omega))
      case onFault => exact fun _ _ faulted => faulted
      rintro - p₁ ⟨popped, role₁, rest, evolved⟩
      have low' : 0x10000000 ≤ a + 0x1000 := Nat.le_add_right_of_le low
      have high' : a + 0x1000 + 0x1000 * count ≤ 0x100000000 := by omega
      apply wp_mono (ih evolved.layout (evolved.guarded guarded) low' high')
      case onFault => exact fun _ _ faulted => .after evolved faulted
      rintro - p₂ ⟨popped', role₂, rest', later⟩
      exact ⟨_, role₂, rest', evolved.trans later⟩

/-- What `__init_idle` leaves of the memory. -/
theorem wp_mapIdle {readOnly : Nat → Bool} {bytes : Bytes} {image : Image} :
    wp (mapIdle image)
      (fun _ p' => ∃ popped role' rest,
        Evolved (.booting readOnly bytes) bootRole allFrames popped p' role'
          rest ∧ idleBlock ∈ p'.blocks)
      (fun _ _ => True) (.booting readOnly bytes) := by
  have isList : allFrames = memoryStart :: allFrames.tail := by
    rw [allFrames_eq]
    rfl
  have guarded : (Paging.booting readOnly bytes).Guarded := guarded_booting
  have layout : Layout (.booting readOnly bytes) bootRole allFrames :=
    layout_booting
  have idle := wp_mallocIdle (isList ▸ layout) rfl
    (fun d => isDirectory_bootRole)
  rw [← isList] at idle
  have proceed : ∀ {p popped role' rest size},
      Evolved (.booting readOnly bytes) bootRole allFrames popped p role' rest →
      idleBlock ∈ p.blocks → size ≤ 0x4000 →
      wp (virtualMalloc size)
        (fun _ p' => ∃ popped role' rest,
          Evolved (.booting readOnly bytes) bootRole allFrames popped p' role'
            rest ∧ idleBlock ∈ p'.blocks)
        (fun _ _ => True) p := by
    intro p popped role' rest size evolved seen less
    apply wp_mono (wp_mallocSmall evolved.layout
      (.inl (evolved.guarded guarded)) seen less)
    case onFault => exact fun _ _ _ => trivial
    rintro - p' ⟨popped', rest', later, -, -, -, -⟩
    exact ⟨_, _, rest', evolved.trans later, later.blocks _ seen⟩
  have region : ∀ {p popped role' rest a count},
      Evolved (.booting readOnly bytes) bootRole allFrames popped p role' rest →
      idleBlock ∈ p.blocks → 0x10000000 ≤ a →
      a + 0x1000 * count ≤ 0x100000000 →
      wp (mapPages pgdir a pageTableUserRw count)
        (fun _ p' => ∃ popped role' rest,
          Evolved (.booting readOnly bytes) bootRole allFrames popped p' role'
            rest ∧ idleBlock ∈ p'.blocks)
        (fun _ _ => True) p := by
    intro p popped role' rest a count evolved seen low high
    apply wp_mono (wp_mapPages evolved.layout (evolved.guarded guarded) low high)
    case onFault => exact fun _ _ _ => trivial
    rintro - p' ⟨popped', role'', rest', later⟩
    exact ⟨_, _, rest', evolved.trans later, later.blocks _ seen⟩
  unfold mapIdle
  rw [wp_bind]
  apply wp_mono idle
  case onFault => exact fun _ _ _ => trivial
  rintro - p₁ ⟨evolved₁, seen₁⟩
  rw [wp_bind]
  apply wp_mono (proceed evolved₁ seen₁ (by decide))
  case onFault => exact fun _ _ _ => trivial
  rintro - p₂ ⟨popped₂, role₂, rest₂, evolved₂, seen₂⟩
  rw [wp_bind]
  apply wp_mono (proceed evolved₂ seen₂ (by decide))
  case onFault => exact fun _ _ _ => trivial
  rintro - p₃ ⟨popped₃, role₃, rest₃, evolved₃, seen₃⟩
  rw [wp_bind]
  have imageHigh : oneGigabyte + 0x1000 * (image.size / 0x1000 + 1) ≤
      0x100000000 := by
    have small := image.small
    unfold oneGigabyte
    omega
  apply wp_mono (region evolved₃ seen₃ (by decide) imageHigh)
  case onFault => exact fun _ _ _ => trivial
  rintro - p₄ ⟨popped₄, role₄, rest₄, evolved₄, seen₄⟩
  exact region evolved₄ seen₄ (by decide) (by decide)

end Idle

/-- `start` finds consecutive frames as long as frames were only taken. -/
theorem contains_booting {p : Paging} {role : Nat → Role}
    {free popped : List Nat} (layout : Layout p role free)
    (consecutive : allFrames = popped ++ free) (image : Image) (ssize : Nat)
    (enough : p.Guarded ∨ framesOfSpace image ssize ≤ free.length) :
    p.Contains image ssize := by
  have isRest : free = allFrames.drop popped.length := by
    rw [consecutive, List.drop_left]
  constructor
  · rw [layout.linksFrom_eq, List.take_take, Nat.min_eq_left, isRest]
    · exact fits_of_consecutive _ _
    · unfold framesOfSpace framesBeforeStack
      omega
  · rw [layout.linksFrom_eq, List.drop_take, List.take_take, Nat.min_eq_left,
      isRest, List.drop_drop]
    · exact fits_of_consecutive _ _
    · unfold framesOfSpace
      omega
  · rw [layout.linksFrom_eq, List.length_take]
    exact enough.imp_right Nat.min_eq_left

end Nebulea
