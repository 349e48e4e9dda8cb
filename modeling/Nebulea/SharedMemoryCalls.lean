import Nebulea.SharedMemoryLaws

/-!
# The calls on shared pages

Each call of `shared_memory.c` is given a rule that says what it does to the
pairs of the registry and to the frames.
-/

namespace Nebulea

open ByteMemory ExceptState

/-- Memory and registry are in order. -/
structure Sane (m : Memory) (role : Nat → Role) (free : List Nat) : Prop where
  layout : Layout m.paging role free
  kept : m.shared.Kept m.paging.blocks
  seen : idleBlock ∈ m.paging.blocks

section Rules

variable {Value : Type} {m : Memory} {post : Value → Memory → Prop}
variable {fault : Fault → Memory → Prop}

theorem wp_onPaging (code : PM Value) :
    wp (onPaging code) post fault m =
      wp code (fun value p => post value { m with paging := p })
        (fun failure p => fault failure { m with paging := p }) m.paging := by
  unfold wp onPaging
  cases code m.paging <;> rfl

theorem wp_onTable_some {result : Option Value} {value : Value}
    (found : result = some value) :
    wp (onTable result) post fault m = post value m := by
  rw [found]
  rfl

end Rules

variable {m : Memory} {role : Nat → Role} {free : List Nat}

/-- The pairs do not depend on the counter. -/
theorem Registry.kept_count {shared : Registry} {blocks : List Block}
    (kept : shared.Kept blocks) (number : Int) :
    Registry.Kept { shared with number := number } blocks :=
  ⟨⟨kept.byContent.hfunc, kept.byContent.cmp⟩, kept.settled, kept.page,
    kept.distinct⟩

theorem Registry.Kept.mono {shared : Registry} {blocks blocks' : List Block}
    (kept : shared.Kept blocks) (more : ∀ block ∈ blocks, block ∈ blocks') :
    shared.Kept blocks' where
  byContent := kept.byContent
  settled := kept.settled
  page := by
    intro string page registered
    obtain ⟨member, isFrame, notIdle⟩ := kept.page string page registered
    exact ⟨more _ member, isFrame, notIdle⟩
  distinct := kept.distinct

/-- What `register` does to the registry. -/
theorem wp_register {key : KeyPtr} {page : Nat} {blocks : List Block}
    (kept : m.shared.Kept blocks)
    (more : ∀ block ∈ blocks, block ∈ m.paging.blocks)
    (absent : ∀ q, ¬ m.shared.Registered key.string q)
    (new : ∀ string, ¬ m.shared.Registered string page)
    (isFrame : IsFrame page) (notIdle : page ≠ memoryStart)
    (member : ⟨page, 0x1000⟩ ∈ m.paging.blocks) :
    wp (register key page)
      (fun _ m' => m'.paging = m.paging ∧ m'.shared.number = m.shared.number ∧
        m'.shared.Kept m.paging.blocks ∧
        ∀ string q, m'.shared.Registered string q ↔
          string = key.string ∧ q = page ∨
            string ≠ key.string ∧ m.shared.Registered string q)
      (fun _ _ => False) m := by
  generalize isCopy : (⟨m.shared.nextCopy, key.string⟩ : KeyPtr) = copy
  have sameString : copy.string = key.string := by
    rw [← isCopy]
  obtain ⟨table, isSet, settled, hfunc, cmp, -, holds⟩ :=
    kept.settled.hashSet kept.size_lt copy page (by
      intro q holds
      rw [kept.byContent.holds_iff, sameString] at holds
      exact absent q holds)
  have byContent : Registry.ByContent { m.shared with table := table } :=
    ⟨hfunc.trans kept.byContent.hfunc, cmp.trans kept.byContent.cmp⟩
  have pairs : ∀ string q,
      Registry.Registered { m.shared with table := table } string q ↔
        string = key.string ∧ q = page ∨
          string ≠ key.string ∧ m.shared.Registered string q := by
    intro string q
    have step := holds ⟨0, string⟩ q
    rw [byContent.holds_iff ⟨0, string⟩ q, kept.byContent.holds_iff ⟨0, string⟩ q,
      kept.byContent.cmp, Registry.cmp_iff, Bool.eq_false_iff, ne_eq,
      Registry.cmp_iff, sameString] at step
    rw [step]
    constructor
    · rintro (⟨same, isPage⟩ | ⟨other, registered⟩)
      · exact .inl ⟨same.symm, isPage⟩
      · exact .inr ⟨fun same => other same.symm, registered⟩
    · rintro (⟨same, isPage⟩ | ⟨other, registered⟩)
      · exact .inl ⟨same.symm, isPage⟩
      · exact .inr ⟨fun same => other same.symm, registered⟩
  unfold register
  simp only [wp_bind, wp_get]
  rw [isCopy, wp_onTable_some isSet, wp_modify]
  refine ⟨rfl, rfl, ⟨⟨byContent.hfunc, byContent.cmp⟩, settled, ?_, ?_⟩, pairs⟩
  · intro string q registered
    rcases (pairs string q).mp registered with ⟨-, isPage⟩ | ⟨-, registered⟩
    · rw [isPage]
      exact ⟨member, isFrame, notIdle⟩
    · obtain ⟨inBlocks, rest⟩ := kept.page string q registered
      exact ⟨more _ inBlocks, rest⟩
  · intro string string' q registered registered'
    rcases (pairs string q).mp registered with ⟨rfl, isPage⟩ | ⟨-, registered⟩ <;>
      rcases (pairs string' q).mp registered' with ⟨rfl, isPage'⟩ |
        ⟨-, registered'⟩
    · rfl
    · rw [isPage] at registered'
      exact absurd registered' (new string')
    · rw [isPage'] at registered
      exact absurd registered (new string)
    · exact kept.distinct string string' q registered registered'

/-- The string that a process passes. -/
def Memory.stringOf (m : Memory) (key : KeyPtr) : CString :=
  (m.shared.resolve key).string

theorem Sane.count (sane : Sane m role free) (number : Int) :
    Sane { m with shared := { m.shared with number := number } } role free :=
  ⟨sane.layout, Registry.kept_count sane.kept number, sane.seen⟩

theorem Registry.registered_or (shared : Registry) (string : CString) :
    (∃ page, shared.Registered string page) ∨
      ∀ page, ¬ shared.Registered string page := by
  by_cases some : ∃ page, shared.Registered string page
  · exact .inl some
  · exact .inr fun page registered => some ⟨page, registered⟩

theorem Sane.role_page (sane : Sane m role free) {string : CString} {page : Nat}
    (registered : m.shared.Registered string page) : role page = .data := by
  obtain ⟨member, isFrame, -⟩ := sane.kept.page string page registered
  exact sane.layout.blocks.data _ member page isFrame ⟨Nat.le_refl page, by simp⟩

theorem Sane.nonNull (sane : Sane m role free) {string : CString} {page : Nat}
    (registered : m.shared.Registered string page) : page ≠ 0 := by
  have bounds := (sane.kept.page string page registered).2.1.lt
  omega

/-- Nothing but the counter of the registry has changed. -/
structure OnlyCounted (m m' : Memory) : Prop where
  paging : m'.paging = m.paging
  pairs : ∀ string page,
    m'.shared.Registered string page ↔ m.shared.Registered string page

/-- A page has been registered under a new string. -/
structure Made (m : Memory) (role : Nat → Role) (free : List Nat)
    (string : CString) (page : Nat) (m' : Memory) (rest : List Nat) :
    Prop where
  absent : ∀ q, ¬ m.shared.Registered string q
  isFree : free = page :: rest
  evolved : Evolved m.paging role free [page] m'.paging
    (assign role [page] .data) rest
  sane : Sane m' (assign role [page] .data) rest
  pairs : ∀ string' q, m'.shared.Registered string' q ↔
    string' = string ∧ q = page ∨
      string' ≠ string ∧ m.shared.Registered string' q

/-- `shm_create` of a registered string, below the maximum. -/
theorem wp_createKey_registered {key : KeyPtr} {page : Nat}
    (sane : Sane m role free)
    (registered : m.shared.Registered (m.stringOf key) page) :
    wp (createKey key) (fun result m' => result = 0 ∧ m' = m)
      (fun _ _ => False) m := by
  unfold createKey
  simp only [wp_bind, wp_get]
  have get := sane.kept.hashGet (m.shared.resolve key)
  rw [wp_onTable_some (get.1 page registered), if_pos (sane.nonNull registered),
    wp_pure]
  exact ⟨rfl, rfl⟩

/-- `shm_create` below the maximum. -/
theorem wp_createKey {key : KeyPtr} (sane : Sane m role free)
    (safe : m.paging.Guarded ∨ free ≠ []) :
    wp (createKey key)
      (fun page m' =>
        (page = 0 ∧ m' = m ∧ ∃ q, m.shared.Registered (m.stringOf key) q) ∨
          ∃ rest, Made m role free (m.stringOf key) page m' rest)
      (fun failure m' => m'.shared = m.shared ∧ free = [] ∧
        Faulted m.paging role free failure m'.paging) m := by
  rcases m.shared.registered_or (m.stringOf key) with ⟨page, registered⟩ | absent
  · apply wp_mono (wp_createKey_registered sane registered)
    · exact fun _ _ ⟨isNull, isSame⟩ => .inl ⟨isNull, isSame, page, registered⟩
    · exact fun _ _ never => absurd never id
  · unfold createKey
    simp only [wp_bind, wp_get]
    have get := sane.kept.hashGet (m.shared.resolve key)
    rw [wp_onTable_some (get.2 absent), if_neg (by simp), wp_bind, wp_onPaging]
    have safe' : m.paging.Guarded ∨ pageCount 4096 ≤ free.length := by
      apply safe.imp_right
      intro nonempty
      exact List.length_pos_iff.mpr nonempty
    apply wp_mono (wp_and (wp_mallocSmall sane.layout safe' sane.seen (by decide))
      (wp_mallocOne sane.layout safe))
    case onFault =>
      exact fun failure p' ⟨faulted, empty⟩ => ⟨rfl, empty, faulted⟩
    rintro page p' ⟨⟨popped, rest, evolved, length, isHead, -, inBlocks⟩, -⟩
    obtain ⟨isFrame, inBlocks⟩ := inBlocks (by decide)
    obtain ⟨only, rfl⟩ : ∃ only, popped = [only] :=
      List.length_eq_one_iff.mp length
    have isPage : page = only := isHead
    subst isPage
    have isFree : role page = .free := by
      rw [← sane.layout.mem_free, evolved.free]
      exact List.mem_cons_self
    have notIdle : page ≠ memoryStart := by
      rintro rfl
      exact sane.layout.idle_notFree sane.seen isFree
    have new : ∀ string, ¬ m.shared.Registered string page := by
      intro string registered
      rw [sane.role_page registered] at isFree
      cases isFree
    rw [wp_bind]
    apply wp_mono (wp_register (m := { m with paging := p' }) sane.kept
      evolved.blocks absent new isFrame notIdle inBlocks)
    case onFault => exact fun _ _ never => absurd never id
    rintro - m' ⟨isPaging, -, kept, pairs⟩
    refine .inr ⟨rest, absent, evolved.free, ?_, ⟨?_, ?_, ?_⟩, pairs⟩
    · rw [isPaging]
      exact evolved
    · rw [isPaging]
      exact evolved.layout
    · rw [isPaging]
      exact kept
    · rw [isPaging]
      exact evolved.blocks _ sane.seen

/-- `shm_create`. -/
theorem wp_shmCreate {key : Option KeyPtr} (sane : Sane m role free)
    (safe : m.paging.Guarded ∨ free ≠ []) :
    wp (shmCreate key)
      (fun page m' =>
        (page = 0 ∧ OnlyCounted m m' ∧ Sane m' role free ∧
          ∀ k, key = some k → m.shared.number < maxSharedPages →
            ∃ q, m.shared.Registered (m.stringOf k) q) ∨
          ∃ k rest, key = some k ∧
            Made m role free (m.stringOf k) page m' rest)
      (fun failure m' => Registry.Kept m'.shared m.paging.blocks ∧
        (∀ string page,
          m'.shared.Registered string page ↔ m.shared.Registered string page) ∧
        free = [] ∧ Faulted m.paging role free failure m'.paging) m := by
  unfold shmCreate
  simp only [wp_bind, wp_get]
  by_cases full : m.shared.number ≥ maxSharedPages
  · rw [if_pos full, wp_pure]
    refine .inl ⟨rfl, ⟨rfl, fun _ _ => Iff.rfl⟩, sane, ?_⟩
    intro k _ less
    omega
  · rw [if_neg full, wp_bind]
    unfold count
    rw [wp_modify]
    have counted := sane.count (m.shared.number + 1)
    cases key with
    | none =>
        refine .inl ⟨rfl, ⟨rfl, fun _ _ => Iff.rfl⟩, counted, ?_⟩
        intro k isKey
        cases isKey
    | some k =>
        apply wp_mono (wp_createKey counted safe)
        · rintro page m' (⟨isNull, isSame, registered⟩ | ⟨rest, made⟩)
          · left
            rw [isSame]
            refine ⟨isNull, ⟨rfl, fun _ _ => Iff.rfl⟩, counted, ?_⟩
            intro k' isKey _
            cases isKey
            exact registered
          · exact .inr ⟨k, rest, rfl, made.absent, made.isFree, made.evolved,
              made.sane, made.pairs⟩
        · rintro failure m' ⟨isShared, empty, faulted⟩
          rw [isShared]
          exact ⟨counted.kept, fun _ _ => Iff.rfl, empty, faulted⟩

/-- `shm_create` of a registered string. -/
theorem wp_shmCreate_registered {key : KeyPtr} {page : Nat}
    (sane : Sane m role free)
    (registered : m.shared.Registered (m.stringOf key) page) :
    wp (shmCreate (some key)) (fun result m' => result = 0 ∧ OnlyCounted m m')
      (fun _ _ => False) m := by
  unfold shmCreate
  simp only [wp_bind, wp_get]
  by_cases full : m.shared.number ≥ maxSharedPages
  · rw [if_pos full, wp_pure]
    exact ⟨rfl, rfl, fun _ _ => Iff.rfl⟩
  · rw [if_neg full, wp_bind]
    unfold count
    rw [wp_modify]
    have counted := sane.count (m.shared.number + 1)
    apply wp_mono (wp_createKey_registered counted registered)
    · rintro result m' ⟨isNull, isSame⟩
      rw [isSame]
      exact ⟨isNull, rfl, fun _ _ => Iff.rfl⟩
    · exact fun _ _ never => never

/-- Only page tables have changed. -/
structure OnlyMapped (m m' : Memory) : Prop where
  shared : m'.shared = m.shared
  taken : m'.paging.taken = m.paging.taken
  blocks : m'.paging.blocks = m.paging.blocks
  released : m'.paging.released = m.paging.released
  cr3 : m'.paging.cr3 = m.paging.cr3

/-- An entry for the first page says nothing about frames. -/
theorem Layout.showNull {p : Paging} (layout : Layout p role free) :
    Layout
      { p with
        bytes := store32 p.bytes (sharedEntry 0)
          (frameBits 0 ||| pageTableUserRw) }
      role free := by
  change Layout { p with bytes := store32 p.bytes (pgtab + 4 * 0) _ } role free
  apply layout.setShared (by decide) (by decide)
  · exact fun low => absurd low (by decide)
  · intro used
    exact absurd (layout.isFrame _ used) (by decide)
  · intro isStart
    exact absurd isStart (by decide)

/-- The mapping of a page that user code may see. -/
theorem wp_mapShared {p : Paging} {page : Nat} {post : Unit → Paging → Prop}
    {fault : Fault → Paging → Prop} (layout : Layout p role free)
    (low : page < 0x10000000)
    (shows : ∀ q : Paging, Layout q role free →
      Layout
        { q with
          bytes := store32 q.bytes (sharedEntry page)
            (frameBits page ||| pageTableUserRw) }
        role free)
    (holds : ∀ bytes, Layout { p with bytes := bytes } role free →
      post () { p with bytes := bytes }) :
    wp (mapShared page) post fault p := by
  have index : pdIndex page < 1024 := by
    rw [pdIndex_eq]
    omega
  unfold mapShared
  simp only [wp_bind, wp_get]
  apply wp_openShared layout layout.cr3 low
  apply wp_store (mapped_sharedEntry low)
  exact holds _ (shows _ (layout.setPermission layout.cr3 index))

/-- `shm_acquire`. -/
theorem wp_shmAcquire {key : KeyPtr} (sane : Sane m role free) :
    wp (shmAcquire key)
      (fun page m' => OnlyMapped m m' ∧ Sane m' role free ∧
        (m.shared.Registered (m.stringOf key) page ∨
          page = 0 ∧ ∀ q, ¬ m.shared.Registered (m.stringOf key) q))
      (fun _ _ => False) m := by
  unfold shmAcquire
  simp only [wp_bind, wp_get]
  have get := sane.kept.hashGet (m.shared.resolve key)
  rcases m.shared.registered_or (m.stringOf key) with ⟨page, registered⟩ | absent
  · obtain ⟨member, isFrame, -⟩ := sane.kept.page _ page registered
    have bounds := isFrame.lt
    rw [wp_onTable_some (get.1 page registered), wp_bind, wp_onPaging]
    apply wp_mapShared sane.layout (by omega)
    · intro q layout
      exact layout.show isFrame (sane.role_page registered)
    · intro bytes layout
      exact ⟨⟨rfl, rfl, rfl, rfl, rfl⟩, ⟨layout, sane.kept, sane.seen⟩,
        .inl registered⟩
  · rw [wp_onTable_some (get.2 absent), wp_bind, wp_onPaging]
    apply wp_mapShared sane.layout (by decide)
    · exact fun q layout => layout.showNull
    · intro bytes layout
      exact ⟨⟨rfl, rfl, rfl, rfl, rfl⟩, ⟨layout, sane.kept, sane.seen⟩,
        .inr ⟨rfl, absent⟩⟩

/-- A page has been given back. -/
structure Freed (m : Memory) (role : Nat → Role) (free : List Nat)
    (string : CString) (page : Nat) (m' : Memory) : Prop where
  registered : m.shared.Registered string page
  paging : m'.paging = m.paging.freed page
  sane : Sane m' (assign role [page] .free) (page :: free)
  pairs : ∀ string' q, m'.shared.Registered string' q ↔
    string' ≠ string ∧ m.shared.Registered string' q

/-- `shm_release`, when it does not return at once. -/
theorem wp_releaseKey {key : KeyPtr} (sane : Sane m role free) :
    wp (releaseKey key)
      (fun _ m' =>
        (m' = m ∧ ∀ q, ¬ m.shared.Registered (m.stringOf key) q) ∨
          ∃ page, Freed m role free (m.stringOf key) page m')
      (fun _ _ => False) m := by
  unfold releaseKey
  simp only [wp_bind, wp_get]
  have get := sane.kept.hashGet (m.shared.resolve key)
  rcases m.shared.registered_or (m.stringOf key) with ⟨page, registered⟩ | absent
  · obtain ⟨member, isFrame, notIdle⟩ := sane.kept.page _ page registered
    obtain ⟨table, isDel, settled, hfunc, cmp, -, holds⟩ :=
      sane.kept.settled.hashDel sane.kept.size_lt (m.shared.resolve key)
    have byContent : Registry.ByContent { m.shared with table := table } :=
      ⟨hfunc.trans sane.kept.byContent.hfunc, cmp.trans sane.kept.byContent.cmp⟩
    have pairs : ∀ string q,
        Registry.Registered { m.shared with table := table } string q ↔
          string ≠ m.stringOf key ∧ m.shared.Registered string q := by
      intro string q
      have step := holds ⟨0, string⟩ q
      rw [byContent.holds_iff ⟨0, string⟩ q,
        sane.kept.byContent.holds_iff ⟨0, string⟩ q, sane.kept.byContent.cmp,
        Bool.eq_false_iff, ne_eq, Registry.cmp_iff] at step
      rw [step]
      constructor
      · exact fun ⟨other, rest⟩ => ⟨fun same => other same.symm, rest⟩
      · exact fun ⟨other, rest⟩ => ⟨fun same => other same.symm, rest⟩
    rw [wp_onTable_some (get.1 page registered),
      if_pos (sane.nonNull registered), wp_bind, wp_onPaging]
    apply wp_virtualFree sane.layout member
    rw [wp_bind, wp_onTable_some isDel, wp_modify]
    refine .inr ⟨page, registered, rfl, ⟨?_, ⟨⟨byContent.hfunc, byContent.cmp⟩,
      settled, ?_, ?_⟩, ?_⟩, pairs⟩
    · exact sane.layout.freed member notIdle
    · intro string q isRegistered
      obtain ⟨other, wasRegistered⟩ := (pairs string q).mp isRegistered
      obtain ⟨inBlocks, rest⟩ := sane.kept.page string q wasRegistered
      refine ⟨List.mem_filter.mpr ⟨inBlocks, ?_⟩, rest⟩
      rw [decide_eq_true_iff]
      intro same
      have samePage : q = page := same
      rw [samePage] at wasRegistered
      exact other (sane.kept.distinct _ _ _ wasRegistered registered)
    · intro string string' q first second
      exact sane.kept.distinct string string' q ((pairs string q).mp first).2
        ((pairs string' q).mp second).2
    · refine List.mem_filter.mpr ⟨sane.seen, ?_⟩
      rw [decide_eq_true_iff]
      exact fun same => notIdle same.symm
  · rw [wp_onTable_some (get.2 absent), if_neg (by simp), wp_pure]
    exact .inl ⟨rfl, absent⟩

/-- `shm_release`. -/
theorem wp_shmRelease {key : KeyPtr} (sane : Sane m role free) :
    wp (shmRelease key)
      (fun _ m' =>
        (OnlyCounted m m' ∧ Sane m' role free ∧
          (0 ≤ m.shared.number →
            ∀ q, ¬ m.shared.Registered (m.stringOf key) q)) ∨
          ∃ page, Freed m role free (m.stringOf key) page m')
      (fun _ _ => False) m := by
  unfold shmRelease
  simp only [wp_bind, wp_get]
  by_cases negative : m.shared.number < 0
  · rw [if_pos negative, wp_pure]
    refine .inl ⟨⟨rfl, fun _ _ => Iff.rfl⟩, sane, ?_⟩
    intro positive
    omega
  · rw [if_neg negative, wp_bind]
    unfold count
    rw [wp_modify]
    have counted := sane.count (m.shared.number + -1)
    apply wp_mono (wp_releaseKey counted)
    · rintro - m' (⟨isSame, absent⟩ | ⟨page, freed⟩)
      · rw [isSame]
        exact .inl ⟨⟨rfl, fun _ _ => Iff.rfl⟩, counted, fun _ => absent⟩
      · exact .inr ⟨page, freed.registered, freed.paging, freed.sane, freed.pairs⟩
    · exact fun _ _ never => never

end Nebulea
