import Nebulea.FramePoolRuns

/-!
# Blocks of frames

`virtual_malloc` takes one frame for each 4096 bytes, from wherever the free
list leads.  `virtual_free` goes through consecutive pages from the address of
the first frame, and frames are 16 KB apart.
-/

namespace Nebulea

open ByteMemory ExceptState

variable {ok : Nat → Prop} {p p' : Paging} {dirs free : List Nat} {size : Nat}

/-! ## The loop of `virtual_malloc` -/

theorem taken_grants (frames : List Nat) (p : Paging) :
    (frames.foldl Paging.granted p).taken = frames.reverse ++ p.taken := by
  induction frames generalizing p with
  | nil => rfl
  | cons f frames ih =>
      rw [List.foldl_cons, ih, List.reverse_cons, List.append_assoc]
      rfl

theorem Pool.grants {popped rest : List Nat} (pool : Pool ok p dirs (popped ++ rest)) :
    Pool ok (popped.foldl Paging.granted p) dirs rest := by
  induction popped generalizing p with
  | nil => exact pool
  | cons f popped ih => exact ih pool.granted

/-- Frames that nothing leads to stay so. -/
theorem Idle.granted {f g : Nat} {rest : List Nat} (idle : Idle p dirs g)
    (pool : Pool ok p dirs (f :: rest)) : Idle (p.granted f) dirs g where
  isFrame := idle.isFrame
  notDirectory := idle.notDirectory
  notTable := by
    intro d member i less
    have isFrame := pool.isFrame f List.mem_cons_self
    have bounds := isFrame.lt
    have index := pdIndex_eq f
    have popped : Pool ok (p.popped f) dirs rest := pool.pop rfl rfl rfl
    have place := popped.directory_bounds member
    have shared : sharedEntry f < 0x142000 ∧ 0x102000 ≤ sharedEntry f := by
      rw [sharedEntry_eq]
      unfold pgtab
      omega
    have small := load32_lt p.bytes (p.cr3 + 4 * pdIndex f)
    have aligned := frameBits_aligned small
    have bound := frameBits_lt small
    have few : pageTableUserRw < 0x1000 := by decide
    have entry : load32 (p.granted f).bytes (d + 4 * i) =
        load32 ((p.popped f).permitted p.cr3 (pdIndex f) pageTableUserRw).bytes
          (d + 4 * i) :=
      load32_store32_apart (by omega)
    rw [entry]
    have fits : frameBits (load32 p.bytes (p.cr3 + 4 * pdIndex f)) |||
        pageTableUserRw < 0x100000000 := by
      rw [or_flags aligned few]
      omega
    have opened := popped.load_directory popped.cr3
      (show pdIndex f < 1024 by omega) member less fits
    change load32 ((p.popped f).permitted p.cr3 (pdIndex f)
      pageTableUserRw).bytes (d + 4 * i) = _ at opened
    rw [opened]
    split
    · rw [frameBits_or_flags aligned bound few]
      exact idle.notTable p.cr3 pool.cr3 (pdIndex f) (by omega)
    · exact idle.notTable d member i less

theorem Idle.grants {g : Nat} {popped rest : List Nat} (idle : Idle p dirs g)
    (pool : Pool ok p dirs (popped ++ rest)) :
    Idle (popped.foldl Paging.granted p) dirs g := by
  induction popped generalizing p with
  | nil => exact idle
  | cons f popped ih => exact ih (idle.granted pool) pool.granted

/-- A list that is long enough: the frames are taken from its front, and the
first is returned. -/
theorem Pool.wp_mallocPages {post : Nat → Paging → Prop}
    {fault : Fault → Paging → Prop} {initial count : Nat}
    (pool : Pool ok p dirs free) (enough : count ≤ free.length)
    (holds : post (if initial = 0 then (free.take count).headD 0 else initial)
      ((free.take count).foldl Paging.granted p)) :
    wp (mallocPages initial count) post fault p := by
  induction count generalizing p free initial with
  | zero =>
      have same : (if initial = 0 then 0 else initial) = initial := by
        split
        · next isNull => exact isNull.symm
        · rfl
      have kept : post initial p := by
        rw [← same]
        exact holds
      exact kept
  | succ count ih =>
      cases free with
      | nil => cases enough
      | cons f rest =>
          have bounds := (pool.isFrame f List.mem_cons_self).lt
          apply pool.wp_mallocTurn
          apply ih pool.granted (Nat.le_of_succ_le_succ enough)
          have started : (if initial = 0 then f else initial) ≠ 0 := by
            split
            · omega
            · assumption
          rw [if_neg started]
          exact holds

/-- A list that is too short: the null pointer at its end is followed. -/
theorem Pool.short_mallocPages {initial count : Nat} (pool : Pool ok p dirs free)
    (short : free.length < count) :
    wp (mallocPages initial count)
      (fun _ p' => ∃ since, p'.taken = since ++ p.taken ∧ 0 ∈ since)
      (fun _ _ => True) p := by
  induction count generalizing p free initial with
  | zero => cases short
  | succ count ih =>
      cases free with
      | nil =>
          exact pool.wp_mallocNull ⟨[0], rfl, List.mem_cons_self⟩ trivial
      | cons f rest =>
          apply pool.wp_mallocTurn
          refine wp_mono (ih pool.granted (Nat.lt_of_succ_lt_succ short)) ?_
            fun _ _ _ => trivial
          rintro _ p' ⟨since, taken, null⟩
          refine ⟨since ++ [f], ?_, List.mem_append_left _ null⟩
          rw [taken, List.append_assoc]
          rfl

/-- `virtual_malloc` on a list that is long enough. -/
theorem Pool.virtualMalloc_ok (pool : Pool ok p dirs free) (positive : 0 < size)
    (enough : pageCount size ≤ free.length) :
    ∃ base rest, free = base :: rest ∧
      virtualMalloc size p = .ok base
        { (free.take (pageCount size)).foldl Paging.granted p with
          blocks := ⟨base, size⟩ ::
            ((free.take (pageCount size)).foldl Paging.granted p).blocks } := by
  have some := pageCount_pos positive
  cases free with
  | nil => cases Nat.lt_of_lt_of_le some enough
  | cons base rest =>
      have bounds := (pool.isFrame base List.mem_cons_self).lt
      obtain ⟨count, isCount⟩ := Nat.exists_eq_succ_of_ne_zero some.ne'
      refine ⟨base, rest, rfl, ?_⟩
      have result : wp (virtualMalloc size)
          (fun value p' => value = base ∧ p' =
            { ((base :: rest).take (pageCount size)).foldl Paging.granted p with
              blocks := ⟨base, size⟩ ::
                (((base :: rest).take (pageCount size)).foldl
                  Paging.granted p).blocks })
          (fun _ _ => False) p := by
        unfold virtualMalloc
        rw [wp_bind]
        apply pool.wp_mallocPages enough
        rw [if_pos rfl, isCount, List.take_succ_cons, List.headD_cons,
          if_neg (by omega)]
        simp only [wp_bind, wp_modify, wp_pure]
        trivial
      unfold wp at result
      split at result
      · next value next isOk =>
          rw [isOk, result.1, result.2]
      · cases result

/-! ## The loop of `virtual_free` -/

/-- An address that has been given back since `earlier`. -/
def GivenBack (earlier : List Nat) (a : Nat) (p : Paging) : Prop :=
  ∃ back, p.released = back ++ earlier ∧ a ∈ back

theorem keeps_load {fact : Paging → Prop} (a : Nat) : Keeps fact (load a) := by
  intro p holds
  unfold load
  simp only [wp_bind, wp_get]
  split
  · exact holds
  · exact holds

theorem keeps_findEntry {fact : Paging → Prop} (a d : Nat) :
    Keeps fact (getPtableEntry a d false 0) := by
  unfold getPtableEntry ptable
  apply Keeps.bind
  · apply Keeps.bind (keeps_load _)
    intro entry
    dsimp only
    split
    · exact Keeps.pure _
    · exact Keeps.throw _
  · intro table
    rw [if_neg (by simp)]
    exact Keeps.pure _

theorem GivenBack.store {earlier : List Nat} {a : Nat} (target word : Nat) :
    Keeps (GivenBack earlier a) (store target word) := by
  intro p holds
  unfold Nebulea.store
  simp only [wp_bind, wp_get]
  split
  · exact holds
  · exact holds

/-- Nothing that was given back is taken by `virtual_free`. -/
theorem GivenBack.freePages {earlier : List Nat} {a : Nat} (address count : Nat) :
    Keeps (GivenBack earlier a) (freePages address count) := by
  induction count generalizing address with
  | zero => exact Keeps.pure ()
  | succ count ih =>
      unfold Nebulea.freePages freePhysicalMemoryAddress
      apply Keeps.bind Keeps.get
      intro p
      apply Keeps.bind (keeps_findEntry address p.cr3)
      intro entry
      apply Keeps.bind (keeps_load entry)
      intro word
      apply Keeps.bind
      · apply Keeps.bind Keeps.get
        intro p
        apply Keeps.bind (GivenBack.store _ _)
        intro _
        apply Keeps.modify
        rintro p ⟨back, released, member⟩
        refine ⟨frameBits word :: back, ?_, List.mem_cons_of_mem _ member⟩
        change _ :: p.released = _
        rw [released]
        rfl
      · intro _
        apply Keeps.bind (GivenBack.store _ _)
        exact fun _ => ih _

/-! ## A block that is given back -/

/-- What one expects of `virtual_free (virtual_malloc (size), size)`: the frames
given back are those that were taken, and the free list has the same frames as
before. -/
def PutsBack (p : Paging) (free : List Nat) (size : Nat) : Prop :=
  ∃ base p' p'' removed back free',
    virtualMalloc size p = .ok base p' ∧ virtualFree base size p' = .ok () p'' ∧
      p'.taken = removed ++ p.taken ∧ p''.released = back ++ p'.released ∧
      back.Perm removed ∧ Linked p''.bytes p''.head free' ∧ free'.Perm free

/-- Blocks of one page. -/
theorem Pool.putsBack_page (pool : Pool ok p dirs free) (positive : 0 < size)
    (enough : pageCount size ≤ free.length) (small : size ≤ 0x1000) :
    PutsBack p free size := by
  obtain ⟨base, rest, rfl, malloc⟩ := pool.virtualMalloc_ok positive enough
  have one : pageCount size = 1 := by
    unfold pageCount
    omega
  rw [one] at malloc
  have isFrame := pool.isFrame base List.mem_cons_self
  have aligned := isFrame.aligned
  obtain ⟨low, high, -⟩ := isFrame
  have idle := (pool.idle List.mem_cons_self).granted pool
  have notFree := (List.nodup_cons.mp pool.nodup).1
  have granted := pool.granted
  have freed : wp (virtualFree base size)
      (fun _ p'' => p''.released = [base] ++ (p.granted base).released ∧
        Linked p''.bytes p''.head (base :: rest))
      (fun _ _ => False)
      { p.granted base with
        blocks := ⟨base, size⟩ :: (p.granted base).blocks } := by
    unfold virtualFree
    rw [one, wp_bind]
    have same : Pool ok { p.granted base with
        blocks := ⟨base, size⟩ :: (p.granted base).blocks } dirs rest :=
      granted.congr rfl rfl ⟨fun _ _ => rfl, fun _ _ _ _ => rfl, fun _ _ => rfl⟩
    apply same.wp_freeTurn low high aligned
    unfold freePages
    rw [wp_pure, wp_modify]
    exact ⟨rfl, (granted.givenBack idle notFree).linked⟩
  unfold wp at freed
  split at freed
  · next value p'' isOk =>
      obtain ⟨released, linked⟩ := freed
      exact ⟨base, _, p'', [base], [base], base :: rest, malloc, isOk, rfl,
        released, List.Perm.refl _, linked, List.Perm.refl _⟩
  · cases freed

/-- From the second turn on, `virtual_free` is at pages where no frame
starts. -/
theorem Pool.second_page (pool : Pool ok p dirs free) {f : Nat}
    (idle : Idle p dirs f) (notFree : f ∉ free) (count : Nat) :
    wp (freePages f (count + 2))
      (fun _ => GivenBack p.released (f + 0x1000)) (fun _ _ => True) p := by
  have bounds := idle.isFrame.lt
  have aligned := idle.isFrame.aligned
  obtain ⟨low, high, -⟩ := idle.isFrame
  apply pool.wp_freeTurn low high aligned
  apply (pool.givenBack idle notFree).wp_freeTurn
  · omega
  · unfold memoryEnd
    omega
  · omega
  · refine wp_mono (GivenBack.freePages _ count _
      ⟨[f + 0x1000, f], rfl, List.mem_cons_self⟩) (fun _ _ given => given)
      fun _ _ _ => trivial

/-- The second page of a block is put in the free list, where it was not
before. -/
theorem Pool.not_putsBack (pool : Pool ok p dirs free)
    (enough : pageCount size ≤ free.length) (large : 0x1000 < size) :
    ¬ PutsBack p free size := by
  rintro ⟨base, p', p'', removed, back, free', malloc, freed, taken, released,
    same, -⟩
  obtain ⟨base', rest, isFree, malloc'⟩ :=
    pool.virtualMalloc_ok (by omega) enough
  have atFront : base' ∈ free.take (pageCount size) := by
    have some : 0 < pageCount size := pageCount_pos (by omega)
    obtain ⟨count, isCount⟩ := Nat.exists_eq_succ_of_ne_zero some.ne'
    rw [isFree, isCount, List.take_succ_cons]
    exact List.mem_cons_self
  have split : free.take (pageCount size) ++ free.drop (pageCount size) = free :=
    List.take_append_drop _ _
  generalize free.take (pageCount size) = popped at malloc' atFront split
  generalize free.drop (pageCount size) = others at split
  rw [malloc'] at malloc
  cases malloc
  subst split
  have isFrame (f : Nat) (member : f ∈ popped) : IsFrame f :=
    pool.isFrame f (List.mem_append_left others member)
  have idle := (pool.idle (List.mem_append_left others atFront)).grants pool
  have notFree : base ∉ others := fun isOther =>
    (List.nodup_append.mp pool.nodup).2.2 base atFront base isOther rfl
  obtain ⟨count, isCount⟩ : ∃ count, pageCount size = count + 2 := by
    unfold pageCount
    exact ⟨(size + 0xFFF) / 0x1000 - 2, by omega⟩
  -- the second page is given back
  have given : wp (virtualFree base size)
      (fun _ => GivenBack (popped.foldl Paging.granted p).released
        (base + 0x1000))
      (fun _ _ => True)
      { popped.foldl Paging.granted p with
        blocks := ⟨base, size⟩ :: (popped.foldl Paging.granted p).blocks } := by
    have recorded : Pool ok { popped.foldl Paging.granted p with
        blocks := ⟨base, size⟩ ::
          (popped.foldl Paging.granted p).blocks } dirs others :=
      pool.grants.congr rfl rfl
        ⟨fun _ _ => rfl, fun _ _ _ _ => rfl, fun _ _ => rfl⟩
    unfold virtualFree
    rw [isCount, wp_bind]
    exact wp_mono (recorded.second_page
      ⟨idle.isFrame, idle.notDirectory, idle.notTable⟩ notFree count)
      (fun _ _ given => given) fun _ _ _ => trivial
  obtain ⟨back', released', member⟩ := wp_ok given freed
  have isBack : back' = back :=
    List.append_cancel_right (released'.symm.trans released)
  -- and it was not taken
  have isRemoved : popped.reverse = removed :=
    List.append_cancel_right ((taken_grants popped p).symm.trans taken)
  rw [isBack, same.mem_iff, ← isRemoved, List.mem_reverse] at member
  have first := isFrame base atFront
  have second := isFrame _ member
  have far := first.eq_or_far second
  omega

/-- `virtual_free` undoes `virtual_malloc` for blocks of at most one page, and
for no others. -/
theorem putsBack_iff_one_page (pool : Pool ok p dirs free) (positive : 0 < size)
    (enough : pageCount size ≤ free.length) :
    PutsBack p free size ↔ size ≤ 0x1000 := by
  constructor
  · intro putsBack
    by_contra large
    exact pool.not_putsBack enough (Nat.lt_of_not_le large) putsBack
  · exact pool.putsBack_page positive enough

/-- A block of one page at boot. -/
theorem putsBack_iff_one_page_at_boot :
    PutsBack (Paging.booting (fun _ => false) fun _ => 0) allFrames 0x1000 ↔
      0x1000 ≤ 0x1000 :=
  putsBack_iff_one_page (@pool_booting AnyFlags trivial _ _) (by decide) (by
    rw [length_allFrames]
    decide)

/-- A block of two pages at boot. -/
theorem two_pages_not_putsBack :
    ¬ ∀ (p : Paging) (dirs free : List Nat) (size : Nat),
      Pool AnyFlags p dirs free → 0 < size → pageCount size ≤ free.length →
        PutsBack p free size := by
  intro always
  have pool := @pool_booting AnyFlags trivial (fun _ => false) fun _ => 0
  have enough : pageCount 0x2000 ≤ allFrames.length := by
    rw [length_allFrames]
    decide
  exact pool.not_putsBack enough (by decide)
    (always _ _ _ 0x2000 pool (by decide) enough)

/-! ## Blocks that do not fit -/

/-- What one expects of `virtual_malloc`: it never follows the null pointer at
the end of the list, it returns `NULL` exactly when the list is too short, and
it then leaves the list as it was. -/
def FailsCleanly (p : Paging) (free : List Nat) (size : Nat) : Prop :=
  ∃ base p' since free',
    virtualMalloc size p = .ok base p' ∧ p'.taken = since ++ p.taken ∧
      0 ∉ since ∧ Linked p'.bytes p'.head free' ∧
      (free.length < pageCount size → base = 0 ∧ free'.Perm free) ∧
      (pageCount size ≤ free.length → base ≠ 0)

theorem Pool.failsCleanly (pool : Pool ok p dirs free) (positive : 0 < size)
    (enough : pageCount size ≤ free.length) : FailsCleanly p free size := by
  obtain ⟨base, rest, isFree, malloc⟩ :=
    pool.virtualMalloc_ok positive enough
  have bounds := (pool.isFrame base (by
    rw [isFree]
    exact List.mem_cons_self)).lt
  have split : free.take (pageCount size) ++ free.drop (pageCount size) = free :=
    List.take_append_drop _ _
  have granted : Pool ok ((free.take (pageCount size)).foldl Paging.granted p) dirs
      (free.drop (pageCount size)) := by
    apply Pool.grants
    rwa [split]
  refine ⟨base, _, (free.take (pageCount size)).reverse, _, malloc,
    taken_grants _ p, ?_, granted.linked, ?_, ?_⟩
  · intro null
    have isFrame := (pool.isFrame 0
      (List.mem_of_mem_take (List.mem_reverse.mp null))).lt
    omega
  · intro short
    omega
  · intro _
    omega

/-- The list head is followed before it is compared with `NULL`. -/
theorem Pool.not_failsCleanly (pool : Pool ok p dirs free)
    (short : free.length < pageCount size) : ¬ FailsCleanly p free size := by
  rintro ⟨base, p', since, free', malloc, taken, nonNull, -⟩
  have ends : wp (virtualMalloc size)
      (fun _ p' => ∃ since, p'.taken = since ++ p.taken ∧ 0 ∈ since)
      (fun _ _ => True) p := by
    unfold virtualMalloc
    rw [wp_bind]
    refine wp_mono (pool.short_mallocPages short) ?_ fun _ _ _ => trivial
    intro base p' followed
    split
    · exact followed
    · simp only [wp_bind, wp_modify, wp_pure]
      exact followed
  obtain ⟨since', taken', null⟩ := wp_ok ends malloc
  have same : since' = since := List.append_cancel_right (taken'.symm.trans taken)
  rw [same] at null
  exact nonNull null

/-- `virtual_malloc` does what one expects when the list is long enough, and
only then. -/
theorem failsCleanly_iff_enough (pool : Pool ok p dirs free)
    (positive : 0 < size) :
    FailsCleanly p free size ↔ pageCount size ≤ free.length := by
  constructor
  · intro clean
    by_contra short
    exact pool.not_failsCleanly (Nat.lt_of_not_le short) clean
  · exact pool.failsCleanly positive

/-- A block of one page at boot. -/
theorem failsCleanly_iff_enough_at_boot :
    FailsCleanly (Paging.booting (fun _ => false) fun _ => 0) allFrames 0x1000 ↔
      pageCount 0x1000 ≤ allFrames.length :=
  failsCleanly_iff_enough (@pool_booting AnyFlags trivial _ _) (by decide)

/-- A block of 256 MB at boot. -/
theorem large_block_not_failsCleanly :
    ¬ ∀ (p : Paging) (dirs free : List Nat) (size : Nat),
      Pool AnyFlags p dirs free → 0 < size → FailsCleanly p free size := by
  intro always
  have pool := @pool_booting AnyFlags trivial (fun _ => false) fun _ => 0
  have short : allFrames.length < pageCount 0x10000000 := by
    rw [length_allFrames]
    decide
  exact pool.not_failsCleanly short (always _ _ _ _ pool (by decide))

end Nebulea
