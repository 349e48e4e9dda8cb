import Nebulea.ByteMemory
import Nebulea.KernelState

/-!
# `mmu.c`: frames, page tables and address spaces

The kernel maps the first 256 MB of memory one to one and shares the 64 page
tables of that mapping between all page directories, so an address below 256 MB
stands for the frame of the same number in whatever directory is loaded.
Addresses from 256 MB on fault in the kernel, and so does the first page until
an entry for it is written.

The loops that fill a whole table are given by their result: the word number
`i` of the array, as a function of `i`.
-/

namespace Nebulea

open ByteMemory

/-- `MEMORY_START`. -/
def memoryStart : Nat := 0x4000000
/-- `MEMORY_END`. -/
def memoryEnd : Nat := 0x10000000
/-- `address + 4096`, in bytes, for an `address` of type `int *`. -/
def stride : Nat := 0x4000
/-- `ONE_GIGABYTE`. -/
def oneGigabyte : Nat := 0x40000000
/-- `TWO_GIGABYTES`. -/
def twoGigabytes : Nat := 0x80000000
/-- `PAGE_TABLE_RO`. -/
def pageTableRo : Nat := 1
/-- `PAGE_TABLE_RW`, and `PAGE_DIR_FLAGS`. -/
def pageTableRw : Nat := 3
/-- `PAGE_TABLE_USER_RW`. -/
def pageTableUserRw : Nat := 7
/-- `pgdir`, one page after the start of the kernel. -/
def pgdir : Nat := 0x101000
/-- `pgtab`, the 64 page tables that follow `pgdir`. -/
def pgtab : Nat := 0x102000

/-- The bytes a caller of `virtual_malloc` asked for and got. -/
structure Block where
  base : Nat
  size : Nat
  deriving DecidableEq, Repr

/-- Physical memory, the head of the free list and the register `cr3`.  The
last three fields are a record of what happened and are read by no code: the
blocks that `virtual_malloc` returned and `virtual_free` did not take back, the
frames taken from the free list, latest first, and the frames that were put
back and not taken again. -/
structure Paging where
  bytes : Bytes
  /-- `PHYSICAL_MEMORY_HEAD`. -/
  head : Nat
  cr3 : Nat
  blocks : List Block
  taken : List Nat
  released : List Nat

/-- Code of `mmu.c`. -/
abbrev PM := EStateM Fault Paging

/-- The addresses that the kernel can read and write. -/
def Paging.Mapped (p : Paging) (a : Nat) : Prop :=
  a < memoryEnd ∧ (a < 0x1000 → isPresent (load32 p.bytes pgtab) = true)

instance (p : Paging) (a : Nat) : Decidable (p.Mapped a) :=
  inferInstanceAs (Decidable (_ ∧ (_ → _)))

/-- `*address`. -/
def load (a : Nat) : PM Nat := do
  let p ← get
  if p.Mapped a then pure (load32 p.bytes a) else throw .page

/-- `*address = word`. -/
def store (a word : Nat) : PM Unit := do
  let p ← get
  if p.Mapped a then
    set { p with bytes := store32 p.bytes a word }
  else
    throw .page

/-- A loop that assigns `count` elements of an array of words. -/
def storeArray (a count : Nat) (words : Nat → Nat) : PM Unit := do
  let p ← get
  if p.Mapped a then do
    let fits := min count ((memoryEnd - a) / 4)
    set { p with bytes := storeWords p.bytes a fits words }
    if fits < count then throw .page
  else
    throw .page

/-- `memcpy` from a part of the kernel image. -/
def memcpy (a size : Nat) (content : Nat → Nat) : PM Unit := do
  let p ← get
  if size = 0 then
    pure ()
  else if p.Mapped a then do
    let fits := min size (memoryEnd - a)
    set { p with bytes := storeBytes p.bytes a fits content }
    if fits < size then throw .page
  else
    throw .page

/-! ## The free list -/

/-- `init_free_list`, after `count` turns of its loop. -/
def storeLinks (bytes : Bytes) (count : Nat) : Bytes := fun x =>
  if x < memoryStart ∨ memoryStart + stride * count ≤ x ∨
      4 ≤ (x - memoryStart) % stride then bytes x
  else
    byteAt (memoryStart + stride * ((x - memoryStart) / stride + 1))
      ((x - memoryStart) % stride)

/-- The number of elements of the list that `init_free_list` makes. -/
def frameCount : Nat := (memoryEnd - memoryStart) / stride

/-- `init_free_list`. -/
def initFreeList (bytes : Bytes) : Bytes :=
  store32 (storeLinks bytes (frameCount - 1))
    (memoryStart + stride * (frameCount - 1)) 0

/-- `free_physical_memory_address`. -/
def freePhysicalMemoryAddress (address : Nat) : PM Unit := do
  store address (← get).head
  modify fun p =>
    { p with head := address, released := address :: p.released }

/-- `allocate_physical_memory_address`. -/
def allocatePhysicalMemoryAddress : PM Nat := do
  let allocated := (← get).head
  let next ← load allocated
  modify fun p =>
    { p with
      head := next
      taken := allocated :: p.taken
      released := p.released.filter fun frame => frame ≠ allocated }
  pure allocated

/-! ## Page tables -/

/-- `pd_index`. -/
def pdIndex (address : Nat) : Nat := address >>> 22
/-- `pt_index`. -/
def ptIndex (address : Nat) : Nat := address >>> 12 &&& 0x3FF

/-- `set_table_permission`. -/
def setTablePermission (address dir flags : Nat) : PM Unit := do
  let entry ← load (dir + 4 * pdIndex address)
  store (dir + 4 * pdIndex address) (frameBits entry ||| flags)

/-- The page table that `get_ptable_entry_from_virtual_address` makes when the
directory has none. -/
def newTable (address dir flags : Nat) : PM Nat := do
  let ptable ← allocatePhysicalMemoryAddress
  if ptable = 0 then
    throw (.panic
      "Failed to allocate page table in get_ptable_entry_from_virtual_address\n")
  else do
    storeArray ptable 1024 fun _ => 0
    store (dir + 4 * pdIndex address) (frameBits ptable ||| flags)
    pure ptable

/-- The page table that `get_ptable_entry_from_virtual_address` finds or
makes. -/
def ptable (address dir : Nat) (createIfNotPresent : Bool) (flags : Nat) :
    PM Nat := do
  let ptable := frameBits (← load (dir + 4 * pdIndex address))
  if ptable ≠ 0 then
    pure ptable
  else if createIfNotPresent then
    newTable address dir flags
  else
    throw (.panic
      "Failed to get page table in get_ptable_entry_from_virtual_address\n")

/-- `get_ptable_entry_from_virtual_address`: the address of the entry. -/
def getPtableEntry (address dir : Nat) (createIfNotPresent : Bool)
    (flags : Nat) : PM Nat := do
  let ptable ← ptable address dir createIfNotPresent flags
  if createIfNotPresent ∧ flags ≠ 0 then do
    setTablePermission address dir flags
    pure (ptable + 4 * ptIndex address)
  else
    pure (ptable + 4 * ptIndex address)

/-- `map_page_from_virtual_address`. -/
def mapPage (dir address flags : Nat) : PM Unit := do
  let entry ← getPtableEntry address dir true flags
  store entry (frameBits (← get).head ||| flags)
  let _ ← allocatePhysicalMemoryAddress
  pure ()

/-- The loop of `map_region`. -/
def mapPages (dir address flags : Nat) : Nat → PM Unit
  | 0 => pure ()
  | count + 1 => do
      mapPage dir address flags
      mapPages dir (address + 0x1000) flags count

/-- `map_region`; the comparison that ends its loop is not strict. -/
def mapRegion (dir address flags size : Nat) : PM Unit :=
  mapPages dir address flags (size / 0x1000 + 1)

/-- `fill_new_pgdir`. -/
def fillNewPgdir (dir source : Nat) : PM Unit := do
  let p ← get
  storeArray dir 1024 fun i =>
    if i < 64 then load32 p.bytes (source + 4 * i) else 0

/-- The turns of a loop over `size` bytes that advances by 4096. -/
def pageCount (size : Nat) : Nat := (size + 0xFFF) / 0x1000

/-- The loop of `virtual_malloc`. -/
def mallocPages (initial : Nat) : Nat → PM Nat
  | 0 => pure initial
  | count + 1 => do
      let allocated ← allocatePhysicalMemoryAddress
      if allocated = 0 then
        pure 0
      else do
        let entry ← getPtableEntry allocated (← get).cr3 true pageTableUserRw
        store entry (frameBits allocated ||| pageTableUserRw)
        mallocPages (if initial = 0 then allocated else initial) count

/-- `virtual_malloc`. -/
def virtualMalloc (size : Nat) : PM Nat := do
  let base ← mallocPages 0 (pageCount size)
  if base = 0 then
    pure 0
  else do
    modify fun p => { p with blocks := ⟨base, size⟩ :: p.blocks }
    pure base

/-- The loop of `virtual_free`. -/
def freePages (address : Nat) : Nat → PM Unit
  | 0 => pure ()
  | count + 1 => do
      let entry ← getPtableEntry address (← get).cr3 false 0
      let physical := frameBits (← load entry)
      freePhysicalMemoryAddress physical
      store entry (frameBits physical ||| pageTableRw)
      freePages (address + 0x1000) count

/-- `virtual_free`. -/
def virtualFree (address size : Nat) : PM Unit := do
  freePages address (pageCount size)
  modify fun p =>
    { p with blocks := p.blocks.filter fun block => block.base ≠ address }

/-- The loop of `pgdir_copy`. -/
def copyPages (source dest sourceAddress destAddress : Nat) : Nat → PM Unit
  | 0 => pure ()
  | count + 1 => do
      let sourceEntry ← getPtableEntry sourceAddress source false 0
      let destEntry ← getPtableEntry destAddress dest true pageTableUserRw
      store destEntry (frameBits (← load sourceEntry) ||| pageTableUserRw)
      copyPages source dest (sourceAddress + 0x1000) (destAddress + 0x1000)
        count

/-- `pgdir_copy`. -/
def pgdirCopy (source dest sourceAddress destAddress size : Nat) : PM Unit :=
  copyPages source dest sourceAddress destAddress (pageCount size)

/-! ## Address spaces -/

/-- A program of the `symbols_table`.  Programs are linked into the kernel,
which ends below `mem_heap_end`. -/
structure Image where
  size : Nat
  content : Nat → Nat
  small : size < 0x4000000

/-- The page directory of a new process and its `user_stack`. -/
structure Space where
  dir : Nat
  userStack : Nat
  deriving DecidableEq, Repr

/-- Steps 2 to 5 of `start`: a page directory whose addresses from 1 GB on lead
to a copy of the program. -/
def loadProgram (image : Image) : PM Nat := do
  let code ← virtualMalloc image.size
  let dir ← allocatePhysicalMemoryAddress
  fillNewPgdir dir pgdir
  memcpy code image.size image.content
  pgdirCopy pgdir dir code oneGigabyte image.size
  pure dir

/-- Steps 2 to 6 of `start`, which come before the search for a pid. -/
def buildSpace (image : Image) (ssize : Nat) : PM Space := do
  let dir ← loadProgram image
  let userStack := (← virtualMalloc (ssize + 8)) + ssize + 4
  pgdirCopy pgdir dir userStack twoGigabytes (ssize + 8)
  pure ⟨dir, userStack⟩

/-- The accesses to user memory at the end of `start`: the argument goes nine
words below the top of the stack, and the stack is mapped again. -/
def finishSpace (space : Space) (ssize arg : Nat) : PM Unit := do
  store ((space.userStack + 0x100000000 - 36) % 0x100000000) arg
  pgdirCopy pgdir space.dir (space.userStack - 4) twoGigabytes (ssize + 8)

/-! ## Boot -/

/-- `early_mm_map_kernel`.  `readOnly` tells which kernel pages hold code or
constants. -/
def earlyMmMapKernel (readOnly : Nat → Bool) (bytes : Bytes) : Bytes :=
  let tables := storeWords bytes pgtab (64 * 1024) fun page =>
    if page = 0 then 0
    else page * 0x1000 |||
      if 0x1000 * page < memoryStart ∧ readOnly page then pageTableRo
      else pageTableRw
  storeWords tables pgdir 1024 fun i =>
    if i < 64 then (pgtab + i * 0x1000) ||| pageTableRw else 0

/-- Memory when `init_free_list` returns. -/
def Paging.booting (readOnly : Nat → Bool) (bytes : Bytes) : Paging where
  bytes := initFreeList (earlyMmMapKernel readOnly bytes)
  head := memoryStart
  cr3 := pgdir
  blocks := []
  taken := []
  released := []

/-- `sizeof(Process)`. -/
def sizeofProcess : Nat := 108

/-- The allocations and mappings of `__init_idle`: its record, its name, its
kernel stack, its program and its user stack.  No kernel code reads what is
written there. -/
def mapIdle (image : Image) : PM Unit := do
  let _ ← virtualMalloc sizeofProcess
  let _ ← virtualMalloc 5
  let _ ← virtualMalloc 2048
  mapRegion pgdir oneGigabyte pageTableUserRw image.size
  mapRegion pgdir twoGigabytes pageTableUserRw (4096 * 10)

end Nebulea
