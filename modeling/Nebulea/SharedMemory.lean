import Nebulea.Mmu
import Nebulea.HashTable

/-!
# `shared_memory.c`: pages shared under a name

Keys are pointers to strings.  The table keeps pointers to copies made in the
kernel's heap, which no one changes, so a key is given here by its address and
the string found there.  `mem_alloc` is assumed to succeed; a copy gets an
address that no other copy has.
-/

namespace Nebulea

open ByteMemory

/-- A C string: the bytes before the terminating zero. -/
structure CString where
  bytes : List UInt8
  nonzero : 0 ∉ bytes
  deriving DecidableEq

/-- A pointer to a string. -/
structure KeyPtr where
  address : Nat
  string : CString
  deriving DecidableEq

/-- A `char` as an `int`, read as unsigned. -/
def signExtend (c : UInt8) : Nat :=
  if c.toNat < 0x80 then c.toNat else 0xFFFFFF00 + c.toNat

/-- One turn of the loop of `hash_string_hfunc`. -/
def hashTurn (hash : Nat) (c : UInt8) : Nat :=
  (hash <<< 5 + hash) % 0x100000000 ^^^ signExtend c

/-- `hash_string_hfunc`. -/
def hashStringHfunc (key : KeyPtr) : Nat :=
  key.string.bytes.foldl hashTurn 5381

/-- `hash_string_cmp`. -/
def hashStringCmp (key key' : KeyPtr) : Bool :=
  key.string.bytes = key'.string.bytes

/-- The variables of `shared_memory.c` and the copies of keys. -/
structure Registry where
  /-- `hash_head`. -/
  table : HashTable KeyPtr Nat
  /-- `NUMBER_SHARED_PAGES`. -/
  number : Int
  copies : Nat → Option CString
  /-- No copy has this address or a later one. -/
  nextCopy : Nat

/-- `MAX_SHARED_PAGES`. -/
def maxSharedPages : Int := 100

/-- `initalize_hash_head`.  The argument is the end of the heap that is in use
then. -/
def initalizeHashHead (heap : Nat) : Registry where
  table := .hashInit hashStringHfunc hashStringCmp
  number := 0
  copies := fun _ => none
  nextCopy := heap

/-- Memory with the registry of shared pages. -/
structure Memory where
  paging : Paging
  shared : Registry

abbrev MM := EStateM Fault Memory

/-- Code of `mmu.c` called from elsewhere. -/
def onPaging {Value : Type} (code : PM Value) : MM Value := fun m =>
  match code m.paging with
  | .ok value p => .ok value { m with paging := p }
  | .error fault p => .error fault { m with paging := p }

/-- Code of `hash.c`, whose search may go on for ever. -/
def onTable {Value : Type} (result : Option Value) : MM Value :=
  match result with
  | some value => pure value
  | none => throw .endlessLoop

/-- What a pointer passed by a process points to: an address in the kernel's
heap is that of a copy. -/
def Registry.resolve (shared : Registry) (key : KeyPtr) : KeyPtr :=
  ⟨key.address, (shared.copies key.address).getD key.string⟩

/-- `mem_alloc` and `strcpy` of a key, followed by `hash_set`. -/
def register (key : KeyPtr) (page : Nat) : MM Unit := do
  let shared := (← get).shared
  let keyAddress : KeyPtr := ⟨shared.nextCopy, key.string⟩
  let (_, table) ← onTable (shared.table.hashSet keyAddress page true)
  modify fun m =>
    { m with
      shared :=
        { m.shared with
          table := table
          copies := Function.update m.shared.copies keyAddress.address
            (some key.string)
          nextCopy := m.shared.nextCopy + key.string.bytes.length + 1 } }

/-- The part of `shm_create` that follows the test of the maximum. -/
def createKey (key : KeyPtr) : MM Nat := do
  let shared := (← get).shared
  let key := shared.resolve key
  let found ← onTable (shared.table.hashGet key 0)
  if found ≠ 0 then
    pure 0
  else do
    let sharedMemory ← onPaging (virtualMalloc 4096)
    register key sharedMemory
    pure sharedMemory

/-- `NUMBER_SHARED_PAGES` changes. -/
def count (change : Int) : MM Unit :=
  modify fun m =>
    { m with shared := { m.shared with number := m.shared.number + change } }

/-- `shm_create`. -/
def shmCreate (key : Option KeyPtr) : MM Nat := do
  if (← get).shared.number ≥ maxSharedPages then
    pure 0
  else do
    count 1
    match key with
    | none => pure 0
    | some key => createKey key

/-- A shared page becomes visible in the current address space. -/
def mapShared (sharedMemory : Nat) : PM Unit := do
  let ptableEntry ← getPtableEntry sharedMemory (← get).cr3 true pageTableUserRw
  store ptableEntry (frameBits sharedMemory ||| pageTableUserRw)

/-- `shm_acquire`.  A page that is not found is mapped all the same. -/
def shmAcquire (key : KeyPtr) : MM Nat := do
  let shared := (← get).shared
  let sharedMemory ← onTable (shared.table.hashGet (shared.resolve key) 0)
  onPaging (mapShared sharedMemory)
  pure sharedMemory

/-- The part of `shm_release` that follows the test of the counter. -/
def releaseKey (key : KeyPtr) : MM Unit := do
  let shared := (← get).shared
  let key := shared.resolve key
  let address ← onTable (shared.table.hashGet key 0)
  if address ≠ 0 then do
    onPaging (virtualFree address 4096)
    let (_, table) ← onTable (shared.table.hashDel key true)
    modify fun m => { m with shared := { m.shared with table := table } }
  else
    pure ()

/-- `shm_release`. -/
def shmRelease (key : KeyPtr) : MM Unit := do
  if (← get).shared.number < 0 then
    pure ()
  else do
    count (-1)
    releaseKey key

end Nebulea
