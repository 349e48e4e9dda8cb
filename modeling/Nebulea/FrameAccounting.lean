import Nebulea.MemoryIsolation

/-!
# What becomes of the frames of a process

`start` takes frames for the program, the page directory, the page tables and
the user stack of a process.  `__free_process` gives none of them back, and
neither does a `start` that fails after it took them.
-/

namespace Nebulea

open ByteMemory ExceptState

namespace Machine

end Machine

section InOrder

variable {m : Machine} {role : Nat → Role} {free : List Nat}
variable {owner : Nat → Owner}

end InOrder

/-! ## Runs -/

section Runs

variable {platform : Platform} {m m' : Machine}

end Runs

end Nebulea
