/-
The memory of a ramfs.  The contents of a file are a list of blocks from `kmalloc`, each
with a pointer to the next one.  Memory is numbered in the order in which it is given out,
so what is given out again has a new number.  A use of a null pointer or of freed memory
has no result, and neither has a loop whose `int` overflows.
-/
import GlitchedOS.Fs.RamfsRuns
import GlitchedOS.Lib.Recent

namespace GlitchedOS

/-- `ramfs_data_t` -/
structure RamfsData where
  data : List UInt8
  next : Option Nat

/-- The blocks in memory, how many allocations there were, and what was passed to
`kfree`. -/
structure RamfsMemory where
  blocks : Nat → RamfsData
  given : Nat
  freed : List Nat
  freed_lt : ∀ a ∈ freed, a < given

namespace RamfsMemory

variable (m : RamfsMemory)

/-- Memory that was given out and not freed. -/
def Live (a : Nat) : Prop := a < m.given ∧ a ∉ m.freed

instance (a : Nat) : Decidable (m.Live a) := inferInstanceAs (Decidable (_ ∧ _))

def load (a : Nat) : Option RamfsData := if m.Live a then some (m.blocks a) else none

def store (a : Nat) (f : RamfsData → RamfsData) : Option RamfsMemory :=
  if m.Live a then some { m with blocks := Function.update m.blocks a (f (m.blocks a)) }
  else none

/-- `kmalloc`; the memory is cleared. -/
def kmalloc : Nat × RamfsMemory :=
  (m.given, { m with
    blocks := Function.update m.blocks m.given ⟨zeroBlock, none⟩
    given := m.given + 1
    freed_lt := fun a ha => Nat.lt_succ_of_lt (m.freed_lt a ha) })

/-- `kfree` -/
def kfree (a : Option Nat) : Option RamfsMemory :=
  match a with
  | none => some m
  | some a =>
    if h : m.Live a then
      some { m with
        freed := a :: m.freed
        freed_lt := List.forall_mem_cons.mpr ⟨h.1, m.freed_lt⟩ }
    else none

/-- The next block, which is added when there is none. -/
def nextOrNew (current : Nat) : Option (Nat × RamfsMemory) := do
  let block ← m.load current
  match block.next with
  | some next => some (next, m)
  | none =>
    let (new, m) := m.kmalloc
    let m ← m.store current fun block => { block with next := some new }
    some (new, m)

/-- The loop of `ramfs_write` that skips blocks. -/
def skipBlocks : Nat → RamfsMemory → Nat → Option (Nat × RamfsMemory)
  | 0, m, current => some (current, m)
  | n + 1, m, current => do
    let (next, m) ← m.nextOrNew current
    skipBlocks n m next

/-- The loop of `ramfs_write` that fills blocks. -/
def fillBlocks (m : RamfsMemory) (current blockOffset : Nat) (buffer : List UInt8) :
    Option RamfsMemory :=
  if buffer = [] ∨ ramfsBlockSize ≤ blockOffset then some m
  else do
    let toWrite := min (ramfsBlockSize - blockOffset) buffer.length
    let m ← m.store current fun block => { block with
      data := block.data.take blockOffset ++ buffer.take toWrite ++
        block.data.drop (blockOffset + toWrite) }
    let (next, m) ← m.nextOrNew current
    fillBlocks m next 0 (buffer.drop toWrite)
termination_by buffer.length
decreasing_by
  have hpos : 0 < buffer.length := List.length_pos_iff.mpr (by tauto)
  simp only [List.length_drop]
  omega

/-- `ramfs_write` for a file with the given first block. -/
def write (first : Option Nat) (buffer : List UInt8) (offset : Nat) :
    Option (Option Nat × RamfsMemory) := do
  let (start, m) := match first with
    | some start => (start, m)
    | none => m.kmalloc
  let (current, m) ← skipBlocks (offset / ramfsBlockSize) m start
  let m ← m.fillBlocks current (offset % ramfsBlockSize) buffer
  some (some start, m)

/-- The loop of `ramfs_read` that skips blocks. -/
def followBlocks : Nat → Option Nat → Option (Option Nat)
  | 0, current => some current
  | n + 1, current => do
    let block ← m.load (← current)
    followBlocks n block.next

/-- The loop of `ramfs_read` that reads blocks. -/
def readBlocks (current : Option Nat) (blockOffset size : Nat) : Option (List UInt8) :=
  if size = 0 ∨ ramfsBlockSize ≤ blockOffset ∨ current = none then some []
  else do
    let block ← m.load (← current)
    let toRead := min (ramfsBlockSize - blockOffset) size
    let rest ← readBlocks block.next 0 (size - toRead)
    some ((block.data.drop blockOffset).take toRead ++ rest)
termination_by size
decreasing_by omega

/-- `ramfs_read` for a file with the given first block and size. -/
def read (first : Option Nat) (fileSize offset size : Nat) : Option (List UInt8) :=
  if fileSize ≤ offset then some []
  else do
    let size := if fileSize < (offset + size) % 2 ^ 64 then fileSize - offset else size
    let current ← m.followBlocks (offset / ramfsBlockSize) first
    m.readBlocks current (offset % ramfsBlockSize) size

/-- The last block of a list, through `n` of them. -/
def lastBlock : Nat → Nat → Option Nat
  | 0, _ => none
  | n + 1, a => do
    let block ← m.load a
    match block.next with
    | none => some a
    | some next => lastBlock n next

/-- The loop of `ramfs_truncate` that adds blocks. -/
def addBlocks : Nat → RamfsMemory → Nat → Option RamfsMemory
  | 0, m, _ => some m
  | n + 1, m, last => do
    let (new, m) := m.kmalloc
    let m ← m.store last fun block => { block with next := some new }
    addBlocks n m new

/-- `ramfs_truncate` where blocks are added. -/
def grow (first : Option Nat) (difference : Nat) : Option (Option Nat × RamfsMemory) := do
  let (start, difference, m) := match first with
    | some start => (start, difference, m)
    | none => (m.given, difference - 1, m.kmalloc.2)
  let last ← m.lastBlock m.given start
  if 2 ^ 31 ≤ difference then none
  else do
    let m ← addBlocks difference m last
    some (some start, m)

/-- The loop that keeps the last blocks of a list in a ring, through `n` of them. -/
def ringBlocks (size : Nat) : Nat → (Nat → Option Nat) → Nat → Option ((Nat → Option Nat) × Nat)
  | 0, _, _ => none
  | n + 1, lastBlocks, head => do
    let block ← m.load (← lastBlocks head)
    match block.next with
    | none => some (lastBlocks, head)
    | some next =>
      let head := (head + 1) % size
      ringBlocks size n (fun i => if i = head then some next else lastBlocks i) head

/-- The loop of `ramfs_truncate` that frees blocks, from the last one on. -/
def freeRing (size : Nat) (lastBlocks : Nat → Option Nat) :
    Nat → RamfsMemory → Nat → Option RamfsMemory
  | 0, m, _ => some m
  | difference + 1, m, head => do
    let m ← m.kfree (lastBlocks head)
    freeRing size lastBlocks difference m ((head + (size - 1)) % size)

/-- A block as the last one, cleared from some offset on. -/
def endBlock (rest : Nat) (block : RamfsData) : RamfsData where
  data := if rest = 0 then block.data
    else block.data.take rest ++ List.replicate (ramfsBlockSize - rest) 0
  next := none

/-- `ramfs_truncate` where blocks are freed. -/
def shrink (first : Option Nat) (difference newSize : Nat) :
    Option (Option Nat × RamfsMemory) := do
  let size := difference + 1
  let (lastBlocks, head) ← m.ringBlocks size m.given (fun i => if i = 0 then first else none) 0
  let (first, m) ← match lastBlocks ((head + 1) % size) with
    | none => some (none, m)
    | some newEnd => do
      let m ← m.store newEnd (endBlock (newSize % ramfsBlockSize))
      some (first, m)
  if 2 ^ 31 ≤ difference then none
  else do
    let m ← freeRing size lastBlocks difference m head
    some (first, m)

/-- `ramfs_truncate` for a file with the given first block and size. -/
def truncate (first : Option Nat) (fileSize newSize : Nat) :
    Option (Option Nat × RamfsMemory) :=
  let original := ramfsBlockCount fileSize
  let required := ramfsBlockCount newSize
  if original < required then m.grow first (required - original)
  else if required < original then m.shrink first (original - required) newSize
  else some (first, m)

/-- `data_pointer_count`, an `int`. -/
def dataPointerCount (fileSize : Nat) : Int :=
  ((fileSize / ramfsBlockSize + 1 : Nat) : Int).bmod (2 ^ 32)

/-- The array of the pointers, eight bytes each, has room on the kernel stack. -/
def PointersFit (stack fileSize : Nat) : Prop :=
  0 < dataPointerCount fileSize ∧ 8 * dataPointerCount fileSize ≤ stack

instance (stack fileSize : Nat) : Decidable (PointersFit stack fileSize) :=
  inferInstanceAs (Decidable (_ ∧ _))

/-- The pointers that `ramfs_free_dirent` collects. -/
def dataPointers : Nat → Option Nat → Option (List Nat)
  | 0, _ => some []
  | _ + 1, none => some []
  | 1, some a => some [a]
  | n + 2, some a => do
    let block ← m.load a
    let rest ← dataPointers (n + 1) block.next
    some (a :: rest)

/-- `kfree` for each of some pointers, the last one first. -/
def freeAll (pointers : List Nat) : Option RamfsMemory :=
  pointers.foldrM (fun a m => m.kfree (some a)) m

/-- What `ramfs_free_dirent` does with the blocks, with so many bytes of the kernel stack
left. -/
def freeBlocks (stack : Nat) (first : Option Nat) (fileSize : Nat) : Option RamfsMemory :=
  if PointersFit stack fileSize then do
    let pointers ← m.dataPointers (dataPointerCount fileSize).toNat first
    m.freeAll pointers
  else none

end RamfsMemory

end GlitchedOS
