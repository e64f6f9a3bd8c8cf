/-
The paging code, as it computes.  Physical memory is a memory of frames of 512
words, with the frame counts of `memory_bitmap` beside it; the virtual address
space a function works in (`pml4_physical`) is passed as the frame of its root
table.  A panic stops the kernel, so a function that may panic returns
`Except Panic`.  The TLB is not modelled.
-/
import GlitchedOS.Paging.Entry

namespace GlitchedOS

inductive Panic where
  | initPagingFailed
  | cannotAllocatePagingBitmap
  | outOfMemory
  | cannotAllocateTable
  | alreadyMapped
deriving Repr, DecidableEq

/-- Physical memory and the allocator's globals.  Physical addresses have 52
bits, so there are at most `2 ^ 40` frames. -/
structure PhysMem where
  mem : Nat → Nat → Word
  memoryBitmap : Nat → Nat
  firstUsable : Nat
  usablePageCount : Nat
  zeroPage : Nat
  usable_le : usablePageCount ≤ 2 ^ 40

namespace PhysMem

def writeWord (s : PhysMem) (t i : Nat) (e : Word) : PhysMem :=
  { s with mem := Radix.write s.mem t i e }

/-- `memset(.., 0, PAGE_SIZE)` on a frame. -/
def zeroFrame (s : PhysMem) (f : Nat) : PhysMem :=
  { s with mem := fun g => if g = f then fun _ => 0#64 else s.mem g }

/-- `memcpy` of a whole frame. -/
def copyFrame (s : PhysMem) (src dst : Nat) : PhysMem :=
  { s with mem := fun g => if g = dst then s.mem src else s.mem g }

def setCount (s : PhysMem) (f n : Nat) : PhysMem :=
  { s with memoryBitmap := fun g => if g = f then n else s.memoryBitmap g }

/-- `memory_bitmap[f]++` on a `uint32_t`. -/
def incCount (s : PhysMem) (f : Nat) : PhysMem :=
  s.setCount f ((s.memoryBitmap f + 1) % 2 ^ 32)

/-- The release written out at every place that drops a reference: a saturating
decrement, then the search hint moves down to a frame that became free. -/
def decCount (s : PhysMem) (f : Nat) : PhysMem :=
  let s := if 0 < s.memoryBitmap f then s.setCount f (s.memoryBitmap f - 1) else s
  if s.memoryBitmap f = 0 ∧ f < s.firstUsable then { s with firstUsable := f }
  else s

end PhysMem

/-- The search loop of `get_available_address`, over `n` frames from `i` on. -/
def findAvailable (bitmap : Nat → Nat) : Nat → Nat → Option Nat
  | 0, _ => none
  | n + 1, i => if bitmap i = 0 then some i else findAvailable bitmap n (i + 1)

/-- `get_available_address`, returning the number of the frame. -/
def getAvailableAddress (s : PhysMem) : Except Panic (Nat × PhysMem) :=
  match findAvailable s.memoryBitmap (s.usablePageCount - s.firstUsable)
      s.firstUsable with
  | some i => .ok (i, { s with firstUsable := i + 1 })
  | none => .error .outOfMemory

/-- `allocate_physical_page` -/
def allocatePhysicalPage (s : PhysMem) : Except Panic (Nat × PhysMem) := do
  let (f, s) ← getAvailableAddress s
  .ok (f, (s.incCount f).zeroFrame f)

structure PageAddress where
  pml4Index : Nat
  pdptIndex : Nat
  pdIndex : Nat
  ptIndex : Nat
deriving Repr, DecidableEq

/-- `get_page_entry` -/
def getPageEntry (addr : Nat) : PageAddress :=
  ⟨addr / 2 ^ 39 % 512, addr / 2 ^ 30 % 512, addr / 2 ^ 21 % 512,
    addr / 2 ^ 12 % 512⟩

/-- `PAGE_ALIGN` -/
def pageAlign (addr : Nat) : Nat := (addr + pageSize - 1) / pageSize * pageSize

/-- `PAGE_ALIGN`, in 64 bits. -/
def pageAlign64 (addr : Nat) : Nat :=
  (addr + pageSize - 1) % 2 ^ 64 / pageSize * pageSize

/-- The number of rounds of `for (i = vaddr; i < stop; i += PAGE_SIZE)`. -/
def pageRounds (vaddr stop : Nat) : Nat := (stop - vaddr + pageSize - 1) / pageSize

def present (e : Word) : Bool := hasFlag e flagsPresent

/-- Rounds `0 .. n - 1` of a loop whose body may panic. -/
def loopRounds {S : Type} (body : Nat → S → Except Panic S) :
    Nat → S → Except Panic S
  | 0, s => .ok s
  | n + 1, s => do
      let s ← loopRounds body n s
      body n s

/-- Rounds `0 .. n - 1` of a loop whose body cannot panic. -/
def loopPure {S : Type} (body : Nat → S → S) : Nat → S → S
  | 0, s => s
  | n + 1, s => body n (loopPure body n s)

/-- What holds at the start and is kept by each round holds after the last one. -/
theorem loopPure_induct {S : Type} {body : Nat → S → S} {P : Nat → S → Prop} {s : S} {n : Nat}
    (hstart : P 0 s) (hround : ∀ i < n, ∀ s, P i s → P (i + 1) (body i s)) :
    P n (loopPure body n s) := by
  induction n with
  | zero => exact hstart
  | succ n ih =>
      exact hround n (Nat.lt_succ_self n) _ (ih fun i hi => hround i (Nat.lt_succ_of_lt hi))

/-- The part of the allocation walk that is the same at the PML4, PDPT and PD
levels: the table behind word `i` of `t`, created when it is absent. -/
def tableAt (s : PhysMem) (t i : Nat) : Except Panic (Nat × PhysMem) :=
  if present (s.mem t i) then .ok (frameOf (s.mem t i), s)
  else do
    let (f, s) ← allocatePhysicalPage s
    if f = 0 then .error .cannotAllocateTable
    else
      let s := (s.zeroFrame f).writeWord t i
        ((frameAddress f &&& pageMask) ||| higherLevelFlags)
      .ok (frameOf (s.mem t i), s)

/-- The indices, the `_changed` flags and the cached table pointers carried from
one round of an allocation loop to the next. -/
structure Cursor where
  idx : PageAddress
  pml4Changed : Bool
  pdptChanged : Bool
  pdChanged : Bool
  pdpt : Nat
  pd : Nat
  pt : Nat

def Cursor.start (vaddr : Nat) : Cursor :=
  ⟨getPageEntry vaddr, true, true, true, 0, 0, 0⟩

def Cursor.advance (c : Cursor) : Cursor :=
  let c := { c with pml4Changed := false, pdptChanged := false,
                    pdChanged := false }
  if c.idx.ptIndex + 1 < 512 then
    { c with idx := { c.idx with ptIndex := c.idx.ptIndex + 1 } }
  else if c.idx.pdIndex + 1 < 512 then
    { c with pdChanged := true,
             idx := { c.idx with ptIndex := 0, pdIndex := c.idx.pdIndex + 1 } }
  else if c.idx.pdptIndex + 1 < 512 then
    { c with pdChanged := true, pdptChanged := true,
             idx := { c.idx with ptIndex := 0, pdIndex := 0,
                                 pdptIndex := c.idx.pdptIndex + 1 } }
  else
    { c with pdChanged := true, pdptChanged := true, pml4Changed := true,
             idx := { pml4Index := c.idx.pml4Index + 1, pdptIndex := 0,
                      pdIndex := 0, ptIndex := 0 } }

/-- What differs between the three allocation loops: the word installed for the
page of round `i` and the frame whose count goes up. -/
abbrev LeafSource := Nat → PhysMem → Except Panic (Word × Nat × PhysMem)

def orWord (s : PhysMem) (t i : Nat) (flags : Word) : PhysMem :=
  s.writeWord t i (s.mem t i ||| flags)

/-- One level of the walk of a round: `table_at` when the index of the level has
changed since the last round, else the pointer found then. -/
def cachedTable (changed : Bool) (cached : Nat) (s : PhysMem) (t i : Nat) :
    Except Panic (Nat × PhysMem) :=
  if changed then tableAt s t i else .ok (cached, s)

/-- One round of an allocation loop in the address space `root`. -/
def allocRound (leaf : LeafSource) (root i : Nat) (c : Cursor) (s : PhysMem) :
    Except Panic (Cursor × PhysMem) := do
  let (pdpt, s) ← cachedTable c.pml4Changed c.pdpt s root c.idx.pml4Index
  let (pd, s) ← cachedTable c.pdptChanged c.pd s pdpt c.idx.pdptIndex
  let (pt, s) ← cachedTable c.pdChanged c.pt s pd c.idx.pdIndex
  let s := orWord s root c.idx.pml4Index higherLevelFlags
  let s := orWord s pdpt c.idx.pdptIndex higherLevelFlags
  let s := orWord s pd c.idx.pdIndex higherLevelFlags
  if present (s.mem pt c.idx.ptIndex) then .error .alreadyMapped
  else do
    let (e, f, s) ← leaf i s
    .ok (Cursor.advance { c with pdpt := pdpt, pd := pd, pt := pt },
      (s.writeWord pt c.idx.ptIndex e).incCount f)

/-- The loop shared by `alloc_region`, `alloc_mmio_region` and
`alloc_zero_region`. -/
def allocLoop (leaf : LeafSource) (s : PhysMem) (root vaddr size : Nat) :
    Except Panic PhysMem := do
  let (_, s) ← loopRounds
    (fun k (c, s) => allocRound leaf root (vaddr + k * pageSize) c s)
    (pageRounds vaddr (pageAlign (vaddr + size))) (Cursor.start vaddr, s)
  .ok s

/-- The word that maps frame `f` with the flags of the caller. -/
def mapWord (f : Nat) (flags : Flags) : Word :=
  (frameAddress f &&& pageMask) ||| flags.1 ||| flagsPresent

/-- `alloc_region` -/
def allocRegion (s : PhysMem) (root vaddr size : Nat) (flags : Flags) :
    Except Panic PhysMem :=
  allocLoop (fun _ s => do
      let (f, s) ← getAvailableAddress s
      .ok (mapWord f flags, f, s))
    s root vaddr size

/-- `alloc_mmio_region`; `paddr` is a frame number. -/
def allocMmioRegion (s : PhysMem) (root vaddr paddr size : Nat)
    (flags : Flags) : Except Panic PhysMem :=
  allocLoop (fun i s =>
      let f := paddr + (i - vaddr) / pageSize
      .ok (mapWord f flags, f, s))
    s root vaddr size

/-- The word `alloc_zero_region` installs. -/
def zeroWord (zeroPage : Nat) (flags : Flags) : Word :=
  (frameAddress zeroPage &&& pageMask) ||| (flags.1 &&& ~~~flagsRw) |||
    flagsPresent ||| (if hasFlag flags.1 flagsRw then flagsCow else 0#64)

/-- `alloc_zero_region` -/
def allocZeroRegion (s : PhysMem) (root vaddr size : Nat) (flags : Flags) :
    Except Panic PhysMem :=
  allocLoop (fun _ s => .ok (zeroWord s.zeroPage flags, s.zeroPage, s))
    s root vaddr size

/-- The scan for a present word in a table. -/
def tableEmpty (s : PhysMem) (t : Nat) : Bool :=
  (List.range 512).all fun i => !present (s.mem t i)

/-- The clean-up `free_page` repeats for the PT, the PD and the PDPT: when
`table` is empty, release it and clear the word of `parent` that links it. -/
def releaseIfEmpty (s : PhysMem) (table parent i : Nat) : PhysMem :=
  if tableEmpty s table then
    (s.decCount (frameOf (s.mem parent i))).writeWord parent i 0#64
  else s

/-- `free_page` -/
def freePage (s : PhysMem) (root page : Nat) : Int × PhysMem :=
  if page = 0 then (-1, s) else
  let entry := getPageEntry page
  if !present (s.mem root entry.pml4Index) then (-1, s) else
  let pdpt := frameOf (s.mem root entry.pml4Index)
  if !present (s.mem pdpt entry.pdptIndex) then (-1, s) else
  let pd := frameOf (s.mem pdpt entry.pdptIndex)
  if !present (s.mem pd entry.pdIndex) then (-1, s) else
  let pt := frameOf (s.mem pd entry.pdIndex)
  if !present (s.mem pt entry.ptIndex) then (-1, s) else
  let phys := frameOf (s.mem pt entry.ptIndex)
  let s := (s.writeWord pt entry.ptIndex 0#64).decCount phys
  let s := releaseIfEmpty s pt pd entry.pdIndex
  let s := releaseIfEmpty s pd pdpt entry.pdptIndex
  let s := releaseIfEmpty s pdpt root entry.pml4Index
  (0, s)

/-- `free_region` -/
def freeRegion (s : PhysMem) (root vaddr size : Nat) : PhysMem :=
  loopPure (fun k s => (freePage s root (vaddr + k * pageSize)).2)
    (pageRounds vaddr (pageAlign (vaddr + size))) s

/-- The body of the innermost loop of `clone_page_tables`: share one page. -/
def cloneLeaf (src new l : Nat) (s : PhysMem) : PhysMem :=
  let e := s.mem src l
  if present e then
    let s := if hasFlag e flagsRw then
        s.writeWord src l ((e &&& ~~~flagsRw) ||| flagsCow) else s
    let s := s.incCount (frameOf e)
    s.writeWord new l (pageTableToAddress e ||| (s.mem src l &&& flagsMask))
  else s

/-- The body of the outer loops of `clone_page_tables`: copy the table behind
word `i` of `src` with `clone`, and link the copy from `new`. -/
def cloneEntry (clone : Nat → PhysMem → Except Panic (Nat × PhysMem))
    (src new i : Nat) (s : PhysMem) : Except Panic PhysMem :=
  let e := s.mem src i
  if present e then do
    let (child, s) ← clone (frameOf e) s
    .ok (s.writeWord new i
      ((frameAddress child &&& pageMask) ||| (e &&& higherLevelFlags)))
  else .ok s

/-- The nested loops of `clone_page_tables` below the PML4: level `0` copies a
PT, level `1` a PD, level `2` a PDPT. -/
def cloneTable : Nat → Nat → PhysMem → Except Panic (Nat × PhysMem)
  | 0, src, s => do
      let (new, s) ← allocatePhysicalPage s
      .ok (new, loopPure (cloneLeaf src new) 512 s)
  | level + 1, src, s => do
      let (new, s) ← allocatePhysicalPage s
      let s ← loopRounds (cloneEntry (cloneTable level) src new) 512 s
      .ok (new, s)

/-- `clone_page_tables` -/
def clonePageTables (s : PhysMem) (root : Nat) : Except Panic (Nat × PhysMem) := do
  let (new, s) ← allocatePhysicalPage s
  let s ← loopRounds (fun i s =>
    if 256 ≤ i then .ok (s.writeWord new i (s.mem root i))
    else cloneEntry (cloneTable 2) root new i s) 512 s
  .ok (new, s)

/-- The nested loops of `free_page_tables`: what is released behind the present
words of a table, for the first `n` of them. -/
def freeTable : Nat → Nat → Nat → PhysMem → PhysMem
  | 0, n, t, s =>
      loopPure (fun l s =>
        if present (s.mem t l) then s.decCount (frameOf (s.mem t l)) else s) n s
  | level + 1, n, t, s =>
      loopPure (fun i s =>
        let e := s.mem t i
        if present e then
          (freeTable level 512 (frameOf e) s).decCount (frameOf e)
        else s) n s

/-- `free_page_tables` -/
def freePageTables (s : PhysMem) (root : Nat) : PhysMem :=
  (freeTable 3 256 root s).decCount root

/-- The part of `cow_handler` after the walk: word `i` of the PT `pt` is
present. -/
def resolveCow (s : PhysMem) (pt i : Nat) : Except Panic (Bool × PhysMem) :=
  let pte := s.mem pt i
  let page := frameOf pte
  if hasFlag pte flagsCow then
    if 1 < s.memoryBitmap page then do
      let (new, s) ← getAvailableAddress s
      let s := s.setCount page (s.memoryBitmap page - 1)
      let s := s.setCount new 1
      let s := s.copyFrame page new
      .ok (true, s.writeWord pt i
        ((frameAddress new &&& pageMask) |||
          (s.mem pt i &&& ~~~flagsCow &&& flagsMask) ||| flagsRw))
    else
      let s := s.writeWord pt i (s.mem pt i &&& ~~~flagsCow)
      .ok (true, orWord s pt i flagsRw)
  else .ok (false, s)

/-- `cow_handler` -/
def cowHandler (s : PhysMem) (root addr : Nat) : Except Panic (Bool × PhysMem) :=
  let entry := getPageEntry addr
  if !present (s.mem root entry.pml4Index) then .ok (false, s) else
  let pdpt := frameOf (s.mem root entry.pml4Index)
  if !present (s.mem pdpt entry.pdptIndex) then .ok (false, s) else
  let pd := frameOf (s.mem pdpt entry.pdptIndex)
  if !present (s.mem pd entry.pdIndex) then .ok (false, s) else
  let pt := frameOf (s.mem pd entry.pdIndex)
  if !present (s.mem pt entry.ptIndex) then .ok (false, s) else
  resolveCow s pt entry.ptIndex

/-- `-EFAULT` -/
def eFault : Int := -14

def userLimit : Nat := 0x00007FFFFFFFFFFF

/-- One round of the loop of `validate_user_pointer`: `false` is the early
return of `-EFAULT`. -/
def validatePage (s : PhysMem) (root addr : Nat) (write : Bool) :
    Except Panic (Bool × PhysMem) :=
  let entry := getPageEntry addr
  let pml4e := s.mem root entry.pml4Index
  if !present pml4e || !hasFlag pml4e flagsUser then .ok (false, s) else
  let pdpte := s.mem (frameOf pml4e) entry.pdptIndex
  if !present pdpte || !hasFlag pdpte flagsUser then .ok (false, s) else
  let pde := s.mem (frameOf pdpte) entry.pdIndex
  if !present pde || !hasFlag pde flagsUser then .ok (false, s) else
  let pte := s.mem (frameOf pde) entry.ptIndex
  if !present pte || !hasFlag pte flagsUser then .ok (false, s) else
  if write && !hasFlag pte flagsRw then
    if hasFlag pte flagsCow then cowHandler s root addr
    else .ok (false, s)
  else .ok (true, s)

/-- The rounds of `validate_user_pointer` from `addr` on. -/
def validateLoop (root : Nat) (write : Bool) :
    Nat → Nat → PhysMem → Except Panic (Int × PhysMem)
  | 0, _, s => .ok (0, s)
  | n + 1, addr, s => do
      let (fine, s) ← validatePage s root addr write
      if fine then validateLoop root write n (addr + pageSize) s
      else .ok (eFault, s)

/-- `validate_user_pointer` -/
def validateUserPointer (s : PhysMem) (root ptr len : Nat) (write : Bool) :
    Except Panic (Int × PhysMem) :=
  if len = 0 then .ok (0, s)
  else if ptr = 0 then .ok (eFault, s)
  else if userLimit < ptr then .ok (eFault, s)
  else if userLimit - ptr < len - 1 then .ok (eFault, s)
  else validateLoop root write (pageRounds ptr (ptr + len)) ptr s

structure MemmapEntry where
  base : Nat
  length : Nat
  usable : Bool
deriving Repr, DecidableEq

/-- A memory map.  The counter that fills `memory_bitmap` is an `int`, so there
are at most `2 ^ 31` frames. -/
structure Memmap where
  entries : List MemmapEntry
  addr_le : ∀ e ∈ entries, e.base + e.length ≤ 2 ^ 43

namespace Memmap

/-- One past the highest usable physical address. -/
def highest (m : Memmap) : Nat :=
  (m.entries.filter MemmapEntry.usable).foldr
    (fun e h => max (e.base + e.length) h) 0

theorem highest_le (m : Memmap) : m.highest ≤ 2 ^ 43 := by
  have hall : ∀ e ∈ m.entries.filter MemmapEntry.usable,
      e.base + e.length ≤ 2 ^ 43 := by
    intro e he
    exact m.addr_le e (List.mem_filter.mp he).1
  rw [highest]
  generalize m.entries.filter MemmapEntry.usable = l at hall
  induction l with
  | nil => simp
  | cons e rest ih =>
      simp only [List.foldr_cons, max_le_iff]
      exact ⟨hall e (by simp), ih fun e he => hall e (by simp [he])⟩

/-- Frames marked free by the second loop of `init_paging`. -/
def isUsable (m : Memmap) (f : Nat) : Bool :=
  m.entries.any fun e =>
    e.usable && decide (e.base / pageSize ≤ f) &&
      decide (f < (e.base + e.length) / pageSize)

/-- `memory_bitmap_size` -/
def bitmapSize (m : Memmap) : Nat := m.highest / pageSize * 4

/-- `bitmap_phys`, when a usable entry is large enough. -/
def bitmapPhys (m : Memmap) : Option Nat :=
  (m.entries.find? fun e => e.usable && decide (m.bitmapSize ≤ e.length)).map
    MemmapEntry.base

/-- Frames marked used by the last loop of `init_paging`. -/
def inBitmap (m : Memmap) (phys f : Nat) : Bool :=
  decide (phys / pageSize ≤ f) &&
    decide (f < phys / pageSize + pageRounds phys (phys + m.bitmapSize))

end Memmap

/-- `init_paging`, with the memory contents found at boot.  The loops that fill
`memory_bitmap` are written as the value they leave at each frame. -/
def initPaging (cr3 : Nat) (memmap : Memmap) (mem : Nat → Nat → Word) :
    Except Panic PhysMem :=
  if cr3 = 0 then .error .initPagingFailed else
  match memmap.bitmapPhys with
  | none => .error .cannotAllocatePagingBitmap
  | some bitmapPhys =>
    if bitmapPhys = 0 then .error .cannotAllocatePagingBitmap else
    let s : PhysMem :=
      { mem := mem
        memoryBitmap := fun f =>
          if memmap.inBitmap bitmapPhys f then 1
          else if memmap.isUsable f then 0 else 1
        firstUsable := 0
        usablePageCount := memmap.highest / pageSize
        zeroPage := 0
        usable_le := Nat.div_le_of_le_mul
          (Nat.le_trans memmap.highest_le (by decide)) }
    do
      let (zeroPage, s) ← getAvailableAddress s
      let s := s.zeroFrame zeroPage
      .ok ({ s with zeroPage := zeroPage }.setCount zeroPage 1)

end GlitchedOS
