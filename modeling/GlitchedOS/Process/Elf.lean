/-
`elf.c`: the checks on an ELF header and `load_elf`.  The loader is run with a log
of the pages `alloc_region` maps and of the stores to them, which is kept when the
kernel panics.  A buffer on the kernel stack holds what was there before wherever a
short file leaves it unwritten.
-/
import GlitchedOS.Paging.Region

namespace GlitchedOS

/-- `read_file` of a regular file: what the file has from `offset` on, at most `size`
bytes. -/
def readFile (file : List Byte) (offset size : Nat) : List Byte :=
  (file.drop offset).take size

/-- A buffer that held `stale` after `fresh` is read into it. -/
def overlay (stale fresh : List Byte) : List Byte := fresh ++ stale.drop fresh.length

def littleEndian : List Byte → Nat
  | [] => 0
  | b :: rest => b.toNat + 256 * littleEndian rest

/-- The field of `width` bytes at `offset`. -/
def fieldAt (buffer : List Byte) (offset width : Nat) : Nat :=
  littleEndian ((buffer.drop offset).take width)

/-- The fields of `Elf64_Ehdr` the loader reads. -/
structure Elf64Ehdr where
  eIdent : List Byte
  eType : Nat
  eEntry : Nat
  ePhoff : Nat
  ePhnum : Nat
deriving Repr, DecidableEq

def Elf64Ehdr.ofBytes (buffer : List Byte) : Elf64Ehdr where
  eIdent := buffer.take 16
  eType := fieldAt buffer 16 2
  eEntry := fieldAt buffer 24 8
  ePhoff := fieldAt buffer 32 8
  ePhnum := fieldAt buffer 56 2

/-- The fields of `Elf64_Phdr` the loader reads. -/
structure Elf64Phdr where
  pType : Nat
  pFlags : Nat
  pOffset : Nat
  pVaddr : Nat
  pFilesz : Nat
  pMemsz : Nat
deriving Repr, DecidableEq

def Elf64Phdr.ofBytes (buffer : List Byte) : Elf64Phdr where
  pType := fieldAt buffer 0 4
  pFlags := fieldAt buffer 4 4
  pOffset := fieldAt buffer 8 8
  pVaddr := fieldAt buffer 16 8
  pFilesz := fieldAt buffer 32 8
  pMemsz := fieldAt buffer 40 8

def ehdrSize : Nat := 64
def phdrSize : Nat := 56
def ptLoad : Nat := 1
def pfX : Nat := 1

/-- What the buffers on the kernel stack hold before they are read into: the three
copies of the ELF header, and the program headers, for which `room` bytes are left.  The
stack of a task has `4096 * 32` bytes. -/
structure StackBytes where
  isElf : List Byte
  isCompatible : List Byte
  ehdr : List Byte
  phdrs : List Byte
  room : Nat

def readEhdr (file stale : List Byte) : Elf64Ehdr :=
  .ofBytes (overlay stale (readFile file 0 ehdrSize))

/-- `is_elf` -/
def isElf (file : List Byte) (stack : StackBytes) : Bool :=
  let ehdr := readEhdr file stack.isElf
  ehdr.eIdent.getD 0 0 == 0x7f#8 && ehdr.eIdent.getD 1 0 == 0x45#8 &&
    ehdr.eIdent.getD 2 0 == 0x4c#8 && ehdr.eIdent.getD 3 0 == 0x46#8

/-- `is_compatible_binary`: a 64-bit little-endian executable. -/
def isCompatibleBinary (file : List Byte) (stack : StackBytes) : Bool :=
  if !isElf file stack then false else
  let ehdr := readEhdr file stack.isCompatible
  if ehdr.eIdent.getD 4 0 != 2#8 then false else
  if ehdr.eIdent.getD 5 0 != 1#8 then false else
  ehdr.eType == 2

/-- The program headers `load_elf` reads. -/
def programHeaders (file : List Byte) (stack : StackBytes) : List Elf64Phdr :=
  let ehdr := readEhdr file stack.ehdr
  let buffer := overlay stack.phdrs
    (readFile file ehdr.ePhoff (ehdr.ePhnum * phdrSize))
  (List.range ehdr.ePhnum).map fun i =>
    .ofBytes ((buffer.drop (i * phdrSize)).take phdrSize)

/-- The array of program headers fits on the kernel stack. -/
def HeadersFit (file : List Byte) (stack : StackBytes) : Prop :=
  (readEhdr file stack.ehdr).ePhnum * phdrSize ≤ stack.room

instance decidableHeadersFit (file : List Byte) (stack : StackBytes) :
    Decidable (HeadersFit file stack) :=
  inferInstanceAs (Decidable (_ ≤ _))

/-- What the loader does to memory, with the index of the program header it does it
for. -/
inductive LoadEvent where
  /-- `alloc_region` at `vaddr` has mapped `pages` pages. -/
  | mapped (segment vaddr pages : Nat)
  /-- `count` bytes are stored from `addr` on. -/
  | wrote (segment addr count : Nat)
deriving Repr, DecidableEq

/-- The reasons the loader does not return; `overflow` is an array that reaches past the
end of the kernel stack. -/
inductive LoadStop where
  | panic (reason : Panic)
  | fault
  | overflow
deriving Repr, DecidableEq

/-- A part of a run: its events, and what it returns. -/
structure LoadRun (α : Type) where
  log : List LoadEvent
  result : Except LoadStop α

namespace LoadRun

variable {α β : Type}

protected def pure (a : α) : LoadRun α := ⟨[], .ok a⟩

protected def bind (x : LoadRun α) (f : α → LoadRun β) : LoadRun β :=
  match x.result with
  | .error stop => ⟨x.log, .error stop⟩
  | .ok a => ⟨x.log ++ (f a).log, (f a).result⟩

instance monad : Monad LoadRun where
  pure := LoadRun.pure
  bind := LoadRun.bind

theorem bind_of_ok {x : LoadRun α} {a : α} (h : x.result = .ok a)
    (f : α → LoadRun β) : x >>= f = ⟨x.log ++ (f a).log, (f a).result⟩ := by
  change LoadRun.bind x f = _
  rw [LoadRun.bind, h]

theorem bind_of_error {x : LoadRun α} {stop : LoadStop} (h : x.result = .error stop)
    (f : α → LoadRun β) : x >>= f = ⟨x.log, .error stop⟩ := by
  change LoadRun.bind x f = _
  rw [LoadRun.bind, h]

end LoadRun

/-- `alloc_region` for a segment. -/
def allocSegment (segment : Nat) (s : PhysMem) (root vaddr size : Nat)
    (flags : Flags) : LoadRun PhysMem where
  log := [.mapped segment vaddr (regionDone s root vaddr size flags)]
  result :=
    match allocRegion64 s root vaddr size flags with
    | .error reason => .error (.panic reason)
    | .ok s => .ok s

/-- Stores to the memory of a segment. -/
def writeSegment (segment root addr count : Nat) (byte : Nat → Byte) (s : PhysMem) :
    LoadRun PhysMem where
  log := [.wrote segment addr count]
  result :=
    match storeBytes root addr byte count s with
    | none => .error .fault
    | some s => .ok s

def segmentFlags (h : Elf64Phdr) (nx : Bool) : Flags :=
  if h.pFlags &&& pfX = 0 ∧ nx then
    ⟨flagsPresent ||| flagsUser ||| flagsRw ||| 0x8000000000000000#64, by decide⟩
  else ⟨flagsPresent ||| flagsUser ||| flagsRw, by decide⟩

/-- The stores of one round: the bytes the file has for the segment, then zeros. -/
def fillSegment (root : Nat) (file : List Byte) (segment : Nat) (h : Elf64Phdr)
    (s : PhysMem) : LoadRun PhysMem := do
  let data := readFile file h.pOffset h.pFilesz
  let s ← writeSegment segment root h.pVaddr data.length (data.getD · 0) s
  writeSegment segment root ((h.pVaddr + h.pFilesz) % 2 ^ 64)
    ((h.pMemsz + 2 ^ 64 - h.pFilesz) % 2 ^ 64) (fun _ => 0) s

/-- The break address after a segment. -/
def nextBreak (h : Elf64Phdr) (breakAddr : Nat) : Nat :=
  let segmentEnd := (h.pVaddr + h.pMemsz) % 2 ^ 64
  if breakAddr = 0 ∨ breakAddr < segmentEnd then segmentEnd else breakAddr

/-- One round of the loop of `load_elf` on a `PT_LOAD` header; `none` for the break
address when `alloc_region` returned a null pointer. -/
def loadSegment (root : Nat) (file : List Byte) (nx : Bool) (segment : Nat)
    (h : Elf64Phdr) (s : PhysMem) (breakAddr : Nat) :
    LoadRun (PhysMem × Option Nat) := do
  let s ← allocSegment segment s root h.pVaddr h.pMemsz (segmentFlags h nx)
  if h.pVaddr = 0 then pure (s, none) else
  let s ← fillSegment root file segment h s
  pure (s, some (nextBreak h breakAddr))

/-- The loop of `load_elf` from program header `i` on. -/
def loadSegments (root : Nat) (file : List Byte) (nx : Bool) :
    Nat → List Elf64Phdr → PhysMem → Nat → LoadRun (PhysMem × Option Nat)
  | _, [], s, breakAddr => pure (s, some breakAddr)
  | i, h :: rest, s, breakAddr =>
      if h.pType = ptLoad then do
        let (s, loaded) ← loadSegment root file nx i h s breakAddr
        match loaded with
        | none => pure (s, none)
        | some breakAddr => loadSegments root file nx (i + 1) rest s breakAddr
      else loadSegments root file nx (i + 1) rest s breakAddr

/-- What `load_elf` returns: the entry point, `0` on failure, and `*brk` if it is
set. -/
structure Loaded where
  phys : PhysMem
  entry : Nat
  brk : Option Nat

/-- `load_elf` in the address space `root`. -/
def loadElf (s : PhysMem) (root : Nat) (file : List Byte) (stack : StackBytes)
    (nx : Bool) : LoadRun Loaded :=
  if !isCompatibleBinary file stack then pure ⟨s, 0, none⟩ else
  if ¬ HeadersFit file stack then ⟨[], .error .overflow⟩ else do
  let (s, loaded) ← loadSegments root file nx 0 (programHeaders file stack) s 0
  match loaded with
  | none => pure ⟨s, 0, none⟩
  | some breakAddr =>
      pure ⟨s, (readEhdr file stack.ehdr).eEntry, some (pageAlign64 breakAddr)⟩

end GlitchedOS
