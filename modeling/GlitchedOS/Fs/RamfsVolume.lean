/-
A ramfs with the memory of its files.  The entries are those of `Ramfs`; what a file holds
is in blocks of memory, from the first block of its entry on.
-/
import GlitchedOS.Fs.RamfsBlocks

namespace GlitchedOS

/-- A mount with the first block of each entry. -/
structure RamfsVolume where
  fs : Ramfs
  firstBlock : Nat → Option Nat
  memory : RamfsMemory

namespace RamfsVolume

open Ramfs (byteAt Sized Filled Cut truncateEnd)

/-- `ramfs_mount`; the mount is what was given out first. -/
def mount (readOnly : Bool) : RamfsVolume where
  fs := ramfsMount 0 readOnly
  firstBlock _ := none
  memory := {
    blocks _ := ⟨zeroBlock, none⟩
    given := 1
    freed := []
    freed_lt _ ha := nomatch ha }

section Calls

variable (v : RamfsVolume)

/-- The first block, the size and the memory of a file after a call that changed it. -/
def setFile (p : Nat) (first : Option Nat) (memory : RamfsMemory) (size : Nat) : RamfsVolume where
  fs := v.fs.setDirent p fun d => { d with fileSize := size }
  firstBlock := Function.update v.firstBlock p first
  memory := memory

/-- `ramfs_create_file` -/
def createFile (path : List Char) : Option (Int × RamfsVolume) :=
  if v.fs.readOnly then some (eRofs, v)
  else do
    match ← v.fs.getDirent path with
    | .ok _ => some (eExist, v)
    | .error _ =>
      if 256 ≤ (dirnameOf path).length ∨ 256 ≤ (filenameOf path).length then none
      else
        let (new, memory) := v.memory.kmalloc
        let fs := v.fs.insertDirent new (newDirent (filenameOf path) .file 0)
        let (res, fs) ← fs.addDirent (dirnameOf path) new
        some (res, ⟨fs, Function.update v.firstBlock new none, memory⟩)

/-- `ramfs_write`; `device` is the answer of a device. -/
def write (device : Int) (p : Nat) (buffer : List UInt8) (offset : Nat) :
    Option (Int × RamfsVolume) :=
  if v.fs.readOnly then some (eRofs, v)
  else do
    let dirent ← v.fs.get p
    if dirent.type = .dir then some (eIsdir, v)
    else if dirent.type = .block ∨ dirent.type = .char then some (device, v)
    else
      let (first, memory) ← v.memory.write (v.firstBlock p) buffer offset
      let last := (offset + buffer.length) % 2 ^ 64
      some (buffer.length, v.setFile p first memory
        (if dirent.fileSize < last then last else dirent.fileSize))

/-- `ramfs_read`: its result, and the bytes at the start of the buffer; `device` is the
answer of a device. -/
def read (device : Int × List UInt8) (p offset size : Nat) : Option (Int × List UInt8) := do
  let dirent ← v.fs.get p
  if dirent.type = .dir then some (eIsdir, [])
  else if dirent.type = .block ∨ dirent.type = .char then some device
  else
    let bytes ← v.memory.read (v.firstBlock p) dirent.fileSize offset size
    some (bytes.length, bytes)

/-- `ramfs_truncate` -/
def truncate (p newSize : Nat) : Option (Int × RamfsVolume) := do
  let dirent ← v.fs.get p
  let (first, memory) ← v.memory.truncate (v.firstBlock p) dirent.fileSize newSize
  some (0, v.setFile p first memory newSize)

/-- `ramfs_free_dirent` with so many bytes of the kernel stack left. -/
def freeDirent (stack p : Nat) : Option (Int × RamfsVolume) := do
  let fs ← v.fs.unlink p
  let dirent ← fs.get p
  let memory ← v.memory.freeBlocks stack (v.firstBlock p) dirent.fileSize
  let memory ← memory.kfree (some p)
  some (0, { v with fs := { fs with live := fs.live.erase p }, memory := memory })

/-- `ramfs_delete` -/
def delete (stack : Nat) (path : List Char) : Option (Int × RamfsVolume) :=
  if v.fs.readOnly then some (eRofs, v)
  else do
    match ← v.fs.getDirent path with
    | .error res => some (res, v)
    | .ok p =>
      let fs ← v.fs.modify p fun d => { d with toDelete := true }
      let dirent ← fs.get p
      if 0 < dirent.openCount then some (0, { v with fs := fs })
      else freeDirent { v with fs := fs } stack p

end Calls

/-- A regular file on a mount that can be written, with the blocks for its size. -/
structure FileAt (v : RamfsVolume) (p : Nat) (l : List Nat) : Prop where
  writable : v.fs.readOnly = false
  live : p ∈ v.fs.live
  file : (v.fs.dirents p).type = .file
  list : v.memory.BlockList (v.firstBlock p) l
  sized : Sized (v.memory.contents l)
  covers : (v.fs.dirents p).fileSize ≤ l.length * ramfsBlockSize

/-- A truncation counts the blocks of its size right, and its loops do not overflow their
counter. -/
def TruncateFits (v : RamfsVolume) (p newSize : Nat) : Prop :=
  newSize + ramfsBlockSize ≤ 2 ^ 64 ∧
    RamfsMemory.truncateRounds (v.firstBlock p) (v.fs.dirents p).fileSize newSize < 2 ^ 31

instance (v : RamfsVolume) (p newSize : Nat) : Decidable (v.TruncateFits p newSize) :=
  inferInstanceAs (Decidable (_ ∧ _))

variable {v v' : RamfsVolume} {p offset size newSize i : Nat} {l l' : List Nat}
  {buffer : List UInt8}

theorem setFile_size (first : Option Nat) (memory : RamfsMemory) :
    ((v.setFile p first memory size).fs.dirents p).fileSize = size := by
  rw [setFile, Ramfs.setDirent_self]

theorem setFile_firstBlock (first : Option Nat) (memory : RamfsMemory) :
    (v.setFile p first memory size).firstBlock p = first :=
  Function.update_self ..

theorem FileAt.setFile (h : v.FileAt p l) {first : Option Nat} {memory : RamfsMemory}
    (hlist : memory.BlockList first l') (hsized : Sized (memory.contents l'))
    (hcovers : size ≤ l'.length * ramfsBlockSize) :
    (v.setFile p first memory size).FileAt p l' where
  writable := h.writable
  live := h.live
  file := by
    rw [RamfsVolume.setFile, Ramfs.setDirent_self]
    exact h.file
  list := by
    rw [setFile_firstBlock]
    exact hlist
  sized := hsized
  covers := by
    rw [setFile_size]
    exact hcovers

theorem covers_write {blocks : List (List UInt8)} (buffer : List UInt8) (offset : Nat) :
    offset + buffer.length ≤ (Ramfs.writeBlocks
      (blocks ++ List.replicate (offset / ramfsBlockSize + 1 - blocks.length) zeroBlock)
      (offset / ramfsBlockSize) (offset % ramfsBlockSize) buffer).length * ramfsBlockSize := by
  have hindex : offset / ramfsBlockSize < (blocks ++ List.replicate
      (offset / ramfsBlockSize + 1 - blocks.length) zeroBlock).length := by
    rw [List.length_append, List.length_replicate]
    omega
  obtain ⟨-, hend⟩ := Ramfs.writeBlocks_length _ _ _ buffer hindex
    (Nat.mod_lt offset Ramfs.ramfsBlockSize_pos)
  rw [Nat.div_add_mod'] at hend
  exact Ramfs.le_blocks_iff.mpr hend

theorem write_of_file (hwritable : v.fs.readOnly = false) (hlive : p ∈ v.fs.live)
    (hfile : (v.fs.dirents p).type = .file) (hlist : v.memory.BlockList (v.firstBlock p) l)
    (device : Int) (buffer : List UInt8) (offset : Nat) :
    ∃ first memory l', v.write device p buffer offset = some ((buffer.length : Int),
        v.setFile p first memory
          (max (v.fs.dirents p).fileSize ((offset + buffer.length) % 2 ^ 64))) ∧
      memory.BlockList first l' ∧ v.memory.Extended memory l l' ∧
      memory.contents l' = Ramfs.writeBlocks (v.memory.contents l ++
        List.replicate (offset / ramfsBlockSize + 1 - l.length) zeroBlock)
        (offset / ramfsBlockSize) (offset % ramfsBlockSize) buffer := by
  obtain ⟨first, memory, l', hwrite, hlist', hext, hcontents⟩ := hlist.write buffer offset
  refine ⟨first, memory, l', ?_, hlist', hext, hcontents⟩
  have hrw : ¬ v.fs.readOnly = true := by
    rw [hwritable]
    exact Bool.false_ne_true
  simp only [RamfsVolume.write, if_neg hrw, Ramfs.get_of_mem hlive, Option.bind_eq_bind,
    Option.bind_some, hfile, hwrite, reduceCtorEq, if_false, or_self, max_def_lt]

theorem truncate_of_list (hlive : p ∈ v.fs.live) (hlist : v.memory.BlockList (v.firstBlock p) l)
    (hfew : RamfsMemory.truncateRounds (v.firstBlock p) (v.fs.dirents p).fileSize newSize < 2 ^ 31)
    {blocks : List (List UInt8)}
    (hblocks : Ramfs.truncateBlocks (v.memory.contents l) (v.fs.dirents p).fileSize newSize =
      some blocks) :
    ∃ first memory l' gone, v.truncate p newSize = some (0, v.setFile p first memory newSize) ∧
      memory.BlockList first l' ∧ v.memory.Rewritten memory l l' gone ∧
      memory.contents l' = blocks := by
  obtain ⟨first, memory, l', gone, htruncate, hlist', hrewritten, hcontents⟩ :=
    hlist.truncate hfew hblocks
  refine ⟨first, memory, l', gone, ?_, hlist', hrewritten, hcontents⟩
  rw [RamfsVolume.truncate, Ramfs.get_of_mem hlive, Option.bind_eq_bind, Option.bind_some,
    htruncate]
  rfl

theorem truncate_overflow (hlive : p ∈ v.fs.live)
    (hlist : v.memory.BlockList (v.firstBlock p) l)
    (hmany : 2 ^ 31 ≤
      RamfsMemory.truncateRounds (v.firstBlock p) (v.fs.dirents p).fileSize newSize) :
    v.truncate p newSize = none := by
  rw [RamfsVolume.truncate, Ramfs.get_of_mem hlive, Option.bind_eq_bind, Option.bind_some,
    hlist.truncate_overflow hmany]
  rfl

theorem FileAt.write (h : v.FileAt p l) (device : Int) (buffer : List UInt8) (offset : Nat) :
    ∃ v' l', v.write device p buffer offset = some ((buffer.length : Int), v') ∧ v'.FileAt p l' ∧
      (v'.fs.dirents p).fileSize =
        max (v.fs.dirents p).fileSize ((offset + buffer.length) % 2 ^ 64) ∧
      v.memory.Extended v'.memory l l' ∧
      Filled (v.memory.contents l) (v'.memory.contents l') offset buffer := by
  obtain ⟨first, memory, l', hwrite, hlist, hext, hcontents⟩ :=
    write_of_file h.writable h.live h.file h.list device buffer offset
  have hfilled := Ramfs.write_filled h.sized offset buffer
  have hcovers := @covers_write (v.memory.contents l) buffer offset
  rw [RamfsMemory.length_contents] at hfilled hcovers
  rw [← hcontents] at hfilled hcovers
  rw [RamfsMemory.length_contents] at hcovers
  have hkept := Nat.mul_le_mul_right ramfsBlockSize hext.length_le
  have hold := h.covers
  have hmod := Nat.mod_le (offset + buffer.length) (2 ^ 64)
  refine ⟨_, l', hwrite, h.setFile hlist hfilled.sized (Nat.max_le.mpr ⟨?_, ?_⟩),
    setFile_size .., hext, hfilled⟩
  · omega
  · omega

/-- What `ramfs_truncate` does to the blocks of a file, for any size. -/
theorem FileAt.truncate_blocks (h : v.FileAt p l)
    (hfew : RamfsMemory.truncateRounds (v.firstBlock p) (v.fs.dirents p).fileSize newSize <
      2 ^ 31) :
    ∃ first memory l' gone, v.truncate p newSize = some (0, v.setFile p first memory newSize) ∧
      memory.BlockList first l' ∧ v.memory.Rewritten memory l l' gone ∧
      Cut (v.memory.contents l) (memory.contents l') (v.fs.dirents p).fileSize newSize := by
  have hcount : ramfsBlockCount (v.fs.dirents p).fileSize ≤ (v.memory.contents l).length := by
    rw [RamfsMemory.length_contents]
    exact Nat.le_trans (Ramfs.ramfsBlockCount_le _) (Ramfs.le_blocks_iff.mp h.covers)
  obtain ⟨blocks, hblocks, hcut⟩ := Ramfs.truncateBlocks_cut h.sized hcount
  obtain ⟨first, memory, l', gone, htruncate, hlist, hrewritten, hcontents⟩ :=
    truncate_of_list h.live h.list hfew hblocks
  rw [← hcontents] at hcut
  exact ⟨first, memory, l', gone, htruncate, hlist, hrewritten, hcut⟩

theorem blockCount_of_fits (hfits : v.TruncateFits p newSize) :
    ramfsBlockCount newSize = (newSize + ramfsBlockSize - 1) / ramfsBlockSize := by
  have hwrap := hfits.1
  rw [ramfsBlockCount, Nat.mod_eq_of_lt (by have := Ramfs.ramfsBlockSize_pos; omega)]

/-- `ramfs_truncate` of a file. -/
theorem FileAt.truncate (h : v.FileAt p l) (hfits : v.TruncateFits p newSize) :
    ∃ v' l' gone, v.truncate p newSize = some (0, v') ∧ v'.FileAt p l' ∧
      (v'.fs.dirents p).fileSize = newSize ∧ v.memory.Rewritten v'.memory l l' gone ∧
      Cut (v.memory.contents l) (v'.memory.contents l') (v.fs.dirents p).fileSize newSize := by
  obtain ⟨first, memory, l', gone, htruncate, hlist, hrewritten, hcut⟩ := h.truncate_blocks hfits.2
  have hlength := hcut.length
  have hnew := blockCount_of_fits hfits
  rw [RamfsMemory.length_contents] at hlength
  exact ⟨_, l', gone, htruncate, h.setFile hlist hcut.sized
    (Ramfs.le_blocks_iff.mpr (by rw [← hnew]; omega)), setFile_size .., hrewritten, hcut⟩

theorem read_of_file (hlive : p ∈ v.fs.live) (hfile : (v.fs.dirents p).type = .file)
    (device : Int × List UInt8) (offset size : Nat) :
    v.read device p offset size =
      (v.memory.read (v.firstBlock p) (v.fs.dirents p).fileSize offset size).map
        fun bytes => ((bytes.length : Int), bytes) := by
  simp only [RamfsVolume.read, Ramfs.get_of_mem hlive, Option.bind_eq_bind, Option.bind_some, hfile,
    reduceCtorEq, if_false, or_self]
  cases v.memory.read (v.firstBlock p) (v.fs.dirents p).fileSize offset size with
  | none => rfl
  | some bytes => rfl

/-- `ramfs_read` of a file. -/
theorem FileAt.read (h : v.FileAt p l) (device : Int × List UInt8)
    (hrange : offset + size < 2 ^ 64) :
    let bytes := (List.range' offset (min size ((v.fs.dirents p).fileSize - offset))).map
      (byteAt (v.memory.contents l))
    v.read device p offset size = some ((bytes.length : Int), bytes) := by
  rw [read_of_file h.live h.file, h.list.read h.sized h.covers hrange]
  rfl

/-- A read never follows a pointer that is null, whatever is read. -/
theorem FileAt.read_isSome (h : v.FileAt p l) (device : Int × List UInt8) (offset size : Nat) :
    (v.read device p offset size).isSome := by
  rw [read_of_file h.live h.file, Option.isSome_map]
  exact h.list.read_isSome h.covers offset size

end RamfsVolume

end GlitchedOS
