/-
The file system in memory, `ramfs.c`, below the calls of `vfs.c` and `fd.c` that
reach it.  A pointer to an entry is a number, and an operation that follows a
pointer to memory that is not an entry, or writes behind a buffer, has no result.
The times of entries are left out.
-/
import GlitchedOS.Vfs.Path
import GlitchedOS.Vfs.Calls
import Mathlib.Data.Finset.Card
import Mathlib.Tactic.Ring

namespace GlitchedOS

/-- `ramfs_dirent_t` -/
structure RamfsDirent where
  name : List Char
  type : DirentType
  device : Nat
  fileSize : Nat
  openCount : Nat
  toDelete : Bool
  blocks : List (List UInt8)
  previous : Option Nat
  next : Option Nat
  parent : Option Nat
  child : Option Nat
deriving Repr, DecidableEq

/-- `ramfs_mount_t`, with the entries that are allocated. -/
structure Ramfs where
  dirents : Nat → RamfsDirent
  live : Finset Nat
  root : Nat
  readOnly : Bool

/-- `ramfs_dirent_t` as `kmalloc` gives it, with a name and a type. -/
def newDirent (name : List Char) (type : DirentType) (device : Nat) : RamfsDirent where
  name := name.take 255
  type := type
  device := device
  fileSize := 0
  openCount := 0
  toDelete := false
  blocks := []
  previous := none
  next := none
  parent := none
  child := none

/-- `RAMFS_BLOCK_SIZE` -/
def ramfsBlockSize : Nat := 4096 - 8

/-- The blocks that `ramfs_truncate` counts for a size. -/
def ramfsBlockCount (size : Nat) : Nat :=
  (size + ramfsBlockSize - 1) % 2 ^ 64 / ramfsBlockSize

/-- A block as `kmalloc` gives it. -/
def zeroBlock : List UInt8 := List.replicate ramfsBlockSize 0

def pathNames (path : List Char) : List (List Char) :=
  (path.splitOn '/').filter (· ≠ [])

/-- The path up to the last slash, but for slashes at the end. -/
def dirnameOf (path : List Char) : List Char :=
  ((path.rdropWhile (· = '/')).rdropWhile (· ≠ '/')).dropLast

/-- The name behind the last slash. -/
def filenameOf (path : List Char) : List Char :=
  (path.rdropWhile (· = '/')).rtakeWhile (· ≠ '/')

namespace Ramfs

variable (s : Ramfs)

def get (p : Nat) : Option RamfsDirent :=
  if p ∈ s.live then some (s.dirents p) else none

def setDirent (p : Nat) (f : RamfsDirent → RamfsDirent) : Ramfs :=
  { s with dirents := fun q => if q = p then f (s.dirents q) else s.dirents q }

def modify (p : Nat) (f : RamfsDirent → RamfsDirent) : Option Ramfs :=
  if p ∈ s.live then some (s.setDirent p f) else none

/-- A write through a pointer that may be `NULL`. -/
def modifyAt (p : Option Nat) (f : RamfsDirent → RamfsDirent) : Option Ramfs :=
  match p with
  | none => some s
  | some p => s.modify p f

/-- The search for a name in a list of entries, through `n` of them. -/
def findChild (name : List Char) : Nat → Option Nat → Option (Option Nat)
  | _, none => some none
  | 0, some _ => none
  | n + 1, some p => do
    let dirent ← s.get p
    if dirent.name = name then some (some p) else findChild name n dirent.next

/-- The entry that names lead to from a directory, with the error for a name in
something else.  A name of 256 characters has no room for its terminator. -/
def walkNames (notDir : Int) : List (List Char) → Nat → Option (Except Int Nat)
  | [], at_ => some (.ok at_)
  | name :: rest, at_ =>
    if 256 ≤ name.length then none
    else do
      let dirent ← s.get at_
      if dirent.type ≠ .dir then some (.error notDir)
      else match ← s.findChild name s.live.card dirent.child with
      | none => some (.error eNoent)
      | some p => walkNames notDir rest p

/-- `ramfs_get_dirent` -/
def getDirent (path : List Char) : Option (Except Int Nat) :=
  s.walkNames eNoent (pathNames path) s.root

/-- The walk of `find_mountpoint` inside this mount, by `ramfs_lookup`. -/
def lookupPath (path : List Char) : Option (Except Int Nat) :=
  s.walkNames eNotdir (pathNames path) s.root

/-- What `ramfs_free_dirent` and `ramfs_rename` do to take an entry out of its
list. -/
def unlink (p : Nat) : Option Ramfs := do
  let dirent ← s.get p
  let s ← s.modifyAt dirent.previous fun d => { d with next := dirent.next }
  let parent ← dirent.parent
  let parentDirent ← s.get parent
  let s ← s.modifyAt (if parentDirent.child = some p then some parent else none) fun d =>
    { d with child := dirent.next }
  s.modifyAt dirent.next fun d => { d with previous := dirent.previous }

/-- `ramfs_free_dirent`; the blocks of the entry go with it. -/
def freeDirent (p : Nat) : Option (Int × Ramfs) := do
  let s ← s.unlink p
  some (0, { s with live := s.live.erase p })

/-- `ramfs_open` -/
def openDirent (p : Nat) : Option Ramfs :=
  s.modify p fun d => { d with openCount := d.openCount + 1 }

/-- `ramfs_close` -/
def closeDirent (p : Nat) : Option (Int × Ramfs) := do
  let s ← s.modify p fun d => { d with openCount := d.openCount - 1 }
  let dirent ← s.get p
  if dirent.openCount = 0 ∧ dirent.toDelete then s.freeDirent p else some (0, s)

/-- The search of `ramfs_readdir`: the entry with an index among those that are not
deleted. -/
def nthVisible : Nat → Option Nat → Nat → Option (Option RamfsDirent)
  | _, none, _ => some none
  | 0, some _, _ => none
  | n + 1, some p, index => do
    let dirent ← s.get p
    if dirent.toDelete then nthVisible n dirent.next index
    else match index with
    | 0 => some (some dirent)
    | index + 1 => nthVisible n dirent.next index

/-- `ramfs_readdir`: the name and the type of an entry, or the result without one. -/
def readdir (p index : Nat) : Option (Except Int (List Char × DirentType)) := do
  let dirent ← s.get p
  if dirent.type ≠ .dir then some (.error eNotdir)
  else match ← s.nthVisible s.live.card dirent.child index with
  | none => some (.error 0)
  | some found => some (.ok (found.name, found.type))

/-- `ramfs_delete` -/
def delete (path : List Char) : Option (Int × Ramfs) :=
  if s.readOnly then some (eRofs, s)
  else do
    match ← s.getDirent path with
    | .error res => some (res, s)
    | .ok p =>
      let s ← s.modify p fun d => { d with toDelete := true }
      let dirent ← s.get p
      if 0 < dirent.openCount then some (0, s) else s.freeDirent p

/-- `ramfs_add_dirent` -/
def addDirent (path : List Char) (p : Nat) : Option (Int × Ramfs) :=
  if s.readOnly then some (eRofs, s)
  else do
    match ← s.getDirent path with
    | .error res => some (res, s)
    | .ok parent =>
      let parentDirent ← s.get parent
      if parentDirent.type ≠ .dir then some (eNotdir, s)
      else
        let s ← s.modify p fun d => { d with parent := some parent, next := parentDirent.child }
        let s ← s.modify parent fun d => { d with child := some p }
        let s ← s.modifyAt parentDirent.child fun d => { d with previous := some p }
        let s ← s.modify p fun d => { d with previous := none, child := none }
        some (0, s)

/-- A new entry at the address that `kmalloc` gives. -/
def insertDirent (new : Nat) (dirent : RamfsDirent) : Ramfs :=
  { s with dirents := Function.update s.dirents new dirent, live := insert new s.live }

/-- `ramfs_create_file`, `ramfs_create_directory` and the end of `ramfs_mknod`; `new`
is the address of the new entry. -/
def create (new : Nat) (path : List Char) (type : DirentType) (device : Nat) :
    Option (Int × Ramfs) :=
  if s.readOnly then some (eRofs, s)
  else do
    match ← s.getDirent path with
    | .ok _ => some (eExist, s)
    | .error _ =>
      if 256 ≤ (dirnameOf path).length ∨ 256 ≤ (filenameOf path).length then none
      else
        let s := s.insertDirent new (newDirent (filenameOf path) type device)
        s.addDirent (dirnameOf path) new

/-- `ramfs_create_file` -/
def createFile (new : Nat) (path : List Char) : Option (Int × Ramfs) :=
  s.create new path .file 0

/-- `ramfs_create_directory` -/
def createDirectory (new : Nat) (path : List Char) : Option (Int × Ramfs) :=
  s.create new path .dir 0

/-- `ramfs_mknod` -/
def mknod (new : Nat) (path : List Char) (type : DirentType) (device : Nat) :
    Option (Int × Ramfs) :=
  if s.readOnly then some (eRofs, s)
  else if type ≠ .block ∧ type ≠ .char then some (eInval, s)
  else s.create new path type device

/-- The first half of `ramfs_rename`: the entry is out of its list and has its new
name. -/
def detach (p : Nat) (newPath : List Char) : Option Ramfs := do
  let s ← s.unlink p
  s.modify p fun d => { d with name := filenameOf newPath }

/-- `ramfs_rename` -/
def rename (oldPath newPath : List Char) : Option (Int × Ramfs) :=
  if s.readOnly then some (eRofs, s)
  else do
    match ← s.getDirent oldPath with
    | .error res => some (res, s)
    | .ok p =>
      if 256 ≤ (dirnameOf newPath).length ∨ 256 ≤ (filenameOf newPath).length then none
      else
        let s ← s.detach p newPath
        s.addDirent (dirnameOf newPath) p

/-- The blocks of `ramfs_truncate`: more blocks behind the last, or the last ones
freed and what remains of the new last one cleared. -/
def truncateBlocks (blocks : List (List UInt8)) (oldSize newSize : Nat) :
    Option (List (List UInt8)) :=
  let original := ramfsBlockCount oldSize
  let required := ramfsBlockCount newSize
  if original < required then some (blocks ++ List.replicate (required - original) zeroBlock)
  else if required < original then
    if blocks = [] then none
    else
      let kept := blocks.take (blocks.length - (original - required))
      if newSize % ramfsBlockSize = 0 then some kept
      else some (kept.modify (kept.length - 1) fun block =>
        block.take (newSize % ramfsBlockSize) ++
          List.replicate (ramfsBlockSize - newSize % ramfsBlockSize) 0)
  else some blocks

/-- `ramfs_truncate` -/
def truncate (p newSize : Nat) : Option (Int × Ramfs) := do
  let dirent ← s.get p
  let blocks ← truncateBlocks dirent.blocks dirent.fileSize newSize
  let s ← s.modify p fun d => { d with fileSize := newSize, blocks := blocks }
  some (0, s)

/-- The blocks of `ramfs_write`, from a position in one of them on; there is always
a block behind the last one written. -/
def writeBlocks (blocks : List (List UInt8)) (index blockOffset : Nat) (buffer : List UInt8) :
    List (List UInt8) :=
  if buffer = [] ∨ ramfsBlockSize ≤ blockOffset then blocks
  else
    let toWrite := min (ramfsBlockSize - blockOffset) buffer.length
    let blocks := blocks.modify index fun block =>
      block.take blockOffset ++ buffer.take toWrite ++ block.drop (blockOffset + toWrite)
    let blocks := if index + 1 < blocks.length then blocks else blocks ++ [zeroBlock]
    writeBlocks blocks (index + 1) 0 (buffer.drop toWrite)
termination_by buffer.length
decreasing_by
  have hpos : 0 < buffer.length := List.length_pos_iff.mpr (by tauto)
  simp only [List.length_drop]
  omega

/-- `ramfs_write`; `device` is the answer of a device. -/
def write (device : Int) (p : Nat) (buffer : List UInt8) (offset : Nat) :
    Option (Int × Ramfs) :=
  if s.readOnly then some (eRofs, s)
  else do
    let dirent ← s.get p
    if dirent.type = .dir then some (eIsdir, s)
    else if dirent.type = .block ∨ dirent.type = .char then some (device, s)
    else
      let skipped := offset / ramfsBlockSize
      let blocks := dirent.blocks ++
        List.replicate (skipped + 1 - dirent.blocks.length) zeroBlock
      let blocks := writeBlocks blocks skipped (offset % ramfsBlockSize) buffer
      let s ← s.modify p fun d =>
        { d with fileSize := max dirent.fileSize (offset + buffer.length), blocks := blocks }
      some (buffer.length, s)

end Ramfs

/-- A mount, and the handle of each open file description on it. -/
structure RamfsFiles where
  fs : Ramfs
  handles : List Nat

namespace RamfsFiles

variable (s : RamfsFiles)

/-- The result of an operation of the file system. -/
def withFs (result : Option (Int × Ramfs)) : Option (Int × RamfsFiles) :=
  result.map fun (res, fs) => (res, { s with fs := fs })

/-- The start of `fd_open`: the type of the file, which is created when it is
missing. -/
def openStat (path created : List Char) (flags : OpenFlags) (new : Nat) :
    Option (Int × DirentType × Ramfs) := do
  match ← s.fs.lookupPath path with
  | .ok p =>
    let dirent ← s.fs.get p
    some (if flags.excl then eExist else 0, dirent.type, s.fs)
  | .error res =>
    if flags.creat then
      let (res, fs) ← s.fs.createFile new created
      some (res, .unknown, fs)
    else some (res, .unknown, s.fs)

/-- `open`, and the truncation by `fd_open`. -/
def openHandle (fs : Ramfs) (path : List Char) (truncates : Bool) :
    Option (Int × RamfsFiles) := do
  match ← fs.lookupPath path with
  | .error res => some (res, { s with fs := fs })
  | .ok p =>
    let fs ← fs.openDirent p
    let (res, fs) ← if truncates then fs.truncate p 0 else some (0, fs)
    if res < 0 then some (res, { s with fs := fs })
    else some (0, { fs := fs, handles := s.handles ++ [p] })

/-- `fd_open`.  `created` is the path that `create_file` passes on, and `full` the
error when there is no free descriptor or description. -/
def fdOpen (path created : List Char) (flags : OpenFlags) (full : Option Int) (new : Nat) :
    Option (Int × RamfsFiles) :=
  if flags.wronly ∧ flags.rdwr then some (eInval, s)
  else do
    let (res, type, fs) ← s.openStat path created flags new
    if res < 0 then some (res, { s with fs := fs })
    else if flags.directory ∧ type ≠ .dir then some (eNotdir, { s with fs := fs })
    else match full with
    | some res => some (res, { s with fs := fs })
    | none => s.openHandle fs path (flags.trunc && decide (type = .file))

/-- `fd_close` for the last descriptor of a description. -/
def fdClose (i : Nat) : Option (Int × RamfsFiles) :=
  match s.handles[i]? with
  | none => some (eBadf, s)
  | some p => do
    let (res, fs) ← s.fs.closeDirent p
    some (res, { fs := fs, handles := s.handles.eraseIdx i })

/-- `remove_file`, for the part of the path behind the mount. -/
def removeFile (path : List Char) : Option (Int × RamfsFiles) := do
  match ← s.fs.lookupPath path with
  | .error res => some (res, s)
  | .ok p =>
    if path = [] then some (eBusy, s)
    else
      let dirent ← s.fs.get p
      let first ← s.fs.readdir p 0
      if dirent.type = .dir ∧ first ≠ .error 0 then some (eNotempty, s)
      else s.withFs (s.fs.delete path)

/-- `rename_file`, for the parts of the paths behind the mount. -/
def renameFile (oldPath newPath : List Char) : Option (Int × RamfsFiles) := do
  let old ← s.fs.lookupPath oldPath
  let new ← s.fs.lookupPath newPath
  match old, new with
  | .error res, _ => some (res, s)
  | .ok _, .error res => some (res, s)
  | .ok _, .ok _ =>
    if oldPath = [] then some (eBusy, s)
    else s.withFs (s.fs.rename oldPath newPath)

/-- `write_file` to an open file. -/
def writeFile (i : Nat) (device : Int) (buffer : List UInt8) (offset : Nat) :
    Option (Int × RamfsFiles) :=
  match s.handles[i]? with
  | none => some (eBadf, s)
  | some p => do
    let dirent ← s.fs.get p
    if dirent.type = .dir then some (eIsdir, s)
    else s.withFs (s.fs.write device p buffer offset)

/-- `ftruncate` -/
def ftruncate (i newSize : Nat) : Option (Int × RamfsFiles) :=
  match s.handles[i]? with
  | none => some (eBadf, s)
  | some p => do
    let dirent ← s.fs.get p
    if dirent.type = .dir then some (eInval, s) else s.withFs (s.fs.truncate p newSize)

/-- `truncate` of a path. -/
def truncateFile (path : List Char) (newSize : Nat) : Option (Int × RamfsFiles) := do
  match ← s.fs.lookupPath path with
  | .error res => some (res, s)
  | .ok p => s.withFs (s.fs.truncate p newSize)

end RamfsFiles

inductive RamfsOp where
  | createFile (new : Nat) (path : List Char)
  | createDirectory (new : Nat) (path : List Char)
  | mknod (new : Nat) (path : List Char) (type : DirentType) (device : Nat)
  | fdOpen (path created : List Char) (flags : OpenFlags) (full : Option Int) (new : Nat)
  | fdClose (i : Nat)
  | writeFile (i : Nat) (device : Int) (buffer : List UInt8) (offset : Nat)
  | ftruncate (i newSize : Nat)
  | truncateFile (path : List Char) (newSize : Nat)
  | removeFile (path : List Char)
  | renameFile (oldPath newPath : List Char)

namespace RamfsFiles

def call (s : RamfsFiles) : RamfsOp → Option (Int × RamfsFiles)
  | .createFile new path => s.withFs (s.fs.createFile new path)
  | .createDirectory new path => s.withFs (s.fs.createDirectory new path)
  | .mknod new path type device => s.withFs (s.fs.mknod new path type device)
  | .fdOpen path created flags full new => s.fdOpen path created flags full new
  | .fdClose i => s.fdClose i
  | .writeFile i device buffer offset => s.writeFile i device buffer offset
  | .ftruncate i newSize => s.ftruncate i newSize
  | .truncateFile path newSize => s.truncateFile path newSize
  | .removeFile path => s.removeFile path
  | .renameFile oldPath newPath => s.renameFile oldPath newPath

/-- The state after a call; without a result it stays. -/
def step (s : RamfsFiles) (op : RamfsOp) : RamfsFiles :=
  ((s.call op).map Prod.snd).getD s

end RamfsFiles

/-- `ramfs_mount`; `root` is the address of the mount. -/
def ramfsMount (root : Nat) (readOnly : Bool) : Ramfs where
  dirents _ := newDirent [] .dir 0
  live := {root}
  root := root
  readOnly := readOnly

end GlitchedOS
