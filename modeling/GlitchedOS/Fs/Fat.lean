/-
The FAT driver, `fat.c`: the data of a mount, 8.3 names, the chains of clusters and
the functions that only read.  A buffer is the memory from its start on; what a
buffer holds before it is filled is given with each call, and so are the rounds that
a loop may take.  A use of memory behind the table of clusters, or a write behind a
buffer, has no result.
-/
import GlitchedOS.Lib.Loop
import GlitchedOS.Vfs.Mount
import Mathlib.Data.List.Basic
import Mathlib.Tactic.Ring

namespace GlitchedOS

abbrev Buffer : Type := Nat → UInt8

namespace Buffer

def u16 (b : Buffer) (start : Nat) : Nat :=
  (b start).toNat + 2 ^ 8 * (b (start + 1)).toNat

def u32 (b : Buffer) (start : Nat) : Nat :=
  u16 b start + 2 ^ 16 * u16 b (start + 2)

/-- `memcpy` into a buffer. -/
def copy (b : Buffer) (start : Nat) (bytes : List UInt8) : Buffer := fun i =>
  if start ≤ i then bytes.getD (i - start) (b i) else b i

/-- `memset` with zero in a buffer. -/
def clear (b : Buffer) (start size : Nat) : Buffer := fun i =>
  if start ≤ i ∧ i < start + size then 0 else b i

end Buffer

def bytes16 (n : Nat) : List UInt8 := [n.toUInt8, (n / 2 ^ 8).toUInt8]

def bytes32 (n : Nat) : List UInt8 := bytes16 n ++ bytes16 (n / 2 ^ 16)

structure Disk where
  byte : Nat → UInt8
  sectors : Nat

namespace Disk

/-- `read_sectors`; the sectors have to be on the device, and an error leaves the
buffer as it is. -/
def readSectors (disk : Disk) (lba count : Nat) (buffer : Buffer) : Int × Buffer :=
  if lba + count ≤ disk.sectors then
    (0, fun i => if i < 512 * count then disk.byte (512 * lba + i) else buffer i)
  else (eInval, buffer)

/-- `write_sectors` -/
def writeSectors (disk : Disk) (lba : Nat) (buffer : Buffer) (count : Nat) : Int × Disk :=
  if lba + count ≤ disk.sectors then
    (0, { disk with
      byte := fun i =>
        if 512 * lba ≤ i ∧ i < 512 * (lba + count) then buffer (i - 512 * lba)
        else disk.byte i })
  else (eInval, disk)

end Disk

/-- `fat_dirent_t` -/
structure FatDirent where
  name : List Char
  attributes : UInt8
  reserved : UInt8
  creationTimeTenth : UInt8
  creationTime : Nat
  creationDate : Nat
  lastAccessDate : Nat
  firstClusterHigh : Nat
  lastModificationTime : Nat
  lastModificationDate : Nat
  firstClusterLow : Nat
  fileSize : Nat
deriving Repr, DecidableEq

/-- `DIRENT_VOLUME_LABEL` -/
def direntVolumeLabel : UInt8 := 0x08

/-- `DIRENT_DIRECTORY` -/
def direntDirectory : UInt8 := 0x10

/-- `DIRENT_END` -/
def direntEnd : Char := '\x00'

/-- `DIRENT_DELETED` -/
def direntDeleted : Char := Char.ofUInt8 0xE5

/-- `CLUSTER_CHAIN_END` -/
def clusterChainEnd : Nat := 0x0FFFFFF8

namespace FatDirent

def ofBuffer (b : Buffer) (start : Nat) : FatDirent where
  name := (List.range 11).map fun i => Char.ofUInt8 (b (start + i))
  attributes := b (start + 11)
  reserved := b (start + 12)
  creationTimeTenth := b (start + 13)
  creationTime := b.u16 (start + 14)
  creationDate := b.u16 (start + 16)
  lastAccessDate := b.u16 (start + 18)
  firstClusterHigh := b.u16 (start + 20)
  lastModificationTime := b.u16 (start + 22)
  lastModificationDate := b.u16 (start + 24)
  firstClusterLow := b.u16 (start + 26)
  fileSize := b.u32 (start + 28)

def toBytes (d : FatDirent) : List UInt8 :=
  d.name.map Char.toUInt8 ++ [d.attributes, d.reserved, d.creationTimeTenth] ++
    bytes16 d.creationTime ++ bytes16 d.creationDate ++ bytes16 d.lastAccessDate ++
    bytes16 d.firstClusterHigh ++ bytes16 d.lastModificationTime ++
    bytes16 d.lastModificationDate ++ bytes16 d.firstClusterLow ++ bytes32 d.fileSize

def firstByte (d : FatDirent) : Char := d.name.headD direntEnd

def isDirectory (d : FatDirent) : Bool := d.attributes &&& direntDirectory ≠ 0

/-- A deleted entry or a volume label, which the searches pass over. -/
def isSkipped (d : FatDirent) : Bool :=
  d.firstByte = direntDeleted || d.attributes &&& direntVolumeLabel ≠ 0

def firstCluster (d : FatDirent) : Nat := 2 ^ 16 * d.firstClusterHigh + d.firstClusterLow

end FatDirent

/-- The fields of `bpb_t` that the driver uses. -/
structure Bpb where
  bytesPerSector : Nat
  sectorsPerCluster : Nat
  reservedSectors : Nat
  numFats : Nat
  totalSectors16 : Nat
  fatSize16 : Nat
  totalSectors32 : Nat
  fatSize32 : Nat
  rootCluster : Nat
  fsInfo : Nat
deriving Repr, DecidableEq

namespace Bpb

/-- `bpb_t` in memory. -/
def ofBuffer (b : Buffer) : Bpb where
  bytesPerSector := b.u16 11
  sectorsPerCluster := (b 13).toNat
  reservedSectors := b.u16 14
  numFats := (b 16).toNat
  totalSectors16 := b.u16 19
  fatSize16 := b.u16 22
  totalSectors32 := b.u32 32
  fatSize32 := b.u32 36
  rootCluster := b.u32 44
  fsInfo := b.u16 48

def fatSectors (bpb : Bpb) : Nat := if bpb.fatSize16 ≠ 0 then bpb.fatSize16 else bpb.fatSize32

def totalSectors (bpb : Bpb) : Nat :=
  if bpb.totalSectors16 ≠ 0 then bpb.totalSectors16 else bpb.totalSectors32

end Bpb

/-- `fat_data_t`; `fat` is the table of clusters as it was loaded. -/
structure FatData where
  backing : Disk
  bpb : Bpb
  fat : List UInt32
  readOnly : Bool
  fatSize : Nat
  lastFree : Nat

/-- One round of `normalize_fat_path`: upper case, and no slash behind a slash. -/
def normalizeRound (output : List Char) (c : Char) : List Char :=
  if c = '/' ∧ output.getLast? = some '/' then output else output ++ [c.toUpper]

/-- `normalize_fat_path` -/
def normalizeFatPath (inputPath : List Char) : List Char :=
  let output := (inputPath.dropWhile (· = '/')).foldl normalizeRound []
  if output.getLast? = some '/' then output.dropLast else output

/-- `normalize_fat_path` into a buffer of some size. -/
def normalizeInto (size : Nat) (inputPath : List Char) : Option (List Char) :=
  if (normalizeFatPath inputPath).length < size then some (normalizeFatPath inputPath) else none

/-- The first characters of a string, with spaces up to `n`. -/
def padSpaces (n : Nat) (s : List Char) : List Char :=
  (s ++ List.replicate n ' ').take n

/-- `readable_to_8d3`: the eleven characters for twelve. -/
def readableTo8d3 (path : List Char) : List Char :=
  let name := path.takeWhile fun c => decide (c ≠ '.' ∧ c ≠ ' ' ∧ c ≠ '\x00')
  let ext := match path.drop name.length with
    | '.' :: rest => rest.takeWhile fun c => decide (c ≠ ' ' ∧ c ≠ '\x00')
    | _ => []
  padSpaces 8 name ++ padSpaces 3 ext

/-- `f8d3_to_readable`, up to the terminator. -/
def f8d3ToReadable (name : List Char) : List Char :=
  let base := (name.take 8).filter (· ≠ ' ')
  let ext := ((name.drop 8).take 3).filter (· ≠ ' ')
  if ext = [] then base else base ++ '.' :: ext

/-- A component of a path as the searches compare it. -/
def componentName (name : List Char) : List Char :=
  readableTo8d3 (padSpaces 12 name)

namespace FatData

variable (v : FatData)

/-- `read_fat` -/
def readFat (cluster : Nat) : Option Nat := v.fat[cluster]?.map UInt32.toNat

/-- `next_cluster` -/
def nextCluster (currentCluster : Nat) : Option Nat :=
  (v.readFat currentCluster).map (· % 2 ^ 28)

/-- `get_first_cluster_sector`, in 32 bits. -/
def getFirstClusterSector (cluster : Nat) : Nat :=
  ((((cluster : Int) - 2) * v.bpb.sectorsPerCluster +
    (v.bpb.reservedSectors + v.bpb.numFats * v.fatSize)) % 2 ^ 32).toNat

def bytesPerCluster : Nat := v.bpb.sectorsPerCluster * v.bpb.bytesPerSector

def readCluster (cluster : Nat) (buffer : Buffer) : Buffer :=
  (v.backing.readSectors (v.getFirstClusterSector cluster) v.bpb.sectorsPerCluster buffer).2

/-- Where a search is. -/
structure Cursor where
  cluster : Nat
  buffer : Buffer
  offset : Nat

def openCluster (junk : Buffer) (cluster : Nat) : Cursor :=
  ⟨cluster, v.readCluster cluster junk, 0⟩

/-- `fat_dirent_ref_t` for an entry that was found. -/
structure DirentRef where
  dirent : FatDirent
  cluster : Nat
  sector : Nat
  offset : Nat
deriving Repr, DecidableEq

def refAt (at_ : Cursor) : DirentRef :=
  let dirent := FatDirent.ofBuffer at_.buffer at_.offset
  { dirent := dirent
    cluster := dirent.firstCluster
    sector := (v.getFirstClusterSector at_.cluster + at_.offset / 512) % 2 ^ 32
    offset := at_.offset % 512 }

/-- The start of a round: behind a cluster the next one is read, unless the chain
ends. -/
def refill (at_ : Cursor) : Option (Option Cursor) :=
  if v.bytesPerCluster ≤ at_.offset then do
    let cluster ← v.nextCluster at_.cluster
    if clusterChainEnd ≤ cluster then some none
    else some (some ⟨cluster, v.readCluster cluster at_.buffer, 0⟩)
  else some (some at_)

/-- A round of the search that `fat_get_dirent_ref` and `fat_lookup` share. -/
def searchRound (component : List Char) (at_ : Cursor) :
    Option (Cursor ⊕ Option DirentRef) := do
  match ← v.refill at_ with
  | none => some (.inr none)
  | some at_ =>
    let dirent := FatDirent.ofBuffer at_.buffer at_.offset
    if dirent.firstByte = direntEnd then some (.inr none)
    else if dirent.isSkipped then some (.inl { at_ with offset := at_.offset + 32 })
    else if dirent.name = component then some (.inr (some (v.refAt at_)))
    else some (.inl { at_ with offset := at_.offset + 32 })

def search (fuel : Nat) (component : List Char) (at_ : Cursor) : Option (Option DirentRef) :=
  runLoop (v.searchRound component) fuel at_

/-- The next component of a path, of at most twelve characters. -/
def nextComponent (path : List Char) : List Char := (path.takeWhile (· ≠ '/')).take 12

/-- The path behind its next component and one slash. -/
def restOfPath (path : List Char) : List Char :=
  match path.drop (nextComponent path).length with
  | '/' :: rest => rest
  | rest => rest

theorem restOfPath_lt (c : Char) (more : List Char) :
    (restOfPath (c :: more)).length < (c :: more).length := by
  unfold restOfPath
  by_cases hc : c = '/'
  · subst hc
    simp [nextComponent]
  · have hdrop : ((c :: more).drop (nextComponent (c :: more)).length).length ≤ more.length := by
      rw [nextComponent, List.takeWhile_cons_of_pos (by simpa using hc), List.length_drop,
        List.length_take, List.length_cons, List.length_cons]
      omega
    split
    next rest heq =>
      rw [heq, List.length_cons] at hdrop
      rw [List.length_cons]
      omega
    next => exact Nat.lt_succ_of_le hdrop

/-- The loop of `fat_get_dirent_ref` over the components of a normalized path; `junk`
is what the buffer for a directory holds. -/
def walkPath (fuel : Nat) (junk : Nat → Buffer) (path : List Char) (ref : DirentRef) :
    Option (Option DirentRef) :=
  match path with
  | [] => some (some ref)
  | c :: more =>
    if ref.dirent.isDirectory = false then some none
    else
      let component := componentName (nextComponent (c :: more))
      match v.search fuel component (v.openCluster (junk ref.cluster) ref.cluster) with
      | none => none
      | some none => some none
      | some (some found) => walkPath fuel junk (restOfPath (c :: more)) found
termination_by path.length
decreasing_by exact restOfPath_lt c more

/-- The start of `fat_get_dirent_ref`. -/
def rootRef : DirentRef where
  dirent :=
    { name := List.replicate 11 '\x00', attributes := direntDirectory, reserved := 0,
      creationTimeTenth := 0, creationTime := 0, creationDate := 0, lastAccessDate := 0,
      firstClusterHigh := v.bpb.rootCluster / 2 ^ 16 % 2 ^ 16, lastModificationTime := 0,
      lastModificationDate := 0, firstClusterLow := v.bpb.rootCluster % 2 ^ 16, fileSize := 0 }
  cluster := v.bpb.rootCluster
  sector := 0
  offset := 0

/-- `fat_get_dirent_ref` -/
def getDirentRef (fuel : Nat) (junk : Nat → Buffer) (path : List Char) :
    Option (Option DirentRef) := do
  let npath ← normalizeInto 512 path
  v.walkPath fuel junk npath v.rootRef

/-- `fat_read_dirent` -/
def readDirent (junk : Buffer) (handle : Nat) : FatDirent :=
  if handle = 0 then
    let dirent := FatDirent.ofBuffer junk 0
    { dirent with
      name := ['R', 'O', 'O', 'T'] ++ dirent.name.drop 4
      attributes := direntDirectory
      firstClusterLow := v.bpb.rootCluster % 2 ^ 16
      firstClusterHigh := v.bpb.rootCluster / 2 ^ 16 % 2 ^ 16 }
  else
    FatDirent.ofBuffer (v.backing.readSectors (handle / 2 ^ 32 % 2 ^ 32) 1 junk).2
      (handle % 2 ^ 32)

/-- `handle` for the place of an entry. -/
def DirentRef.handle (ref : DirentRef) : Nat := ref.sector * 2 ^ 32 + ref.offset

/-- `fat_lookup`; `entry` is what the buffer for the entry holds. -/
def lookup (fuel : Nat) (entry : Buffer) (junk : Nat → Buffer) (name : List Char)
    (parent : Nat) : Option (Except Int Nat) :=
  let dirent := v.readDirent entry parent
  if dirent.isDirectory = false then some (.error eNotdir)
  else do
    let name ← normalizeInto 512 name
    let component := componentName (name.take 12)
    let at_ := v.openCluster (junk dirent.firstCluster) dirent.firstCluster
    match ← v.search fuel component at_ with
    | none => some (.error eNoent)
    | some found => some (.ok found.handle)

/-- `fat_lookup_path` -/
def lookupPath (fuel : Nat) (junk : Nat → Buffer) (path : List Char) :
    Option (Except Int Nat) := do
  match ← v.getDirentRef fuel junk path with
  | none => some (.error eNoent)
  | some ref => some (.ok ref.handle)

/-- The entry for the directory itself, or for the one above. -/
def isDotName (name : List Char) : Bool :=
  name = padSpaces 11 ['.'] || name = padSpaces 11 ['.', '.']

/-- The inner loop of `fat_readdir`: the entry of a cluster that has the index, or the
index behind the cluster. -/
def readdirCluster (buffer : Buffer) (index offset currentIndex : Nat) : FatDirent ⊕ Nat :=
  if offset < v.bytesPerCluster then
    let dirent := FatDirent.ofBuffer buffer offset
    if dirent.firstByte = direntEnd then .inr currentIndex
    else if dirent.isSkipped || isDotName dirent.name then
      readdirCluster buffer index (offset + 32) currentIndex
    else if currentIndex = index then .inl dirent
    else readdirCluster buffer index (offset + 32) (currentIndex + 1)
  else .inr currentIndex
termination_by v.bytesPerCluster - offset

/-- A round of the outer loop of `fat_readdir`, for a cluster and the index of its
first entry. -/
def readdirRound (junk : Nat → Buffer) (index : Nat) (at_ : Nat × Nat) :
    Option ((Nat × Nat) ⊕ Option FatDirent) :=
  if at_.1 < clusterChainEnd then
    match v.readdirCluster (v.readCluster at_.1 (junk at_.1)) index 0 at_.2 with
    | .inl dirent => some (.inr (some dirent))
    | .inr currentIndex => do
      let cluster ← v.nextCluster at_.1
      some (.inl (cluster, currentIndex))
  else some (.inr none)

/-- `fat_readdir`: the name and the type of an entry, or the result without one;
`index` is the index as `uint64_t`. -/
def readdir (fuel : Nat) (entry : Buffer) (junk : Nat → Buffer) (handle index : Nat) :
    Option (Except Int (List Char × DirentType)) :=
  let directory := v.readDirent entry handle
  if directory.firstByte = direntDeleted ∨ directory.firstByte = direntEnd then
    some (.error eNoent)
  else do
    match ← runLoop (v.readdirRound junk index) fuel (directory.firstCluster, 0) with
    | none => some (.error 0)
    | some found =>
      some (.ok (f8d3ToReadable found.name, if found.isDirectory then .dir else .file))

end FatData

end GlitchedOS
