/-
The functions of `fat.c` that change a volume.  Each of them refuses a volume that is
mounted read-only.
-/
import GlitchedOS.Fs.Fat
import Mathlib.Data.List.DropRight

namespace GlitchedOS

/-- What a call meets besides the volume: the rounds that each of its loops may take,
what its buffers for clusters, for a sector and for a name hold before they are filled,
the time as FAT stores it, and the bytes of the kernel stack that are left for its arrays.
One cluster of the largest size always fits there. -/
structure FatEnv where
  fuel : Nat
  junk : Nat → Buffer
  sector : Buffer
  name : Buffer
  fatDate : Nat
  fatTime : Nat
  stack : Nat
  room : 2 ^ 16 ≤ stack

namespace FatData

variable (v : FatData) (env : FatEnv)

/-- `write_sectors` where the result is not looked at. -/
def writeSectors (lba : Nat) (buffer : Buffer) (count : Nat) : FatData :=
  { v with backing := (v.backing.writeSectors lba buffer count).2 }

def patchSector (lba start : Nat) (bytes : List UInt8) : FatData :=
  let buffer := (v.backing.readSectors lba 1 env.sector).2
  v.writeSectors lba (buffer.copy start bytes) 1

/-- One copy of the table in `write_fat`. -/
def writeFatCopy (entOffset content lba : Nat) : FatData :=
  let old := (v.backing.readSectors lba 1 env.sector).2.u32 entOffset
  v.patchSector env lba entOffset (bytes32 (old / 2 ^ 28 * 2 ^ 28 + content % 2 ^ 28))

/-- `write_fat` -/
def writeFat (cluster content : Nat) : Option FatData :=
  let fatOffset := cluster * 4 % 2 ^ 32
  let fatSector := v.bpb.reservedSectors + fatOffset / v.bpb.bytesPerSector
  let entOffset := fatOffset % v.bpb.bytesPerSector
  if cluster < v.fat.length ∧ entOffset + 4 ≤ 512 then
    let v := { v with fat := v.fat.set cluster content.toUInt32 }
    some ((List.range v.bpb.numFats).foldl
      (fun v i => v.writeFatCopy env entOffset content ((fatSector + i * v.fatSize) % 2 ^ 32)) v)
  else none

def clearCluster (cluster : Nat) : FatData :=
  v.writeSectors (v.getFirstClusterSector cluster) (fun _ => 0) v.bpb.sectorsPerCluster

/-- `total_clusters` -/
def totalClusters : Nat :=
  (((v.bpb.totalSectors : Int) - (v.bpb.reservedSectors + v.bpb.numFats * v.fatSize)) %
    2 ^ 32).toNat / v.bpb.sectorsPerCluster

def entriesPerSector : Nat := v.bpb.bytesPerSector / 4

/-- The free cluster in one sector of the table; zero behind the last cluster. -/
def freeInSector (buffer : Buffer) (sector : Nat) : List Nat → Option Nat
  | [] => none
  | i :: rest =>
    let cluster := (sector * v.entriesPerSector + i) % 2 ^ 32
    if cluster < 2 then freeInSector buffer sector rest
    else if (v.totalClusters + 2) % 2 ^ 32 ≤ cluster then some 0
    else if buffer.u32 (4 * i) % 2 ^ 28 = 0 then some cluster
    else freeInSector buffer sector rest

/-- One of the two loops of `fat_compute_free_cluster`; zero when a sector cannot be
read. -/
def freeInSectors : List Nat → Option Nat
  | [] => none
  | sector :: rest =>
    match v.backing.readSectors ((v.bpb.reservedSectors + sector) % 2 ^ 32) 1 fun _ => 0 with
    | (res, buffer) =>
      if res < 0 then some 0
      else match v.freeInSector buffer sector (List.range v.entriesPerSector) with
      | some cluster => some cluster
      | none => freeInSectors rest

/-- Where the search for a free cluster starts. -/
def startCluster : Nat :=
  if v.lastFree < 2 ∨ (v.totalClusters + 2) % 2 ^ 32 ≤ v.lastFree then 2 else v.lastFree

/-- `fat_compute_free_cluster` -/
def computeFreeCluster : Nat × FatData :=
  let startSector := v.startCluster * 4 % 2 ^ 32 / v.bpb.bytesPerSector
  match (v.freeInSectors (List.range' startSector (v.fatSize - startSector))).or
    (v.freeInSectors (List.range startSector)) with
  | none => (0, v)
  | some 0 => (0, v)
  | some cluster => (cluster, { v with lastFree := cluster })

def markDeleted (ref : DirentRef) : FatData :=
  v.patchSector env ref.sector ref.offset [0xE5]

/-- A round of the loop of `fat_delete`. -/
def freeRound (at_ : FatData × Nat) : Option ((FatData × Nat) ⊕ FatData) :=
  match at_ with
  | (v, cluster) =>
    if cluster < clusterChainEnd then do
      let next ← v.nextCluster cluster
      let v ← v.writeFat env cluster 0
      some (.inl (v, next))
    else some (.inr v)

/-- `fat_delete` -/
def delete (path : List Char) : Option (Int × FatData) :=
  if v.readOnly then some (eRofs, v)
  else do
    let npath ← normalizeInto 512 path
    match ← v.getDirentRef env.fuel env.junk npath with
    | none => some (eNoent, v)
    | some ref =>
      let v ← runLoop (freeRound env) env.fuel (v.markDeleted env ref, ref.dirent.firstCluster)
      some (0, v)

/-- The first entry of a cluster that is not in use. -/
def freeOffset (buffer : Buffer) (offset : Nat) : Option Nat :=
  if offset < v.bytesPerCluster then
    let dirent := FatDirent.ofBuffer buffer offset
    if dirent.firstByte = direntEnd ∨ dirent.firstByte = direntDeleted then some offset
    else freeOffset buffer (offset + 32)
  else none
termination_by v.bytesPerCluster - offset

/-- A round of the loop of `fat_add_dirent`.  The zeros for a new cluster stand on the stack
besides the cluster that was read. -/
def addDirentRound (dirent : FatDirent) (at_ : FatData × Nat) :
    Option ((FatData × Nat) ⊕ (Int × FatData)) :=
  match at_ with
  | (v, cluster) =>
    let firstSector := v.getFirstClusterSector cluster
    let buffer := v.readCluster cluster (env.junk cluster)
    match v.freeOffset buffer 0 with
    | some offset =>
      let v := v.writeSectors firstSector (buffer.copy offset dirent.toBytes)
        v.bpb.sectorsPerCluster
      some (.inr (0, v))
    | none => do
      let next ← v.nextCluster cluster
      if next < clusterChainEnd then some (.inl (v, next))
      else
        let (freeCluster, v) := v.computeFreeCluster
        if freeCluster = 0 then some (.inr (eNospc, v))
        else
          let v ← v.writeFat env cluster (freeCluster % 2 ^ 28)
          let v ← v.writeFat env freeCluster clusterChainEnd
          if env.stack < 2 * v.bytesPerCluster then none
          else some (.inl (v.clearCluster freeCluster, freeCluster))

/-- `fat_add_dirent` -/
def addDirent (path : List Char) (dirent : FatDirent) : Option (Int × FatData) :=
  if v.readOnly then some (eRofs, v)
  else do
    let npath ← normalizeInto 512 path
    match ← v.getDirentRef env.fuel env.junk npath with
    | none => some (eNoent, v)
    | some parent =>
      if parent.dirent.isDirectory = false then some (eNotdir, v)
      else runLoop (addDirentRound env dirent) env.fuel (v, parent.cluster)

/-- `separate_dirname_filename` into buffers of 256 and 12 characters; the directory
keeps its slash. -/
def separateDirnameFilename (path : List Char) : Option (List Char × List Char) :=
  let dirname := path.rdropWhile (· ≠ '/')
  if 256 ≤ dirname.length then none
  else some (dirname, (path.rtakeWhile (· ≠ '/')).take 12)

/-- The name of an entry from a buffer of twelve characters that a filename starts. -/
def direntName (filename : List Char) (buffer : Buffer) : List Char :=
  readableTo8d3 ((List.range 12).map fun i => filename.getD i (Char.ofUInt8 (buffer i)))

/-- The entry of a new file or directory, without its name. -/
def newFatDirent (attributes : UInt8) (firstCluster : Nat) : FatDirent where
  name := []
  attributes := attributes
  reserved := 0
  creationTimeTenth := 0
  creationTime := env.fatTime
  creationDate := env.fatDate
  lastAccessDate := 0
  firstClusterHigh := firstCluster / 2 ^ 16
  lastModificationTime := env.fatTime
  lastModificationDate := env.fatDate
  firstClusterLow := firstCluster % 2 ^ 16
  fileSize := 0

/-- `fat_create_file` -/
def createFile (path : List Char) : Option (Int × FatData) := do
  let npath ← normalizeInto 512 path
  if v.readOnly then some (eRofs, v)
  else match ← v.lookupPath env.fuel env.junk npath with
  | .ok _ => some (eExist, v)
  | .error _ =>
    let (dirname, filename) ← separateDirnameFilename npath
    let dirent := { newFatDirent env 0 0 with name := direntName filename fun _ => 0 }
    v.addDirent env dirname dirent

/-- The entries `.` and `..` of a new directory, over what the buffer held. -/
def dotDirent (start : Nat) (name : List Char) (high low : Nat) : FatDirent :=
  { FatDirent.ofBuffer env.sector start with
    name := padSpaces 11 name
    attributes := direntDirectory
    firstClusterHigh := high
    firstClusterLow := low
    lastModificationDate := env.fatDate
    lastModificationTime := env.fatTime
    creationDate := env.fatDate
    creationTime := env.fatTime }

def dotSector (freeCluster : Nat) (parent : Option DirentRef) : Buffer :=
  let (high, low) := match parent with
    | none => (0, 0)
    | some ref => (ref.dirent.firstClusterHigh, ref.dirent.firstClusterLow)
  let buffer := env.sector.copy 0
    (dotDirent env 0 ['.'] (freeCluster / 2 ^ 16 % 2 ^ 16) (freeCluster % 2 ^ 16)).toBytes
  let buffer := Buffer.copy buffer 32 (dotDirent env 32 ['.', '.'] high low).toBytes
  Buffer.copy buffer 64 [0]

/-- `fat_create_directory` -/
def createDirectory (path : List Char) : Option (Int × FatData) := do
  let npath ← normalizeInto 512 path
  if v.readOnly then some (eRofs, v)
  else match ← v.lookupPath env.fuel env.junk npath with
  | .ok _ => some (eExist, v)
  | .error _ =>
    let (freeCluster, v) := v.computeFreeCluster
    if freeCluster = 0 then some (eNospc, v)
    else
      let v ← v.writeFat env freeCluster clusterChainEnd
      let v := v.clearCluster freeCluster
      let (dirname, filename) ← separateDirnameFilename npath
      let dirent := { newFatDirent env direntDirectory freeCluster with
        name := direntName filename fun _ => 0 }
      let (res, v) ← v.addDirent env dirname dirent
      if res < 0 then some (res, v)
      else
        let parent ← v.getDirentRef env.fuel env.junk dirname
        let (res, disk) := v.backing.writeSectors (v.getFirstClusterSector freeCluster)
          (dotSector env freeCluster parent) 1
        some (if res < 0 then res else 0, { v with backing := disk })

/-- `fat_rename` -/
def rename (oldPath newPath : List Char) : Option (Int × FatData) :=
  if v.readOnly then some (eRofs, v)
  else do
    let oldNpath ← normalizeInto 4096 oldPath
    let newNpath ← normalizeInto 4096 newPath
    match ← v.getDirentRef env.fuel env.junk oldNpath with
    | none => some (eNoent, v)
    | some oldRef =>
      let (res, v) ← match ← v.lookupPath env.fuel env.junk newNpath with
        | .ok _ => v.delete env newNpath
        | .error _ => some (0, v)
      if res < 0 then some (res, v)
      else
        let (newDirname, newFilename) ← separateDirnameFilename newNpath
        let dirent := { oldRef.dirent with name := direntName newFilename env.name }
        let (res, v) ← v.addDirent env newDirname dirent
        if res ≠ 0 then some (res, v) else some (0, v.markDeleted env oldRef)

end FatData

namespace FatData

variable (v : FatData) (env : FatEnv)

def writeBack (handle : Nat) (dirent : FatDirent) : Option FatData :=
  let offset := handle % 2 ^ 32
  if offset + 32 ≤ 512 then
    some (v.patchSector env (handle / 2 ^ 32 % 2 ^ 32) offset dirent.toBytes)
  else none

/-- Where `fat_write_to_file` is in the chain of a file. -/
structure Tail where
  fs : FatData
  previousCluster : Nat
  currentCluster : Nat

/-- A new cluster behind the last one of a chain, without its contents; the error when
there is none. -/
def growChain (tail : Tail) : Option (Except (Int × FatData) Tail) :=
  let (freeCluster, v) := tail.fs.computeFreeCluster
  if freeCluster = 0 then some (.error (eNospc, v))
  else do
    let v ← v.writeFat env tail.previousCluster (freeCluster % 2 ^ 28)
    let v ← v.writeFat env freeCluster clusterChainEnd
    some (.ok { tail with fs := v, currentCluster := freeCluster })

/-- A new cluster of zeros behind the last one of a chain. -/
def growChainCleared (tail : Tail) : Option (Except (Int × FatData) Tail) :=
  let (freeCluster, v) := tail.fs.computeFreeCluster
  if freeCluster = 0 then some (.error (eNospc, v))
  else
    let (res, disk) := v.backing.writeSectors (v.getFirstClusterSector freeCluster)
      (fun _ => 0) v.bpb.sectorsPerCluster
    let v := { v with backing := disk }
    if res < 0 then some (.error (res, v))
    else do
      let v ← v.writeFat env tail.previousCluster (freeCluster % 2 ^ 28)
      let v ← v.writeFat env freeCluster clusterChainEnd
      some (.ok { tail with fs := v, currentCluster := freeCluster })

def followChain (tail : Tail) : Option Tail := do
  let next ← tail.fs.nextCluster tail.currentCluster
  some { tail with previousCluster := tail.currentCluster, currentCluster := next }

/-- A round of the loop of `fat_write_to_file` that skips to the offset. -/
def skipRound (at_ : Tail × Nat) :
    Option ((Tail × Nat) ⊕ Except (Int × FatData) (Tail × Nat)) :=
  match at_ with
  | (tail, offset) =>
    if offset < tail.fs.bytesPerCluster then some (.inr (.ok (tail, offset)))
    else if clusterChainEnd ≤ tail.currentCluster then do
      match ← growChainCleared env tail with
      | .error failed => some (.inr (.error failed))
      | .ok tail => some (.inl (tail, offset - tail.fs.bytesPerCluster))
    else do
      let tail ← followChain tail
      some (.inl (tail, offset - tail.fs.bytesPerCluster))

/-- The cluster that a round of the writing loop fills, before it is filled. -/
def clusterToFill (tail : Tail) (clusterOffset left : Nat) : Except Int Buffer :=
  let v := tail.fs
  let junk := env.junk tail.currentCluster
  if clusterOffset ≠ 0 then
    match v.backing.readSectors (v.getFirstClusterSector tail.currentCluster)
      v.bpb.sectorsPerCluster junk with
    | (res, buffer) => if res < 0 then .error res else .ok buffer
  else if left < v.bpb.sectorsPerCluster * 512 then
    .ok (Buffer.clear junk 0 (v.bpb.sectorsPerCluster * 512))
  else .ok junk

/-- A round of the loop of `fat_write_to_file` that writes, for what is left to write. -/
def writeRound (at_ : Tail × Nat × List UInt8) :
    Option ((Tail × Nat × List UInt8) ⊕ Except (Int × FatData) FatData) :=
  match at_ with
  | (tail, clusterOffset, left) =>
    if left = [] then some (.inr (.ok tail.fs))
    else do
      match ← if clusterChainEnd ≤ tail.currentCluster then growChain env tail
        else some (.ok tail) with
      | .error failed => some (.inr (.error failed))
      | .ok tail =>
        match clusterToFill env tail clusterOffset left.length with
        | .error res => some (.inr (.error (res, tail.fs)))
        | .ok buffer =>
          let count := min (tail.fs.bytesPerCluster - clusterOffset) left.length
          let fs := tail.fs.writeSectors (tail.fs.getFirstClusterSector tail.currentCluster)
            (buffer.copy clusterOffset (left.take count)) tail.fs.bpb.sectorsPerCluster
          let tail := { tail with fs := fs }
          let left := left.drop count
          if left = [] then some (.inl (tail, clusterOffset + count, left))
          else
            let tail ← followChain tail
            some (.inl (tail, 0, left))

def firstTail (dirent : FatDirent) : Option (FatDirent × Tail) :=
  if dirent.firstClusterLow = 0 then do
    let (freeCluster, v) := v.computeFreeCluster
    let v ← v.writeFat env freeCluster clusterChainEnd
    some ({ dirent with
      firstClusterLow := freeCluster % 2 ^ 16
      firstClusterHigh := freeCluster / 2 ^ 16 % 2 ^ 16 }, ⟨v, 0, freeCluster⟩)
  else some (dirent, ⟨v, 0, dirent.firstCluster⟩)

/-- `fat_write_to_file` -/
def writeToFile (handle : Nat) (buffer : List UInt8) (offset : Nat) : Option (Int × FatData) :=
  if v.readOnly then some (eRofs, v)
  else
    let dirent := v.readDirent env.sector handle
    if dirent.firstByte = direntDeleted ∨ dirent.firstByte = direntEnd then some (eNoent, v)
    else do
      let fileSize := dirent.fileSize
      let (dirent, tail) ← v.firstTail env dirent
      match ← runLoop (skipRound env) env.fuel (tail, offset) with
      | .error failed => some failed
      | .ok (tail, clusterOffset) =>
        match ← runLoop (writeRound env) env.fuel (tail, clusterOffset, buffer) with
        | .error failed => some failed
        | .ok v =>
          let last := (offset + buffer.length) % 2 ^ 64
          let dirent := { dirent with
            fileSize := if fileSize < last then last % 2 ^ 32 else fileSize
            lastModificationDate := env.fatDate
            lastModificationTime := env.fatTime }
          let v ← v.writeBack env handle dirent
          some (buffer.length, v)

/-- The last cluster of a chain, by the whole entries of the table. -/
def lastRound (cluster : Nat) : Option (Nat ⊕ Nat) := do
  let next ← v.readFat cluster
  some (if clusterChainEnd ≤ next then .inr cluster else .inl next)

/-- The loop of `fat_truncate` that adds clusters. -/
def extendChain : Nat → FatData → Nat → Option (Except (Int × FatData) (FatData × Nat))
  | 0, v, lastCluster => some (.ok (v, lastCluster))
  | difference + 1, v, lastCluster =>
    let (freeCluster, v) := v.computeFreeCluster
    if freeCluster = 0 then some (.error (eNospc, v))
    else
      let (res, disk) := v.backing.writeSectors (v.getFirstClusterSector freeCluster)
        (fun _ => 0) v.bpb.sectorsPerCluster
      let v := { v with backing := disk }
      if res < 0 then some (.error (res, v))
      else do
        let v ← v.writeFat env lastCluster (freeCluster % 2 ^ 28)
        extendChain difference v freeCluster

/-- The first cluster that `fat_truncate` gives an empty file, with the clusters that
are still to be added. -/
def firstCleared (dirent : FatDirent) (difference : Nat) :
    Option (Except (Int × FatData) (FatData × FatDirent × Nat)) :=
  if dirent.firstClusterHigh = 0 ∧ dirent.firstClusterLow = 0 then
    let (freeCluster, v) := v.computeFreeCluster
    if freeCluster = 0 then some (.error (eNospc, v))
    else
      let (res, disk) := v.backing.writeSectors (v.getFirstClusterSector freeCluster)
        (fun _ => 0) v.bpb.sectorsPerCluster
      let v := { v with backing := disk }
      if res < 0 then some (.error (res, v))
      else do
        let v ← v.writeFat env freeCluster clusterChainEnd
        some (.ok (v, { dirent with
          firstClusterHigh := freeCluster / 2 ^ 16
          firstClusterLow := freeCluster % 2 ^ 16 }, difference - 1))
  else some (.ok (v, dirent, difference))

/-- `fat_truncate` where clusters are added. -/
def growFile (dirent : FatDirent) (difference : Nat) :
    Option (Except (Int × FatData) (FatData × FatDirent)) := do
  match ← v.firstCleared env dirent difference with
  | .error failed => some (.error failed)
  | .ok (v, dirent, difference) =>
    let lastCluster ← runLoop v.lastRound env.fuel dirent.firstCluster
    match ← extendChain env difference v lastCluster with
    | .error failed => some (.error failed)
    | .ok (v, lastCluster) =>
      let v ← v.writeFat env lastCluster clusterChainEnd
      some (.ok (v, dirent))

/-- `last_clusters` with the first cluster of a file in it.  The array is on the stack. -/
def ringStart (stack size cluster : Nat) : Option ((Nat → Nat) × Nat) :=
  if stack < 4 * size then none else some (fun i => if i = 0 then cluster else 0, 0)

/-- A round of the loop that keeps the last clusters of a chain in a ring. -/
def ringRound (size : Nat) (at_ : (Nat → Nat) × Nat) :
    Option (((Nat → Nat) × Nat) ⊕ ((Nat → Nat) × Nat)) :=
  match at_ with
  | (lastClusters, head) => do
    let next ← v.readFat (lastClusters head)
    if clusterChainEnd ≤ next then some (.inr (lastClusters, head))
    else
      let head := (head + 1) % size
      some (.inl (fun i => if i = head then next else lastClusters i, head))

/-- The loop of `fat_truncate` that frees clusters, from the last one on. -/
def freeRing (size : Nat) (lastClusters : Nat → Nat) : Nat → FatData → Nat → Option FatData
  | 0, v, _ => some v
  | difference + 1, v, head => do
    let v ← v.writeFat env (lastClusters head) 0
    freeRing size lastClusters difference v ((head + (size - 1)) % size)

/-- What remains of the new last cluster, cleared. -/
def clearRest (cluster rest : Nat) : FatData :=
  let size := v.bpb.sectorsPerCluster * 512
  let buffer := v.readCluster cluster (env.junk cluster)
  v.writeSectors (v.getFirstClusterSector cluster) (buffer.clear rest (size - rest))
    v.bpb.sectorsPerCluster

/-- `fat_truncate` where clusters are freed. -/
def shrinkFile (dirent : FatDirent) (difference newSize : Nat) :
    Option (FatData × FatDirent) := do
  let size := difference + 1
  let start ← ringStart env.stack size dirent.firstCluster
  let (lastClusters, head) ← runLoop (v.ringRound size) env.fuel start
  let newEnd := lastClusters ((head + 1) % size)
  let rest := newSize % (v.bpb.sectorsPerCluster * 512)
  let (v, dirent) ←
    if newEnd ≠ 0 then do
      let v ← v.writeFat env newEnd clusterChainEnd
      if rest = 0 then some (v, dirent)
      else if env.stack < 4 * size + v.bpb.sectorsPerCluster * 512 then none
      else some (v.clearRest env newEnd rest, dirent)
    else some (v, { dirent with firstClusterHigh := 0, firstClusterLow := 0 })
  let v ← freeRing env size lastClusters difference v head
  some (v, dirent)

/-- `fat_truncate` -/
def truncate (handle newSize : Nat) : Option (Int × FatData) :=
  if v.readOnly then some (eRofs, v)
  else
    let dirent := v.readDirent env.sector handle
    if dirent.firstByte = direntDeleted ∨ dirent.firstByte = direntEnd then some (eNoent, v)
    else do
      let size := v.bpb.sectorsPerCluster * 512
      let original := (dirent.fileSize + size - 1) % 2 ^ 32 / size
      let required := (newSize + size - 1) % 2 ^ 64 / size
      let dirent := { dirent with
        fileSize := newSize % 2 ^ 32
        lastModificationDate := env.fatDate
        lastModificationTime := env.fatTime }
      match ←
        if original < required then v.growFile env dirent (required - original)
        else if required < original then
          (v.shrinkFile env dirent (original - required) newSize).map .ok
        else some (.ok (v, dirent)) with
      | .error failed => some failed
      | .ok (v, dirent) =>
        let v ← v.writeBack env handle dirent
        some (0, v)

/-- `fat_stat`: the type and the size of an entry. -/
def stat (entry : Buffer) (handle : Nat) : Except Int (DirentType × Nat) :=
  let dirent := v.readDirent entry handle
  if dirent.firstByte = direntDeleted ∨ dirent.firstByte = direntEnd then .error eNoent
  else .ok (if dirent.isDirectory then .dir else .file, dirent.fileSize)

end FatData

/-- `fat_mount` on a device, when the table can be read.  The room for the table is
counted in 32 bits. -/
def fatMount (backing : Disk) (junk : Buffer) (readOnly : Bool) : Option FatData :=
  let bpb := Bpb.ofBuffer (backing.readSectors 0 1 junk).2
  let nextFreeCluster := (backing.readSectors bpb.fsInfo 1 junk).2.u32 492
  let fatSize := bpb.fatSectors
  let dataSectors := (((bpb.totalSectors : Int) -
    (bpb.reservedSectors + bpb.numFats * fatSize)) % 2 ^ 32).toNat
  if bpb.sectorsPerCluster = 0 then none
  else
    let maxClusters := dataSectors / bpb.sectorsPerCluster
    let room := fatSize * bpb.bytesPerSector % 2 ^ 32
    match backing.readSectors bpb.reservedSectors fatSize junk with
    | (res, table) =>
      if res < 0 then none
      else if room < 512 * fatSize then none
      else some
        { backing := backing
          bpb := bpb
          fat := (List.range (room / 4)).map fun i =>
            (table.u32 (4 * i)).toUInt32
          readOnly := readOnly
          fatSize := fatSize
          lastFree := if 2 ≤ nextFreeCluster ∧ nextFreeCluster < maxClusters then nextFreeCluster
            else 2 }

end GlitchedOS
