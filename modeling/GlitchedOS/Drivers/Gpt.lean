/-
The partition table of a GPT disk.  `gpt_detect_partitions` takes as many whole entries
from each sector as fit into it, and registers a partition for each used entry.
-/
import GlitchedOS.Drivers.Partitions
import Mathlib.Data.List.Range

namespace GlitchedOS

/-- A device with sectors of 512 bytes: the bytes of each sector, and what `read_sectors`
returns for a first sector and a number of sectors. -/
structure GptDisk where
  byte : BitVec 64 → Nat → UInt8
  readResult : BitVec 64 → Nat → Int

/-- The device that is scanned, and `partition_driver_index`. -/
structure GptDevice where
  device : BlockDevice
  name : List Char
  driverIndex : UInt32

/-- A partition as it is handed to `register_block_device`. -/
structure PartitionDevice where
  device : BlockDevice
  name : List Char
deriving DecidableEq, Repr

/-- An integer of so many bytes, least significant first. -/
def leWord (byte : Nat → UInt8) : Nat → Nat → Nat
  | _, 0 => 0
  | offset, width + 1 => (byte offset).toNat + 256 * leWord byte (offset + 1) width

/-- The fields of `gpt_header_t` that are read. -/
structure GptHeader where
  signature : List UInt8
  partitionEntryLba : BitVec 64
  numPartitionEntries : Nat
  sizeOfPartitionEntry : Nat
deriving DecidableEq, Repr

def GptHeader.ofBytes (byte : Nat → UInt8) : GptHeader where
  signature := (List.range 8).map byte
  partitionEntryLba := BitVec.ofNat 64 (leWord byte 72 8)
  numPartitionEntries := leWord byte 80 4
  sizeOfPartitionEntry := leWord byte 84 4

/-- `"EFI PART"` -/
def efiPart : List UInt8 := [0x45, 0x46, 0x49, 0x20, 0x50, 0x41, 0x52, 0x54]

/-- The fields of `gpt_entry_t` that are read. -/
structure GptEntry where
  partitionTypeGuid : List UInt8
  startingLba : Nat
  endingLba : Nat
deriving DecidableEq, Repr

namespace GptEntry

def ofBytes (byte : Nat → UInt8) : GptEntry where
  partitionTypeGuid := (List.range 16).map byte
  startingLba := leWord byte 32 8
  endingLba := leWord byte 40 8

def empty (entry : GptEntry) : Bool := entry.partitionTypeGuid.all (· == 0)

/-- The entry has no first sector, or ends before it. -/
def noSectors (entry : GptEntry) : Bool :=
  entry.startingLba == 0 || decide (entry.endingLba < entry.startingLba)

def used (entry : GptEntry) : Bool := !entry.empty && !entry.noSectors

/-- How many bytes from its first one on the scan has to look at. -/
def looked (entry : GptEntry) : Nat :=
  if entry.empty then 16 else if entry.startingLba = 0 then 40 else 48

def partition (device : BlockDevice) (entry : GptEntry) : Partition where
  blockdev := device
  start := BitVec.ofNat 64 entry.startingLba
  size := BitVec.ofNat 64 (entry.endingLba - entry.startingLba + 1)

end GptEntry

/-- The name of a partition: that of the device, with a `p` after a digit, and the number
of the partition. -/
def partitionName (name : List Char) (number : Nat) : List Char :=
  let base := name.take 244
  (if base.getLast?.any Char.isDigit then base ++ ['p'] else base) ++ Nat.toDigits 10 number

/-- An entry the scan has looked at: the sector in the buffer, where in the buffer the
entry starts, and one past the last byte looked at. -/
structure Examined where
  lba : BitVec 64
  offset : Nat
  reach : Nat
deriving DecidableEq, Repr

/-- Where a scan stands: `partitions`, of which `partition_count` are in use, the devices
registered, `found`, and the entries looked at. -/
structure GptScan where
  partitions : List Partition
  devices : List PartitionDevice
  found : Nat
  examined : List Examined
deriving DecidableEq, Repr

/-- The early return of a scan, or the state after a round. -/
abbrev GptRound : Type := Except (Int × GptScan) GptScan

/-- The body of the inner loop for an entry that starts at `offset` of the buffer. -/
def takeEntry (dev : GptDevice) (lba : BitVec 64) (offset : Nat) (entry : GptEntry)
    (s : GptScan) : GptRound :=
  let s := { s with examined := s.examined ++ [⟨lba, offset, offset + entry.looked⟩] }
  if entry.empty then .ok s
  else if entry.noSectors then .ok s
  else if 256 ≤ s.partitions.length then .error (eNospc, s)
  else .ok
    { s with
      partitions := s.partitions ++ [entry.partition dev.device]
      devices := s.devices ++ [⟨⟨dev.driverIndex, .ofNat s.partitions.length⟩,
        partitionName dev.name (s.found + 1)⟩]
      found := s.found + 1 }

/-- `entry_buffer` with a sector read into it, and the stack behind it. -/
def entryBuffer (sector behind : Nat → UInt8) : Nat → UInt8 := fun b =>
  if b < 512 then sector b else behind b

/-- `entries_this_sector` -/
def entriesThisSector (entriesPerSector total sector : Nat) : Nat :=
  if total < (sector + 1) * entriesPerSector % 2 ^ 32 then
    (total + 2 ^ 32 - sector * entriesPerSector % 2 ^ 32) % 2 ^ 32
  else entriesPerSector

/-- The body of the outer loop. -/
def scanSector (disk : GptDisk) (dev : GptDevice) (behind : Nat → UInt8) (header : GptHeader)
    (s : GptScan) (sector : Nat) : GptRound :=
  let size := header.sizeOfPartitionEntry
  let lba := header.partitionEntryLba + BitVec.ofNat 64 sector
  if disk.readResult lba 1 < 0 then .error (disk.readResult lba 1, s)
  else
    let buffer := entryBuffer (disk.byte lba) behind
    (List.range (entriesThisSector (512 / size) header.numPartitionEntries sector)).foldlM
      (fun s index => takeEntry dev lba (index * size)
        (.ofBytes fun b => buffer (index * size + b)) s) s

/-- `has_gpt`, as a truth value: an error of the driver counts as true. -/
def hasGpt (disk : GptDisk) : Bool :=
  decide (disk.readResult 0 2 < 0) || (GptHeader.ofBytes (disk.byte 1)).signature == efiPart

/-- `gpt_detect_partitions`, with the partitions known before. -/
def gptDetectPartitions (disk : GptDisk) (dev : GptDevice) (behind : Nat → UInt8)
    (partitions : List Partition) : Int × GptScan :=
  let s : GptScan := ⟨partitions, [], 0, []⟩
  let header := GptHeader.ofBytes (disk.byte 1)
  let total := header.numPartitionEntries
  let size := header.sizeOfPartitionEntry
  if hasGpt disk = false then (0, s)
  else if disk.readResult 1 1 < 0 then (disk.readResult 1 1, s)
  else if header.signature ≠ efiPart then (0, s)
  else if size = 0 ∨ total = 0 then (0, s)
  else if 512 / size = 0 then (0, s)
  else
    let sectors := (total + 512 / size - 1) % 2 ^ 32 / (512 / size)
    match (List.range sectors).foldlM (scanSector disk dev behind header) s with
    | .ok s => (s.found, s)
    | .error r => r

/-! ### What a table says -/

/-- Byte `offset` of the entry array. -/
def arrayByte (disk : GptDisk) (lba : BitVec 64) (offset : Nat) : UInt8 :=
  disk.byte (lba + BitVec.ofNat 64 (offset / 512)) (offset % 512)

/-- Entry `k` of the table. -/
def tableEntry (disk : GptDisk) (header : GptHeader) (k : Nat) : GptEntry :=
  .ofBytes fun b =>
    arrayByte disk header.partitionEntryLba (k * header.sizeOfPartitionEntry + b)

/-- The entries of the first `n` that describe a partition. -/
def usedEntries (entry : Nat → GptEntry) (n : Nat) : List Nat :=
  (List.range n).filter fun k => (entry k).used

/-- How many of the first `n` entries are examined when there is room for so many
partitions more: all, or those up to the first one that finds no room. -/
def examinedEntries (entry : Nat → GptEntry) (n room : Nat) : Nat :=
  match (usedEntries entry n)[room]? with
  | none => n
  | some k => k + 1

/-- The scan has read the table it was given.  It has examined the entries in order, each
from its place in the entry array and inside the buffer, until there was no room for a
partition, and it has registered the used ones. -/
structure ReadsTable (disk : GptDisk) (dev : GptDevice) (known : List Partition)
    (h : GptHeader) (r : Int × GptScan) : Prop where
  inside : ∀ e ∈ r.2.examined, e.reach ≤ 512
  examined : r.2.examined.map (fun e => (e.lba, e.offset)) =
    (List.range (examinedEntries (tableEntry disk h) h.numPartitionEntries
      (256 - known.length))).map fun k =>
        (h.partitionEntryLba + BitVec.ofNat 64 (k * h.sizeOfPartitionEntry / 512),
          k * h.sizeOfPartitionEntry % 512)
  partitions : r.2.partitions = known ++
    ((usedEntries (tableEntry disk h) h.numPartitionEntries).take
      (256 - known.length)).map fun k => (tableEntry disk h k).partition dev.device
  devices : r.2.devices = (List.range
      ((usedEntries (tableEntry disk h) h.numPartitionEntries).take
        (256 - known.length)).length).map fun i =>
      ⟨⟨dev.driverIndex, .ofNat (known.length + i)⟩, partitionName dev.name (i + 1)⟩
  result : r.1 =
    if (usedEntries (tableEntry disk h) h.numPartitionEntries).length ≤
        256 - known.length then
      ((usedEntries (tableEntry disk h) h.numPartitionEntries).length : Int)
    else eNospc

/-- A disk without read errors that carries the header `h`. -/
structure TableAt (disk : GptDisk) (h : GptHeader) : Prop where
  reads : ∀ lba count, 0 ≤ disk.readResult lba count
  header : GptHeader.ofBytes (disk.byte 1) = h
  signature : h.signature = efiPart

/-! ### Entries one after another -/

section Entries

variable (dev : GptDevice) (lba : Nat → BitVec 64) (offset : Nat → Nat)
  (entry : Nat → GptEntry) (known : List Partition)

theorem usedEntries_succ (n : Nat) :
    usedEntries entry (n + 1) =
      usedEntries entry n ++ if (entry n).used then [n] else [] := by
  rw [usedEntries, List.range_succ, List.filter_append]
  congr 1
  rw [List.filter_cons]
  rfl

/-- The state after the first `n` entries, whatever has happened to them. -/
def scannedState (n : Nat) : GptScan :=
  let registered := (usedEntries entry n).take (256 - known.length)
  { partitions := known ++ registered.map fun k => (entry k).partition dev.device
    devices := (List.range registered.length).map fun i =>
      ⟨⟨dev.driverIndex, .ofNat (known.length + i)⟩, partitionName dev.name (i + 1)⟩
    found := registered.length
    examined := (List.range (examinedEntries entry n (256 - known.length))).map fun k =>
      ⟨lba k, offset k, offset k + (entry k).looked⟩ }

/-- What the scan of the first `n` entries comes to. -/
def scanned (n : Nat) : GptRound :=
  if (usedEntries entry n).length ≤ 256 - known.length then
    .ok (scannedState dev lba offset entry known n)
  else .error (eNospc, scannedState dev lba offset entry known n)

/-- The state with one more entry looked at. -/
def GptScan.examine (s : GptScan) (lba : BitVec 64) (offset : Nat) (entry : GptEntry) :
    GptScan :=
  { s with examined := s.examined ++ [⟨lba, offset, offset + entry.looked⟩] }

theorem takeEntry_of_not_used {e : GptEntry} (h : e.used = false) (b : BitVec 64) (o : Nat)
    (s : GptScan) : takeEntry dev b o e s = .ok (s.examine b o e) := by
  rw [GptEntry.used] at h
  rw [takeEntry]
  cases hempty : e.empty with
  | true => rfl
  | false =>
      have hnone : e.noSectors = true := by simpa [hempty] using h
      simp [hnone, GptScan.examine]

theorem takeEntry_of_used {e : GptEntry} (h : e.used = true) (b : BitVec 64) (o : Nat)
    (s : GptScan) : takeEntry dev b o e s =
      if 256 ≤ s.partitions.length then .error (eNospc, s.examine b o e)
      else .ok
        { s.examine b o e with
          partitions := s.partitions ++ [e.partition dev.device]
          devices := s.devices ++ [⟨⟨dev.driverIndex, .ofNat s.partitions.length⟩,
            partitionName dev.name (s.found + 1)⟩]
          found := s.found + 1 } := by
  rw [GptEntry.used, Bool.and_eq_true, Bool.not_eq_true', Bool.not_eq_true'] at h
  simp [takeEntry, h.1, h.2, GptScan.examine]

variable {entry} {known} {n : Nat}

theorem examinedEntries_of_le {room : Nat} (h : (usedEntries entry n).length ≤ room) :
    examinedEntries entry n room = n := by
  rw [examinedEntries, List.getElem?_eq_none h]

theorem scannedState_of_gt (h : 256 - known.length < (usedEntries entry n).length) :
    scannedState dev lba offset entry known (n + 1) =
      scannedState dev lba offset entry known n := by
  have htake : (usedEntries entry (n + 1)).take (256 - known.length) =
      (usedEntries entry n).take (256 - known.length) := by
    rw [usedEntries_succ, List.take_append_of_le_length (Nat.le_of_lt h)]
  have hexamined : examinedEntries entry (n + 1) (256 - known.length) =
      examinedEntries entry n (256 - known.length) := by
    rw [examinedEntries, examinedEntries, usedEntries_succ, List.getElem?_append_left h]
    rw [List.getElem?_eq_getElem h]
  rw [scannedState, scannedState, htake, hexamined]

theorem scannedState_of_not_used (h : (usedEntries entry n).length ≤ 256 - known.length)
    (hentry : (entry n).used = false) :
    scannedState dev lba offset entry known (n + 1) =
      (scannedState dev lba offset entry known n).examine (lba n) (offset n) (entry n) := by
  have hused : usedEntries entry (n + 1) = usedEntries entry n := by
    rw [usedEntries_succ, hentry]
    exact List.append_nil _
  rw [scannedState, examinedEntries_of_le (hused ▸ h), hused, scannedState,
    examinedEntries_of_le h, List.range_succ, List.map_append]
  rfl

/-- The first used entry that finds no room is examined, and not registered. -/
theorem scannedState_of_full (h : (usedEntries entry n).length = 256 - known.length)
    (hentry : (entry n).used = true) :
    scannedState dev lba offset entry known (n + 1) =
      (scannedState dev lba offset entry known n).examine (lba n) (offset n) (entry n) := by
  have hused : usedEntries entry (n + 1) = usedEntries entry n ++ [n] := by
    rw [usedEntries_succ, hentry]
    rfl
  have hexamined : examinedEntries entry (n + 1) (256 - known.length) = n + 1 := by
    rw [examinedEntries, hused, ← h, List.getElem?_concat_length]
  rw [scannedState, hexamined, hused, ← h, List.take_left', List.range_succ,
    List.map_append, scannedState, h, examinedEntries_of_le h.le, ← h, List.take_length]
  · rfl
  · rfl

theorem scannedState_of_used (h : (usedEntries entry n).length < 256 - known.length)
    (hentry : (entry n).used = true) :
    .ok (scannedState dev lba offset entry known (n + 1)) =
      takeEntry dev (lba n) (offset n) (entry n)
        (scannedState dev lba offset entry known n) := by
  have hused : usedEntries entry (n + 1) = usedEntries entry n ++ [n] := by
    rw [usedEntries_succ, hentry]
    rfl
  have hlength : (usedEntries entry (n + 1)).length ≤ 256 - known.length := by
    rw [hused, List.length_append]
    exact h
  have htake : (usedEntries entry n).take (256 - known.length) = usedEntries entry n :=
    List.take_of_length_le h.le
  have hcount : (scannedState dev lba offset entry known n).partitions.length =
      known.length + (usedEntries entry n).length := by
    rw [scannedState, htake, List.length_append, List.length_map]
  rw [takeEntry_of_used dev hentry, if_neg (by omega), hcount]
  rw [scannedState, examinedEntries_of_le hlength, List.take_of_length_le hlength, hused,
    scannedState, examinedEntries_of_le h.le, htake]
  simp [GptScan.examine, List.range_succ]

/-- The entries one after another come to what the list of used entries says. -/
theorem foldlM_takeEntry (hknown : known.length ≤ 256) (n : Nat) :
    (List.range n).foldlM (fun s k => takeEntry dev (lba k) (offset k) (entry k) s)
        ⟨known, [], 0, []⟩ = scanned dev lba offset entry known n := by
  induction n with
  | zero => simp [scanned, scannedState, usedEntries, examinedEntries, pure, Except.pure]
  | succ n ih =>
      rw [List.range_succ, List.foldlM_append, ih, scanned]
      simp only [List.foldlM_cons, List.foldlM_nil, bind_pure]
      by_cases hfits : (usedEntries entry n).length ≤ 256 - known.length
      · rw [if_pos hfits, scanned, usedEntries_succ]
        change takeEntry dev (lba n) (offset n) (entry n) _ = _
        cases hentry : (entry n).used with
        | false =>
            rw [takeEntry_of_not_used dev hentry, ← scannedState_of_not_used dev lba offset
              hfits hentry, if_neg Bool.false_ne_true, List.append_nil, if_pos hfits]
        | true =>
            rw [if_pos rfl, List.length_append, List.length_singleton]
            rcases Nat.eq_or_lt_of_le hfits with hfull | hroom
            · have hcount : 256 ≤
                  (scannedState dev lba offset entry known n).partitions.length := by
                rw [scannedState, List.length_append, List.length_map,
                  List.take_of_length_le hfits]
                omega
              rw [takeEntry_of_used dev hentry, if_pos hcount, if_neg (by omega),
                scannedState_of_full dev lba offset hfull hentry]
            · rw [← scannedState_of_used dev lba offset hroom hentry,
                if_pos (Nat.succ_le_of_lt hroom)]
      · rw [if_neg hfits, scanned, if_neg, scannedState_of_gt dev lba offset
          (Nat.lt_of_not_le hfits)]
        · rfl
        · rw [usedEntries_succ, List.length_append]
          omega

end Entries

/-! ### Sector after sector -/

theorem foldlM_congr {σ ε : Type} {f g : σ → Nat → Except ε σ} :
    ∀ {l : List Nat} {s : σ}, (∀ s, ∀ i ∈ l, f s i = g s i) → l.foldlM f s = l.foldlM g s
  | [], _, _ => rfl
  | i :: rest, s, h => by
      rw [List.foldlM_cons, List.foldlM_cons, h s i List.mem_cons_self]
      congr 1
      funext s'
      exact foldlM_congr fun s j hj => h s j (List.mem_cons_of_mem i hj)

/-- A loop over `n` items in blocks of `size`, the last one cut short, takes the items one
after another. -/
theorem foldlM_blocks {σ ε : Type} (f : σ → Nat → Nat → Except ε σ) {size : Nat}
    (hsize : 0 < size) (n : Nat) (s : σ) (m : Nat) :
    (List.range m).foldlM (fun s j =>
        (List.range (min size (n - j * size))).foldlM (fun s i => f s j i) s) s =
      (List.range (min n (m * size))).foldlM (fun s k => f s (k / size) (k % size)) s := by
  induction m with
  | zero => simp
  | succ m ih =>
      rw [List.range_succ, List.foldlM_append, ih, Nat.succ_mul]
      simp only [List.foldlM_cons, List.foldlM_nil, bind_pure]
      rcases Nat.le_total n (m * size) with hdone | hmore
      · rw [Nat.sub_eq_zero_of_le hdone, Nat.min_zero, Nat.min_eq_left hdone,
          Nat.min_eq_left (by omega)]
        simp only [List.range_zero, List.foldlM_nil, bind_pure]
      · have hsplit : min n (m * size + size) = m * size + min size (n - m * size) := by
          omega
        rw [hsplit, List.range_add, List.foldlM_append, Nat.min_eq_right hmore]
        congr 1
        funext s'
        rw [List.foldlM_map]
        apply foldlM_congr
        intro s i hi
        have hlt : i < size := by
          have := List.mem_range.mp hi
          omega
        rw [Nat.mul_comm m size, Nat.mul_add_div hsize, Nat.div_eq_of_lt hlt, Nat.mul_add_mod,
          Nat.mod_eq_of_lt hlt, Nat.add_zero]

section Sectors

variable {disk : GptDisk} {h : GptHeader} {known : List Partition}

/-- The entry at place `k` of the scan. -/
def bufferEntry (disk : GptDisk) (behind : Nat → UInt8) (h : GptHeader) (k : Nat) :
    GptEntry :=
  let count := 512 / h.sizeOfPartitionEntry
  .ofBytes fun b => entryBuffer
    (disk.byte (h.partitionEntryLba + BitVec.ofNat 64 (k / count))) behind
      (k % count * h.sizeOfPartitionEntry + b)

theorem entriesThisSector_eq {count total sector : Nat} (hsector : sector * count < total)
    (hwrap : total + count ≤ 2 ^ 32) :
    entriesThisSector count total sector = min count (total - sector * count) := by
  have hnext : (sector + 1) * count = sector * count + count := Nat.succ_mul _ _
  rw [entriesThisSector, hnext, Nat.mod_eq_of_lt (a := sector * count) (by omega),
    Nat.mod_eq_of_lt (a := sector * count + count) (by omega)]
  split <;> omega

/-- Past the checks of the header, the scan is its loop over the sectors. -/
theorem gptDetectPartitions_loop (dev : GptDevice) (behind : Nat → UInt8)
    (hcarries : TableAt disk h) (hsize : 1 ≤ h.sizeOfPartitionEntry)
    (hsize' : h.sizeOfPartitionEntry ≤ 512) (htotal : 1 ≤ h.numPartitionEntries) :
    gptDetectPartitions disk dev behind known =
      match (List.range ((h.numPartitionEntries + 512 / h.sizeOfPartitionEntry - 1) % 2 ^ 32 /
          (512 / h.sizeOfPartitionEntry))).foldlM (scanSector disk dev behind h)
          ⟨known, [], 0, []⟩ with
      | .ok s => (s.found, s)
      | .error r => r := by
  have hsig : (h.signature == efiPart) = true := by simp [hcarries.signature]
  have hgpt : hasGpt disk = true := by rw [hasGpt, hcarries.header, hsig, Bool.or_true]
  have hpos := Nat.div_pos hsize' hsize
  rw [gptDetectPartitions]
  dsimp only
  rw [hcarries.header, hgpt, if_neg Bool.noConfusion,
    if_neg (Int.not_lt.mpr (hcarries.reads 1 1)), if_neg (not_not.mpr hcarries.signature),
    if_neg (by omega), if_neg (Nat.ne_of_gt hpos)]

/-- Where the number of entries does not wrap, the scan takes them one after another. -/
theorem gptDetectPartitions_eq (dev : GptDevice) (behind : Nat → UInt8)
    (hcarries : TableAt disk h) (hsize : 1 ≤ h.sizeOfPartitionEntry)
    (hsize' : h.sizeOfPartitionEntry ≤ 512) (htotal : 1 ≤ h.numPartitionEntries)
    (hwrap : h.numPartitionEntries + 512 / h.sizeOfPartitionEntry ≤ 2 ^ 32)
    (hknown : known.length ≤ 256) :
    gptDetectPartitions disk dev behind known =
      (if (usedEntries (bufferEntry disk behind h) h.numPartitionEntries).length ≤
          256 - known.length then
        ((usedEntries (bufferEntry disk behind h) h.numPartitionEntries).length : Int)
      else eNospc,
      scannedState dev
        (fun k => h.partitionEntryLba +
          BitVec.ofNat 64 (k / (512 / h.sizeOfPartitionEntry)))
        (fun k => k % (512 / h.sizeOfPartitionEntry) * h.sizeOfPartitionEntry)
        (bufferEntry disk behind h) known h.numPartitionEntries) := by
  rw [gptDetectPartitions_loop dev behind hcarries hsize hsize' htotal]
  set size := h.sizeOfPartitionEntry with hsizeEq
  set total := h.numPartitionEntries with htotalEq
  set count := 512 / size with hcount
  have hpos : 0 < count := Nat.div_pos hsize' hsize
  set sectors := (total + count - 1) / count with hsectors
  have hlast : ∀ j < sectors, j * count < total := by
    intro j hj
    have := (Nat.le_div_iff_mul_le hpos).mp (Nat.succ_le_of_lt hj)
    rw [Nat.succ_mul] at this
    omega
  have hall : min total (sectors * count) = total := by
    have hdiv := Nat.div_add_mod (total + count - 1) count
    have hmod := Nat.mod_lt (total + count - 1) hpos
    rw [← hsectors, Nat.mul_comm] at hdiv
    omega
  have hloop : (List.range sectors).foldlM (scanSector disk dev behind h)
      ⟨known, [], 0, []⟩ = scanned dev
        (fun k => h.partitionEntryLba + BitVec.ofNat 64 (k / count))
        (fun k => k % count * size) (bufferEntry disk behind h) known total := by
    rw [← foldlM_takeEntry dev _ _ hknown]
    have hblocks := foldlM_blocks (fun s j i => takeEntry dev
      (h.partitionEntryLba + BitVec.ofNat 64 j) (i * size)
      (.ofBytes fun b => entryBuffer (disk.byte (h.partitionEntryLba + BitVec.ofNat 64 j))
        behind (i * size + b)) s) hpos total ⟨known, [], 0, []⟩ sectors
    rw [hall] at hblocks
    refine Eq.trans (foldlM_congr fun s j hj => ?_) hblocks
    rw [scanSector]
    dsimp only
    rw [if_neg (Int.not_lt.mpr (hcarries.reads _ _)), ← hsizeEq, ← htotalEq, ← hcount,
      entriesThisSector_eq (hlast j (List.mem_range.mp hj)) hwrap]
  rw [Nat.mod_eq_of_lt (by omega), ← hsectors, hloop, scanned]
  by_cases hfits : (usedEntries (bufferEntry disk behind h) total).length ≤
      256 - known.length
  · simp only [if_pos hfits, scannedState, List.take_of_length_le hfits]
  · simp only [if_neg hfits]

end Sectors

/-! ### Entries where they belong -/

theorem leWord_congr {f g : Nat → UInt8} :
    ∀ {width offset : Nat}, (∀ b, offset ≤ b → b < offset + width → f b = g b) →
      leWord f offset width = leWord g offset width
  | 0, _, _ => rfl
  | width + 1, offset, h => by
      rw [leWord, leWord, h offset (Nat.le_refl _) (by omega),
        leWord_congr fun b hlo hhi => h b (by omega) (by omega)]

theorem GptEntry.ofBytes_congr {f g : Nat → UInt8} (h : ∀ b < 48, f b = g b) :
    GptEntry.ofBytes f = .ofBytes g := by
  have hguid : (List.range 16).map f = (List.range 16).map g := by
    apply List.map_congr_left
    intro b hb
    have := List.mem_range.mp hb
    exact h b (by omega)
  rw [ofBytes, ofBytes, hguid, leWord_congr fun b _ hb => h b (by omega),
    leWord_congr fun b _ hb => h b (by omega)]

theorem GptEntry.looked_le (e : GptEntry) : e.looked ≤ 48 := by
  rw [looked]
  split
  · decide
  · split <;> decide

theorem usedEntries_congr {e e' : Nat → GptEntry} {n : Nat} (h : ∀ k < n, e k = e' k) :
    usedEntries e n = usedEntries e' n := by
  apply List.filter_congr
  intro k hk
  rw [h k (List.mem_range.mp hk)]

theorem examinedEntries_le (e : Nat → GptEntry) (n room : Nat) {k : Nat}
    (hk : k < examinedEntries e n room) : k < n := by
  rw [examinedEntries] at hk
  split at hk
  · exact hk
  · rename_i hlast
    have := List.mem_range.mp (List.mem_of_mem_filter (List.mem_of_getElem? hlast))
    omega

theorem scannedState_congr (dev : GptDevice) (known : List Partition)
    {lba lba' : Nat → BitVec 64} {offset offset' : Nat → Nat} {e e' : Nat → GptEntry} {n : Nat}
    (h : ∀ k < n, lba k = lba' k ∧ offset k = offset' k ∧ e k = e' k) :
    scannedState dev lba offset e known n = scannedState dev lba' offset' e' known n := by
  have hused := usedEntries_congr fun k hk => (h k hk).2.2
  have hpartitions : ((usedEntries e' n).take (256 - known.length)).map
        (fun k => (e k).partition dev.device) =
      ((usedEntries e' n).take (256 - known.length)).map
        (fun k => (e' k).partition dev.device) := by
    apply List.map_congr_left
    intro k hk
    rw [(h k (List.mem_range.mp (List.mem_of_mem_filter (List.mem_of_mem_take hk)))).2.2]
  have hexamined : (List.range (examinedEntries e' n (256 - known.length))).map
        (fun k => Examined.mk (lba k) (offset k) (offset k + (e k).looked)) =
      (List.range (examinedEntries e' n (256 - known.length))).map
        (fun k => Examined.mk (lba' k) (offset' k) (offset' k + (e' k).looked)) := by
    apply List.map_congr_left
    intro k hk
    obtain ⟨hlba, hoffset, hentry⟩ :=
      h k (examinedEntries_le _ _ _ (List.mem_range.mp hk))
    rw [hlba, hoffset, hentry]
  have hcount : examinedEntries e n (256 - known.length) =
      examinedEntries e' n (256 - known.length) := by
    rw [examinedEntries, examinedEntries, hused]
  rw [scannedState, scannedState, hused, hpartitions, hcount, hexamined]

/-- The number of entries does not wrap, no entry crosses into the next sector, and the
last one in a sector can be looked at inside the buffer. -/
def GptFits (size total : Nat) : Prop :=
  total + 512 / size ≤ 2 ^ 32 ∧ (512 % size = 0 ∨ total ≤ 512 / size) ∧
    (min total (512 / size) - 1) * size + 48 ≤ 512

instance (size total : Nat) : Decidable (GptFits size total) :=
  inferInstanceAs (Decidable (_ ∧ _))

/-- The scan finds entry `k` at its place in the entry array. -/
theorem GptFits.place {size total k : Nat} (hfits : GptFits size total) (hsize : 1 ≤ size)
    (hsize' : size ≤ 512) (hk : k < total) :
    k / (512 / size) = k * size / 512 ∧ k % (512 / size) * size = k * size % 512 ∧
      k * size % 512 + 48 ≤ 512 := by
  obtain ⟨-, hwhole, hlast⟩ := hfits
  set count := 512 / size with hcount
  have hmul : count * size ≤ 512 := Nat.div_mul_le_self 512 size
  have hplace : k / count = k * size / 512 ∧ k % count * size = k * size % 512 := by
    rcases hwhole with hwhole | hone
    · have heq : 512 = count * size := (Nat.div_mul_cancel (Nat.dvd_of_mod_eq_zero hwhole)).symm
      rw [heq, Nat.mul_div_mul_right _ _ hsize, Nat.mul_mod_mul_right]
      exact ⟨rfl, rfl⟩
    · have hlt : k < count := Nat.lt_of_lt_of_le hk hone
      have hbytes : k * size < 512 :=
        Nat.lt_of_lt_of_le (Nat.mul_lt_mul_of_pos_right hlt hsize) hmul
      rw [Nat.div_eq_of_lt hlt, Nat.mod_eq_of_lt hlt, Nat.div_eq_of_lt hbytes,
        Nat.mod_eq_of_lt hbytes]
      exact ⟨rfl, rfl⟩
  refine ⟨hplace.1, hplace.2, ?_⟩
  rw [← hplace.2]
  have hle : k % count ≤ min total count - 1 := by
    have hmod := Nat.mod_le k count
    have hlt : k % count < count := Nat.mod_lt k (Nat.div_pos hsize' hsize)
    omega
  have := Nat.mul_le_mul_right size hle
  omega

theorem readsTable_of_fits {disk : GptDisk} {h : GptHeader} {known : List Partition}
    (dev : GptDevice) (behind : Nat → UInt8)
    (hcarries : TableAt disk h) (hsize : 1 ≤ h.sizeOfPartitionEntry)
    (hsize' : h.sizeOfPartitionEntry ≤ 512) (htotal : 1 ≤ h.numPartitionEntries)
    (hfits : GptFits h.sizeOfPartitionEntry h.numPartitionEntries)
    (hknown : known.length ≤ 256) :
    ReadsTable disk dev known h (gptDetectPartitions disk dev behind known) := by
  rw [gptDetectPartitions_eq dev behind hcarries hsize hsize' htotal hfits.1 hknown]
  have hentry : ∀ k < h.numPartitionEntries,
      bufferEntry disk behind h k = tableEntry disk h k := by
    intro k hk
    obtain ⟨hsector, hoffset, hinside⟩ := hfits.place hsize hsize' hk
    apply GptEntry.ofBytes_congr
    intro b hb
    have hdiv : (k * h.sizeOfPartitionEntry + b) / 512 = k * h.sizeOfPartitionEntry / 512 := by
      omega
    have hmod : (k * h.sizeOfPartitionEntry + b) % 512 =
        k * h.sizeOfPartitionEntry % 512 + b := by omega
    rw [hsector, hoffset, entryBuffer, if_pos (by omega), arrayByte, hdiv, hmod]
  rw [usedEntries_congr hentry, scannedState_congr dev known fun k hk =>
    ⟨congrArg (h.partitionEntryLba + BitVec.ofNat 64 ·) (hfits.place hsize hsize' hk).1,
      (hfits.place hsize hsize' hk).2.1, hentry k hk⟩]
  refine ⟨?_, ?_, rfl, rfl, rfl⟩
  · intro e he
    obtain ⟨k, hk, rfl⟩ := List.mem_map.mp he
    have hlt := examinedEntries_le _ _ _ (List.mem_range.mp hk)
    have hinside := (hfits.place hsize hsize' hlt).2.2
    have hlooked := (tableEntry disk h k).looked_le
    change k * h.sizeOfPartitionEntry % 512 + _ ≤ 512
    omega
  · rw [scannedState, List.map_map]
    rfl

/-! ### Tables that are not read -/

def headerSector (size total : Nat) : Nat → UInt8 := fun b =>
  if b < 8 then efiPart.getD b 0
  else if b = 72 then 2
  else if 80 ≤ b ∧ b < 84 then .ofNat (total / 256 ^ (b - 80))
  else if 84 ≤ b ∧ b < 88 then .ofNat (size / 256 ^ (b - 84))
  else 0

/-- A disk with this header whose other sectors are all alike. -/
def uniformDisk (size total : Nat) (fill : Nat → UInt8) : GptDisk where
  byte lba := if lba = 1 then headerSector size total else fill
  readResult _ _ := 0

theorem leWord_digits {byte : Nat → UInt8} {n : Nat} :
    ∀ {width offset i : Nat},
      (∀ j < width, byte (offset + j) = .ofNat (n / 256 ^ (i + j))) →
        leWord byte offset width = n / 256 ^ i % 256 ^ width
  | 0, _, _, _ => by rw [leWord, Nat.pow_zero, Nat.mod_one]
  | width + 1, offset, i, h => by
      have hrest : ∀ j < width, byte (offset + 1 + j) = .ofNat (n / 256 ^ (i + 1 + j)) := by
        intro j hj
        rw [Nat.add_assoc, Nat.add_assoc, Nat.add_comm 1 j]
        exact h (j + 1) (by omega)
      have hfirst : (byte offset).toNat = n / 256 ^ i % 256 := by
        have := h 0 (Nat.succ_pos _)
        rw [Nat.add_zero, Nat.add_zero] at this
        rw [this]
        rfl
      rw [leWord, leWord_digits hrest, hfirst, Nat.pow_succ 256 i, ← Nat.div_div_eq_div_mul,
        Nat.pow_succ, Nat.mul_comm (256 ^ width), Nat.mod_mul]

theorem uniformDisk_carries {size total : Nat} (hsize : size ≤ 512) (htotal : total < 2 ^ 32)
    (fill : Nat → UInt8) :
    TableAt (uniformDisk size total fill) ⟨efiPart, 2, total, size⟩ := by
  refine ⟨fun _ _ => Int.le_refl 0, ?_, rfl⟩
  have hsector : (uniformDisk size total fill).byte 1 = headerSector size total := by
    simp [uniformDisk]
  have hlba : leWord (headerSector size total) 72 8 = 2 := by simp [leWord, headerSector]
  have htotalWord : leWord (headerSector size total) 80 4 = total := by
    rw [leWord_digits (n := total) (i := 0), Nat.pow_zero, Nat.div_one]
    · exact Nat.mod_eq_of_lt htotal
    · intro j hj
      rw [headerSector, if_neg (by omega), if_neg (by omega), if_pos (by omega), Nat.zero_add,
        Nat.add_sub_cancel_left]
  have hsizeWord : leWord (headerSector size total) 84 4 = size := by
    rw [leWord_digits (n := size) (i := 0), Nat.pow_zero, Nat.div_one]
    · exact Nat.mod_eq_of_lt (by omega)
    · intro j hj
      rw [headerSector, if_neg (by omega), if_neg (by omega), if_neg (by omega),
        if_pos (by omega), Nat.zero_add, Nat.add_sub_cancel_left]
  rw [hsector, GptHeader.ofBytes, hlba, htotalWord, hsizeWord]
  rfl

theorem bufferEntry_uniform {size total k : Nat} (htotal : total < 2 ^ 32) (hk : k < total)
    (fill behind : Nat → UInt8) :
    bufferEntry (uniformDisk size total fill) behind ⟨efiPart, 2, total, size⟩ k =
      .ofBytes fun b => entryBuffer fill behind (k % (512 / size) * size + b) := by
  have hsector : 2 + BitVec.ofNat 64 (k / (512 / size)) ≠ (1 : BitVec 64) := by
    have hle := Nat.div_le_self k (512 / size)
    generalize k / (512 / size) = j at hle
    intro h
    have := congrArg BitVec.toNat h
    rw [BitVec.toNat_add, BitVec.toNat_ofNat] at this
    change (2 + j % 2 ^ 64) % 2 ^ 64 = 1 at this
    omega
  have hbyte : (uniformDisk size total fill).byte (2 + BitVec.ofNat 64 (k / (512 / size))) =
      fill := by
    simp only [uniformDisk, if_neg hsector]
  rw [bufferEntry]
  dsimp only
  rw [hbyte]

/-- A number of entries that wraps leaves the table unread. -/
theorem not_readsTable_of_wrap {size total : Nat} (dev : GptDevice) (hsize : 1 ≤ size)
    (hsize' : size ≤ 512) (htotal : 1 ≤ total) (htotal' : total < 2 ^ 32)
    (hwrap : 2 ^ 32 < total + 512 / size) :
    ¬ ReadsTable (uniformDisk size total fun _ => 0) dev [] ⟨efiPart, 2, total, size⟩
      (gptDetectPartitions (uniformDisk size total fun _ => 0) dev (fun _ => 0) []) := by
  have hcarries := uniformDisk_carries hsize' htotal' fun _ => 0
  rw [gptDetectPartitions_loop dev _ hcarries hsize hsize' htotal]
  have hnone : (total + 512 / size - 1) % 2 ^ 32 / (512 / size) = 0 := by
    have hcount : 512 / size ≤ 512 := Nat.div_le_self 512 size
    generalize 512 / size = count at *
    apply Nat.div_eq_of_lt
    omega
  rw [hnone]
  intro h
  have hlength := congrArg List.length h.examined
  rw [List.length_map, List.length_map, List.length_range, examinedEntries] at hlength
  change 0 = _ at hlength
  split at hlength
  · change 0 = total at hlength
    omega
  · omega

/-- The entries before the first used one are examined, and so is that one. -/
theorem lt_examinedEntries {e : Nat → GptEntry} {n room k : Nat} (hk : k < n)
    (hbefore : ∀ j < k, (e j).used = false) : k < examinedEntries e n room := by
  rw [examinedEntries]
  split
  · exact hk
  · rename_i last hlast
    have hused : (e last).used = true :=
      (List.mem_filter.mp (List.mem_of_getElem? hlast)).2
    by_contra hlt
    rw [hbefore last (by omega)] at hused
    cases hused

/-- An entry that lies across the end of its sector is looked for in the next one. -/
theorem not_readsTable_of_split {size total : Nat} (dev : GptDevice) (hsize : 1 ≤ size)
    (hsize' : size ≤ 512) (htotal' : total < 2 ^ 32)
    (hwrap : total + 512 / size ≤ 2 ^ 32) (hmod : 512 % size ≠ 0)
    (hmore : 512 / size < total) :
    ¬ ReadsTable (uniformDisk size total fun _ => 0) dev [] ⟨efiPart, 2, total, size⟩
      (gptDetectPartitions (uniformDisk size total fun _ => 0) dev (fun _ => 0) []) := by
  have hcarries := uniformDisk_carries hsize' htotal' fun _ => 0
  rw [gptDetectPartitions_eq dev _ hcarries hsize hsize' (Nat.pos_of_ne_zero (by
    rintro rfl
    exact Nat.not_lt_zero _ hmore)) hwrap (Nat.zero_le _)]
  intro h
  have hunused : ∀ k < 512 / size, (bufferEntry (uniformDisk size total fun _ => 0)
      (fun _ => 0) ⟨efiPart, 2, total, size⟩ k).used = false := by
    intro k hk
    rw [bufferEntry_uniform htotal' (hk.trans hmore)]
    simp only [entryBuffer, ite_self]
    rfl
  have hpos := Nat.div_pos hsize' hsize
  have hplace := congrArg (·[512 / size]?) h.examined
  simp only [scannedState, List.map_map, List.getElem?_map] at hplace
  rw [List.getElem?_range (lt_examinedEntries hmore hunused)] at hplace
  obtain ⟨k, hk, heq⟩ := Option.map_eq_some_iff.mp hplace.symm
  obtain ⟨hlt, rfl⟩ := List.getElem?_eq_some_iff.mp hk
  have hoffset := congrArg Prod.snd heq
  rw [List.getElem_range] at hoffset
  change 512 / size * size % 512 = 512 / size % (512 / size) * size at hoffset
  rw [Nat.mod_self, Nat.zero_mul] at hoffset
  have hdiv := Nat.div_add_mod 512 size
  rw [Nat.mul_comm] at hdiv
  have hmul := Nat.mul_pos hpos hsize
  omega

theorem leWord_lt {f : Nat → UInt8} : ∀ {width a b : Nat},
    (∀ i < width + 1, (f (a + i)).toNat < (f (b + i)).toNat) →
      leWord f a (width + 1) < leWord f b (width + 1)
  | 0, a, b, h => by
      have := h 0 (Nat.zero_lt_one)
      rw [Nat.add_zero, Nat.add_zero] at this
      simpa [leWord] using this
  | width + 1, a, b, h => by
      have hfirst := h 0 (Nat.succ_pos _)
      have hrest : leWord f (a + 1) (width + 1) < leWord f (b + 1) (width + 1) := by
        apply leWord_lt
        intro i hi
        rw [Nat.add_assoc, Nat.add_assoc, Nat.add_comm 1 i]
        exact h (i + 1) (by omega)
      rw [Nat.add_zero, Nat.add_zero] at hfirst
      rw [leWord, leWord.eq_def f b]
      dsimp only
      omega

/-- The bytes of a sector that falls off, with a stack of ones behind it. -/
theorem slope_toNat {b : Nat} (hb : b < 512) :
    (entryBuffer (fun b => .ofNat (255 - b / 8)) (fun _ => 1) b).toNat = 255 - b / 8 := by
  rw [entryBuffer, if_pos hb, UInt8.toNat_ofNat']
  exact Nat.mod_eq_of_lt (by omega)

theorem slope_ne_zero (b : Nat) :
    entryBuffer (fun b => .ofNat (255 - b / 8)) (fun _ => 1) b ≠ 0 := by
  by_cases hb : b < 512
  · intro h
    have := slope_toNat hb
    rw [h] at this
    change 0 = _ at this
    omega
  · rw [entryBuffer, if_neg hb]
    decide

/-- On a sector that falls off an entry ends before it starts. -/
theorem slope_not_used {place : Nat} (hplace : place + 48 ≤ 512) :
    (GptEntry.ofBytes fun b => entryBuffer (fun b => .ofNat (255 - b / 8)) (fun _ => 1)
      (place + b)).used = false := by
  have hlt : leWord (fun b => entryBuffer (fun b => .ofNat (255 - b / 8)) (fun _ => 1)
      (place + b)) 40 8 < leWord (fun b => entryBuffer (fun b => .ofNat (255 - b / 8))
      (fun _ => 1) (place + b)) 32 8 := by
    apply leWord_lt
    intro i hi
    rw [slope_toNat (by omega), slope_toNat (by omega)]
    omega
  have hnone : (GptEntry.ofBytes fun b => entryBuffer (fun b => .ofNat (255 - b / 8))
      (fun _ => 1) (place + b)).noSectors = true := by
    rw [GptEntry.noSectors, Bool.or_eq_true, decide_eq_true_iff]
    exact Or.inr hlt
  rw [GptEntry.used, hnone]
  exact Bool.and_false _

/-- An entry without a byte of zero has to be looked at as far as its end. -/
theorem GptEntry.looked_of_ne {byte : Nat → UInt8} (h : ∀ b, byte b ≠ 0) :
    (GptEntry.ofBytes byte).looked = 48 := by
  have hempty : (GptEntry.ofBytes byte).empty = false := by
    rw [empty, List.all_eq_false]
    exact ⟨byte 0, List.mem_map.mpr ⟨0, by decide, rfl⟩, by simpa using h 0⟩
  have hstart : (GptEntry.ofBytes byte).startingLba ≠ 0 := by
    have hpos : (byte 32).toNat ≠ 0 := fun hzero => h 32 (UInt8.toNat_inj.mp hzero)
    change (byte 32).toNat + 256 * leWord byte 33 7 ≠ 0
    omega
  rw [looked, hempty, if_neg Bool.false_ne_true, if_neg hstart]

/-- An entry too close to the end of its sector is looked for behind the buffer. -/
theorem not_readsTable_of_reach {size total : Nat} (dev : GptDevice) (hsize : 1 ≤ size)
    (hsize' : size ≤ 512) (htotal : 1 ≤ total) (htotal' : total < 2 ^ 32)
    (hwrap : total + 512 / size ≤ 2 ^ 32)
    (hreach : 512 < (min total (512 / size) - 1) * size + 48) :
    ¬ ReadsTable (uniformDisk size total fun b => .ofNat (255 - b / 8)) dev []
      ⟨efiPart, 2, total, size⟩
      (gptDetectPartitions (uniformDisk size total fun b => .ofNat (255 - b / 8)) dev
        (fun _ => 1) []) := by
  have hcarries := uniformDisk_carries hsize' htotal' fun b => .ofNat (255 - b / 8)
  rw [gptDetectPartitions_eq dev _ hcarries hsize hsize' htotal hwrap (Nat.zero_le _)]
  intro h
  have hex : ∃ k, k < min total (512 / size) ∧ 512 < k * size + 48 :=
    ⟨_, by have := Nat.div_pos hsize' hsize; omega, hreach⟩
  -- the first entry that is looked for behind the buffer
  set k := Nat.find hex with hkEq
  obtain ⟨hk, hkReach⟩ := Nat.find_spec hex
  rw [← hkEq] at hk hkReach
  have hbytes : ∀ j < 512 / size, j % (512 / size) = j := fun j hj => Nat.mod_eq_of_lt hj
  have hbefore : ∀ j < k, (bufferEntry (uniformDisk size total fun b => .ofNat (255 - b / 8))
      (fun _ => 1) ⟨efiPart, 2, total, size⟩ j).used = false := by
    intro j hj
    have hnot := Nat.find_min hex hj
    have hend : j * size + 48 ≤ 512 := by
      by_contra hlt
      exact hnot ⟨by omega, by omega⟩
    rw [bufferEntry_uniform htotal' (by omega), hbytes j (by omega)]
    exact slope_not_used hend
  have hlooked : (bufferEntry (uniformDisk size total fun b => .ofNat (255 - b / 8))
      (fun _ => 1) ⟨efiPart, 2, total, size⟩ k).looked = 48 := by
    rw [bufferEntry_uniform htotal' (by omega)]
    exact GptEntry.looked_of_ne fun b => slope_ne_zero _
  have hinside := h.inside _ (List.mem_map.mpr
    ⟨k, List.mem_range.mpr (lt_examinedEntries (by dsimp only; omega) hbefore), rfl⟩)
  change k % (512 / size) * size + _ ≤ 512 at hinside
  rw [hlooked, hbytes k (by omega)] at hinside
  omega

/-- The scan reads the table it was given, on every disk, exactly where the entries fit. -/
theorem gpt_reads_table_iff {size total : Nat} (hsize : 1 ≤ size) (hsize' : size ≤ 512)
    (htotal : 1 ≤ total) (htotal' : total < 2 ^ 32) :
    (∀ disk dev behind known h, TableAt disk h → h.sizeOfPartitionEntry = size →
        h.numPartitionEntries = total → known.length ≤ 256 →
      ReadsTable disk dev known h (gptDetectPartitions disk dev behind known)) ↔
      GptFits size total := by
  constructor
  · intro h
    set dev : GptDevice := ⟨⟨1, 0⟩, [], 0⟩
    have hread := fun fill behind => h (uniformDisk size total fill) dev behind []
      ⟨efiPart, 2, total, size⟩ (uniformDisk_carries hsize' htotal' fill) rfl rfl
      (Nat.zero_le _)
    by_cases hwrap : total + 512 / size ≤ 2 ^ 32
    · refine ⟨hwrap, ?_, ?_⟩
      · by_contra hsplit
        rw [not_or, not_le] at hsplit
        exact not_readsTable_of_split dev hsize hsize' htotal' hwrap hsplit.1 hsplit.2
          (hread _ _)
      · by_contra hreach
        exact not_readsTable_of_reach dev hsize hsize' htotal htotal' hwrap
          (not_le.mp hreach) (hread _ _)
    · exact absurd (hread _ _) (not_readsTable_of_wrap dev hsize hsize' htotal htotal'
        (not_le.mp hwrap))
  · rintro hfits disk dev behind known h hcarries rfl rfl hknown
    exact readsTable_of_fits dev behind hcarries hsize hsize' htotal hfits hknown

/-- A table of 128 entries of 128 bytes, in which every fourth entry describes the sectors
5 to 9. -/
def usualDisk : GptDisk := uniformDisk 128 128 fun b =>
  if b = 0 then 1 else if b = 32 then 5 else if b = 40 then 9 else 0

theorem usualDisk_reads_table :
    ReadsTable usualDisk ⟨⟨1, 0⟩, ['a'], 2⟩ [] ⟨efiPart, 2, 128, 128⟩
      (gptDetectPartitions usualDisk ⟨⟨1, 0⟩, ['a'], 2⟩ (fun _ => 0) []) :=
  (gpt_reads_table_iff (by decide) (by decide) (by decide) (by decide)).mpr (by decide)
    usualDisk _ _ [] ⟨efiPart, 2, 128, 128⟩ (uniformDisk_carries (by decide) (by decide) _)
    rfl rfl (by decide)

/-- A table of two entries of 384 bytes: the first is not used, the second starts at byte
384 of the first sector and describes the sectors 5 to 9. -/
def splitDisk : GptDisk := uniformDisk 384 2 fun b =>
  if b = 384 then 1 else if b = 416 then 5 else if b = 424 then 9 else 0

/-- The partition is not found: the second entry is looked for in the next sector. -/
theorem gpt_misses_partition :
    TableAt splitDisk ⟨efiPart, 2, 2, 384⟩ ∧
      (tableEntry splitDisk ⟨efiPart, 2, 2, 384⟩ 1).used = true ∧
      (gptDetectPartitions splitDisk ⟨⟨1, 0⟩, ['a'], 2⟩ (fun _ => 0) []).1 = 0 ∧
      ¬ ReadsTable splitDisk ⟨⟨1, 0⟩, ['a'], 2⟩ [] ⟨efiPart, 2, 2, 384⟩
        (gptDetectPartitions splitDisk ⟨⟨1, 0⟩, ['a'], 2⟩ (fun _ => 0) []) := by
  have hzero : (gptDetectPartitions splitDisk ⟨⟨1, 0⟩, ['a'], 2⟩ (fun _ => 0) []).1 = 0 := by
    decide
  have hused : usedEntries (tableEntry splitDisk ⟨efiPart, 2, 2, 384⟩) 2 = [1] := by
    decide
  refine ⟨uniformDisk_carries (by decide) (by decide) _, by decide, hzero, ?_⟩
  intro h
  have hresult := h.result
  rw [hzero] at hresult
  dsimp only at hresult
  rw [hused] at hresult
  exact absurd hresult (by decide)

end GlitchedOS
