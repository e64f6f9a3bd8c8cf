/-
Partitions of a block device.  A transfer on a partition is checked against the
partition's bounds in 64-bit arithmetic and handed to the driver of the device below.
-/
import GlitchedOS.Error
import Mathlib.Tactic.Ring

namespace GlitchedOS

/-- The part of `block_device_t` that decides where a transfer goes. -/
structure BlockDevice where
  majorNumber : UInt32
  minorNumber : UInt32
deriving DecidableEq, Repr

/-- What a driver's `read_sectors` or `write_sectors` is called with, the buffer apart. -/
structure SectorRequest where
  device : BlockDevice
  lba : BitVec 64
  count : BitVec 64
deriving DecidableEq, Repr

/-- The `present` fields of `block_drivers`. -/
abbrev BlockDrivers : Type := UInt32 → Bool

/-- An error before any driver is called, or the call that reaches the driver. -/
abbrev Transfer : Type := Except Int SectorRequest

/-- The common body of `read_sectors` and `write_sectors`. -/
def BlockDrivers.pass (drivers : BlockDrivers) (device : BlockDevice)
    (lba count : BitVec 64) : Transfer :=
  if device.majorNumber = 0 ∨ drivers device.majorNumber = false then .error eNodev
  else .ok ⟨device, lba, count⟩

def readSectors (drivers : BlockDrivers) (device : BlockDevice)
    (lba count : BitVec 64) : Transfer :=
  drivers.pass device lba count

def writeSectors (drivers : BlockDrivers) (device : BlockDevice)
    (lba count : BitVec 64) : Transfer :=
  drivers.pass device lba count

/-- `partition_t`; `start` and `size` are signed in the source. -/
structure Partition where
  blockdev : BlockDevice
  start : BitVec 64
  size : BitVec 64
deriving DecidableEq, Repr

namespace Partition

/-- The sums of the bounds test are unsigned: `lba` and `count` are `uint64_t`. -/
def outOfBounds (part : Partition) (lba count : BitVec 64) : Bool :=
  let adjustedLba := part.start + lba
  decide (adjustedLba < part.start) || decide (part.start + part.size < adjustedLba + count)

/-- The common body of `partition_read_sectors` and `partition_write_sectors`, with the
block layer's call as a parameter. -/
def transfer (next : BlockDevice → BitVec 64 → BitVec 64 → Transfer) (part : Partition)
    (lba count : BitVec 64) : Transfer :=
  if part.outOfBounds lba count then .error eInval
  else next part.blockdev (part.start + lba) count

end Partition

def partitionReadSectors (drivers : BlockDrivers) (partitions : Nat → Partition)
    (partition : Nat) (lba count : BitVec 64) : Transfer :=
  (partitions partition).transfer (readSectors drivers) lba count

def partitionWriteSectors (drivers : BlockDrivers) (partitions : Nat → Partition)
    (partition : Nat) (lba count : BitVec 64) : Transfer :=
  (partitions partition).transfer (writeSectors drivers) lba count

namespace Partition

/-- A partition as the partition tables describe them: no negative number, and an end
that fits the signed type. -/
structure Sound (part : Partition) : Prop where
  start_nonneg : 0 ≤ part.start.toInt
  size_nonneg : 0 ≤ part.size.toInt
  end_lt : part.start.toInt + part.size.toInt < 2 ^ 63

/-- The request asks for the sectors `lba .. lba + count - 1` of the partition, and they
lie inside it. -/
def Inside (part : Partition) (lba count : BitVec 64) (request : SectorRequest) : Prop :=
  lba.toNat + count.toNat ≤ part.size.toNat ∧
    request.device = part.blockdev ∧
    request.lba.toNat = part.start.toNat + lba.toNat ∧
    request.count = count

/-- The driver below the partition can be called. -/
def HasDriver (part : Partition) (drivers : BlockDrivers) : Prop :=
  part.blockdev.majorNumber ≠ 0 ∧ drivers part.blockdev.majorNumber = true

/-- The sums of the bounds test tell the end of the transfer from the end of the
partition: the first sum wraps, so that it shows below `start`, the second does not
wrap, or it wraps to a value that is past the end all the same. -/
def SumsTell (part : Partition) (lba count : BitVec 64) : Prop :=
  let last := part.start.toNat + lba.toNat + count.toNat
  2 ^ 64 ≤ part.start.toNat + lba.toNat ∨ last < 2 ^ 64 ∨
    part.start.toNat + part.size.toNat + 2 ^ 64 < last

variable {part : Partition} {drivers : BlockDrivers} {lba count : BitVec 64}

theorem Sound.toNat_lt (hpart : part.Sound) :
    part.start.toNat + part.size.toNat < 2 ^ 63 := by
  have hstart := hpart.start_nonneg
  have hsize := hpart.size_nonneg
  have hend := hpart.end_lt
  rw [BitVec.toInt_eq_toNat_cond] at hstart hsize hend
  rw [BitVec.toInt_eq_toNat_cond] at hend
  split at hstart <;> split at hsize <;> omega

theorem Sound.outOfBounds_eq_false (hpart : part.Sound) :
    part.outOfBounds lba count = false ↔
      part.start.toNat + lba.toNat < 2 ^ 64 ∧
        (part.start.toNat + lba.toNat + count.toNat) % 2 ^ 64 ≤
          part.start.toNat + part.size.toNat := by
  have hlt := hpart.toNat_lt
  simp only [outOfBounds, Bool.or_eq_false_iff, decide_eq_false_iff_not, BitVec.not_lt,
    BitVec.le_def, BitVec.toNat_add]
  omega

/-- A transfer reaches the driver below when there is one and the bounds test lets it. -/
theorem transfer_eq_ok_iff {request : SectorRequest} :
    part.transfer drivers.pass lba count = .ok request ↔
      part.HasDriver drivers ∧ part.outOfBounds lba count = false ∧
        request = ⟨part.blockdev, part.start + lba, count⟩ := by
  unfold transfer BlockDrivers.pass HasDriver
  cases part.outOfBounds lba count with
  | true => simp
  | false =>
      by_cases hmajor : part.blockdev.majorNumber = 0
      · simp [hmajor]
      · cases drivers part.blockdev.majorNumber with
        | true => simp [hmajor, eq_comm (a := request)]
        | false => simp [hmajor]

/-- A request that passed the test lies inside exactly where the sums tell the ends apart. -/
theorem Sound.inside_iff (hpart : part.Sound) (hout : part.outOfBounds lba count = false) :
    part.Inside lba count ⟨part.blockdev, part.start + lba, count⟩ ↔
      part.SumsTell lba count := by
  have hlt := hpart.toNat_lt
  have hbounds := hpart.outOfBounds_eq_false.mp hout
  simp only [Inside, SumsTell, BitVec.toNat_add, true_and, and_true]
  omega

/-- A request the test refuses is one for which the sums tell the ends apart. -/
theorem Sound.sumsTell_of_outOfBounds (hpart : part.Sound)
    (hout : part.outOfBounds lba count = true) : part.SumsTell lba count := by
  have hlt := hpart.toNat_lt
  have hnot : part.outOfBounds lba count ≠ false := by simp [hout]
  have hbounds := mt hpart.outOfBounds_eq_false.mpr hnot
  unfold SumsTell
  omega

/-- The requests that reach the driver stay inside the partition exactly where there is
no driver or the sums tell the ends apart. -/
theorem Sound.transfer_inside_iff (hpart : part.Sound) :
    (∀ request, part.transfer drivers.pass lba count = .ok request →
        part.Inside lba count request) ↔
      ¬ part.HasDriver drivers ∨ part.SumsTell lba count := by
  simp only [transfer_eq_ok_iff]
  constructor
  · intro h
    by_cases hdriver : part.HasDriver drivers
    · right
      cases hout : part.outOfBounds lba count with
      | true => exact hpart.sumsTell_of_outOfBounds hout
      | false => exact (hpart.inside_iff hout).mp (h _ ⟨hdriver, hout, rfl⟩)
    · exact .inl hdriver
  · rintro (hnone | htell) request ⟨hdriver, hout, rfl⟩
    · exact absurd hdriver hnone
    · exact (hpart.inside_iff hout).mpr htell

end Partition

/-- Both transfers of a partition stay inside it exactly where the driver below is
missing or the wrapping sums tell the two ends apart. -/
theorem partition_transfers_inside_iff (drivers : BlockDrivers)
    (partitions : Nat → Partition) (partition : Nat) (lba count : BitVec 64)
    (hpart : (partitions partition).Sound) :
    (∀ request,
        partitionReadSectors drivers partitions partition lba count = .ok request ∨
          partitionWriteSectors drivers partitions partition lba count = .ok request →
        (partitions partition).Inside lba count request) ↔
      ¬ (partitions partition).HasDriver drivers ∨
        (partitions partition).SumsTell lba count := by
  rw [← hpart.transfer_inside_iff]
  constructor
  · intro h request hok
    exact h request (.inl hok)
  · rintro h request (hread | hwrite)
    · exact h request hread
    · exact h request hwrite

/-- Partition 0 of device `(1, 0)`: sectors 100 to 149. -/
def smallPartition : Nat → Partition := fun _ => ⟨⟨1, 0⟩, 100, 50⟩

theorem smallPartition_transfers_inside :
    partitionReadSectors (fun _ => true) smallPartition 0 40 10 = .ok ⟨⟨1, 0⟩, 140, 10⟩ ∧
      (smallPartition 0).Inside 40 10 ⟨⟨1, 0⟩, 140, 10⟩ :=
  ⟨rfl, (partition_transfers_inside_iff (fun _ => true) smallPartition 0 40 10
    ⟨by decide, by decide, by decide⟩).mpr (.inr (.inr (.inl (by decide)))) _ (.inl rfl)⟩

/-- A count of `2 ^ 64 - 100` wraps the end of the transfer to 0, and the request for
sectors far beyond the partition is passed on. -/
theorem partition_transfer_leaves_partition :
    ∃ request,
      partitionReadSectors (fun _ => true) smallPartition 0 0 (-100) = .ok request ∧
        partitionWriteSectors (fun _ => true) smallPartition 0 0 (-100) = .ok request ∧
        (smallPartition 0).Sound ∧ ¬ (smallPartition 0).Inside 0 (-100) request :=
  ⟨⟨⟨1, 0⟩, 100, -100⟩, rfl, rfl, ⟨by decide, by decide, by decide⟩,
    fun h => absurd h.1 (by decide)⟩

end GlitchedOS
