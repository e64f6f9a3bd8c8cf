/-
Block devices.  A transfer of bytes goes sector by sector: each sector is read into a
buffer on the stack, and the part the transfer touches is cut out of it.
-/
import GlitchedOS.Drivers.Partitions
import GlitchedOS.Lib.Loop
import Mathlib.Data.List.Range
import Mathlib.Data.Nat.Basic
import Mathlib.Logic.Function.Basic

namespace GlitchedOS

/-- A device as its driver serves it: what is on it, and what the driver returns for a
transfer of one sector.  Only some drivers refuse the sectors behind the end. -/
structure BlockDisk where
  sectorSize : Nat
  sectors : Nat
  byte : Nat → UInt8
  readResult : Nat → Int
  writeResult : Nat → Int
  sectorSize_pos : 0 < sectorSize
  sectorSize_le : sectorSize ≤ 4096
  size_lt : sectors * sectorSize < 2 ^ 63

/-- Where `block_read` stands: the sector, `out_off`, the buffer, and the sectors it has
asked the driver for. -/
structure BlockReading where
  sector : Nat
  outOff : Nat
  buffer : Nat → UInt8
  accesses : List Nat

/-- Where `block_write` stands: the sector, `in_off` and what is on the device. -/
structure BlockWriting where
  sector : Nat
  inOff : Nat
  byte : Nat → UInt8

/-- The part of a sector that a transfer touches: `from` and `to`. -/
structure SectorPart where
  first : Nat
  stop : Nat

/-- `a - b` on a `uint64_t`. -/
def sub64 (a b : Nat) : Nat := (a + 2 ^ 64 - b) % 2 ^ 64

/-- A `size_t` that is returned as an `int`. -/
def returned (size : Nat) : Int := (size : Int).bmod (2 ^ 32)

/-- A loop that copies `n` bytes from `b` on to `a` on. -/
def moveBytes (src : Nat → UInt8) (b : Nat) (dst : Nat → UInt8) (a n : Nat) : Nat → UInt8 :=
  (List.range n).foldl (fun dst k => Function.update dst (a + k) (src (b + k))) dst

/-- The driver of the device can be called. -/
def BlockDrivers.Has (drivers : BlockDrivers) (device : BlockDevice) : Prop :=
  device.majorNumber ≠ 0 ∧ drivers device.majorNumber = true

instance (drivers : BlockDrivers) (device : BlockDevice) : Decidable (drivers.Has device) :=
  inferInstanceAs (Decidable (_ ∧ _))

namespace BlockDisk

variable (disk : BlockDisk) (offset size : Nat)

def capacity : Nat := disk.sectors * disk.sectorSize

def startSector : Nat := offset / disk.sectorSize

def endSector : Nat := sub64 ((offset + size) % 2 ^ 64) 1 / disk.sectorSize

/-- The part of a sector to move, with `off` bytes moved before. -/
def cut (s off : Nat) : SectorPart :=
  let sectorStart := s * disk.sectorSize % 2 ^ 64
  let first := if sectorStart < offset then offset - sectorStart else 0
  let stop := disk.sectorSize
  if size < (off + sub64 stop first) % 2 ^ 64 then
    ⟨first, (first + sub64 size off) % 2 ^ 64⟩
  else ⟨first, stop⟩

/-- The sector on the stack, over what was there before. -/
def sectorOf (byte junk : Nat → UInt8) (s : Nat) : Nat → UInt8 := fun i =>
  if i < disk.sectorSize then byte (s * disk.sectorSize + i) else junk i

/-- One round of `block_read`. -/
def readRound (junk : Nat → UInt8) (r : BlockReading) :
    Option (BlockReading ⊕ Int × BlockReading) :=
  if disk.endSector offset size < r.sector then some (.inr (returned size, r))
  else
    let r := { r with accesses := r.accesses ++ [r.sector] }
    if disk.readResult r.sector < 0 then some (.inr (disk.readResult r.sector, r))
    else
      let part := disk.cut offset size r.sector r.outOff
      some (.inl {
        sector := (r.sector + 1) % 2 ^ 64
        outOff := r.outOff + (part.stop - part.first)
        buffer := moveBytes (disk.sectorOf disk.byte junk r.sector) part.first r.buffer
          r.outOff (part.stop - part.first)
        accesses := r.accesses })

/-- One round of `block_write`. -/
def writeRound (junk buffer : Nat → UInt8) (w : BlockWriting) :
    Option (BlockWriting ⊕ Int × BlockWriting) :=
  if disk.endSector offset size < w.sector then some (.inr (returned size, w))
  else if disk.readResult w.sector < 0 then some (.inr (disk.readResult w.sector, w))
  else
    let part := disk.cut offset size w.sector w.inOff
    let sector := moveBytes buffer w.inOff (disk.sectorOf w.byte junk w.sector) part.first
      (part.stop - part.first)
    if disk.writeResult w.sector < 0 then some (.inr (disk.writeResult w.sector, w))
    else
      some (.inl {
        sector := (w.sector + 1) % 2 ^ 64
        inOff := w.inOff + (part.stop - part.first)
        byte := moveBytes sector 0 w.byte (w.sector * disk.sectorSize) disk.sectorSize })

end BlockDisk

/-- `block_read` for at most so many rounds. -/
def blockRead (drivers : BlockDrivers) (device : BlockDevice) (disk : BlockDisk)
    (junk : Nat → UInt8) (offset : Nat) (buffer : Nat → UInt8) (size fuel : Nat) :
    Option (Int × BlockReading) :=
  let start : BlockReading := ⟨disk.startSector offset, 0, buffer, []⟩
  if drivers.Has device then runLoop (disk.readRound offset size junk) fuel start
  else some (eNodev, start)

/-- `block_write` for at most so many rounds. -/
def blockWrite (drivers : BlockDrivers) (device : BlockDevice) (disk : BlockDisk)
    (junk : Nat → UInt8) (offset : Nat) (buffer : Nat → UInt8) (size fuel : Nat) :
    Option (Int × BlockWriting) :=
  let start : BlockWriting := ⟨disk.startSector offset, 0, disk.byte⟩
  if drivers.Has device then runLoop (disk.writeRound offset size junk buffer) fuel start
  else some (eNodev, start)

/-! ### Cutting a sector -/

theorem moveBytes_apply (src : Nat → UInt8) (b : Nat) (dst : Nat → UInt8) (a n j : Nat) :
    moveBytes src b dst a n j =
      if a ≤ j ∧ j < a + n then src (b + (j - a)) else dst j := by
  induction n with
  | zero =>
      rw [if_neg (by omega)]
      rfl
  | succ n ih =>
      rw [moveBytes, List.range_succ, List.foldl_append, List.foldl_cons, List.foldl_nil,
        ← moveBytes, Function.update_apply, ih]
      by_cases hlast : j = a + n
      · subst hlast
        rw [if_pos rfl, if_pos (by omega), Nat.add_sub_cancel_left]
      · rw [if_neg hlast]
        simp only [show a ≤ j ∧ j < a + (n + 1) ↔ a ≤ j ∧ j < a + n by omega]

theorem returned_eq {size : Nat} (hsize : size < 2 ^ 31) : returned size = size := by
  apply Int.bmod_eq_of_le <;> omega

theorem sub64_eq {a b : Nat} (hle : b ≤ a) (ha : a < 2 ^ 64) : sub64 a b = a - b := by
  unfold sub64
  omega

namespace BlockDisk

variable {disk : BlockDisk} {junk buffer : Nat → UInt8} {offset size s : Nat}

/-- How many bytes are moved before a sector. -/
def moved (disk : BlockDisk) (offset size s : Nat) : Nat :=
  min size (s * disk.sectorSize - offset)

theorem sectors_lt (disk : BlockDisk) : disk.sectors < 2 ^ 63 :=
  Nat.lt_of_le_of_lt (Nat.le_mul_of_pos_right _ disk.sectorSize_pos) disk.size_lt

/-- A sector of the device begins and ends below the largest number of bytes. -/
theorem sector_mul_lt (hs : s < disk.sectors) :
    s * disk.sectorSize + disk.sectorSize ≤ disk.capacity ∧ disk.capacity < 2 ^ 63 := by
  refine ⟨?_, disk.size_lt⟩
  rw [← Nat.succ_mul]
  exact Nat.mul_le_mul_right _ hs

theorem lt_succ_mul (hs : disk.startSector offset ≤ s) :
    offset < s * disk.sectorSize + disk.sectorSize := by
  have hstart := Nat.lt_div_mul_add (a := offset) disk.sectorSize_pos
  have hmul := Nat.mul_le_mul_right disk.sectorSize hs
  unfold startSector at hmul
  omega

theorem moved_startSector : disk.moved offset size (disk.startSector offset) = 0 := by
  have hstart := Nat.div_mul_le_self offset disk.sectorSize
  unfold moved startSector
  omega

/-- The part of a sector begins where the transfer does, and ends with what is left. -/
theorem cut_eq (hs : s < disk.sectors) (hstart : disk.startSector offset ≤ s)
    (hsize : size < 2 ^ 31) :
    disk.cut offset size s (disk.moved offset size s) =
      ⟨offset - s * disk.sectorSize,
        offset - s * disk.sectorSize +
          (disk.moved offset size (s + 1) - disk.moved offset size s)⟩ := by
  obtain ⟨hend, hlt⟩ := sector_mul_lt hs
  have hbefore := lt_succ_mul hstart
  have hle := disk.sectorSize_le
  have hwrap : s * disk.sectorSize % 2 ^ 64 = s * disk.sectorSize :=
    Nat.mod_eq_of_lt (by omega)
  have hfirst : (if s * disk.sectorSize < offset then offset - s * disk.sectorSize else 0) =
      offset - s * disk.sectorSize := by
    split <;> omega
  have hnext : disk.moved offset size (s + 1) =
      min size (s * disk.sectorSize + disk.sectorSize - offset) := by
    rw [moved, Nat.succ_mul]
  have hmoved : disk.moved offset size s = min size (s * disk.sectorSize - offset) := rfl
  rw [cut, hwrap, hfirst]
  rw [sub64_eq (by omega) (by omega), sub64_eq (by omega) (by omega),
    Nat.mod_eq_of_lt (by omega), Nat.mod_eq_of_lt (by omega), hnext]
  split
  · rw [SectorPart.mk.injEq]
    omega
  · rw [SectorPart.mk.injEq]
    omega

theorem moved_le_succ (s : Nat) : disk.moved offset size s ≤ disk.moved offset size (s + 1) := by
  unfold moved
  rw [Nat.succ_mul]
  omega

/-! ### Reading -/

/-- What `block_read` has done before a sector. -/
structure ReadBefore (disk : BlockDisk) (offset size : Nat) (buffer : Nat → UInt8)
    (r : BlockReading) : Prop where
  start_le : disk.startSector offset ≤ r.sector
  outOff : r.outOff = disk.moved offset size r.sector
  buffer : ∀ i, r.buffer i =
    if i < disk.moved offset size r.sector then disk.byte (offset + i) else buffer i
  accesses : r.accesses.length = r.sector - disk.startSector offset
  read : ∀ s, disk.startSector offset ≤ s → s < r.sector → 0 ≤ disk.readResult s

theorem readBefore_start (disk : BlockDisk) (offset size : Nat) (buffer : Nat → UInt8) :
    disk.ReadBefore offset size buffer ⟨disk.startSector offset, 0, buffer, []⟩ where
  start_le := Nat.le_refl _
  outOff := moved_startSector.symm
  buffer i := by
    dsimp only
    rw [moved_startSector, if_neg (Nat.not_lt_zero i)]
  accesses := (Nat.sub_self _).symm
  read s hle hlt := absurd hlt (Nat.not_lt.mpr hle)

/-- A byte of the part that a sector adds to the transfer. -/
theorem sectorOf_cut {i : Nat} (byte : Nat → UInt8)
    (hi : disk.moved offset size s ≤ i ∧ i < disk.moved offset size (s + 1)) :
    disk.sectorOf byte junk s
        (offset - s * disk.sectorSize + (i - disk.moved offset size s)) =
      byte (offset + i) := by
  unfold moved at hi ⊢
  rw [Nat.succ_mul] at hi
  rw [sectorOf, if_pos (by omega)]
  congr 1
  omega

/-- Where `block_read` stands one sector further. -/
def readOn (disk : BlockDisk) (junk : Nat → UInt8) (offset size : Nat) (r : BlockReading) :
    BlockReading where
  sector := r.sector + 1
  outOff := disk.moved offset size (r.sector + 1)
  buffer := moveBytes (disk.sectorOf disk.byte junk r.sector)
    (offset - r.sector * disk.sectorSize) r.buffer (disk.moved offset size r.sector)
    (disk.moved offset size (r.sector + 1) - disk.moved offset size r.sector)
  accesses := r.accesses ++ [r.sector]

theorem ReadBefore.goes {r : BlockReading} (hr : disk.ReadBefore offset size buffer r)
    (hsize : size < 2 ^ 31) (hend : r.sector ≤ disk.endSector offset size)
    (hs : r.sector < disk.sectors) (hread : 0 ≤ disk.readResult r.sector) :
    Loop.Goes (disk.readRound offset size junk) r (disk.readOn junk offset size r) := by
  have hnext : (r.sector + 1) % 2 ^ 64 = r.sector + 1 := by
    have hsectors := disk.sectors_lt
    exact Nat.mod_eq_of_lt (by omega)
  rw [Loop.Goes, readRound, if_neg (Nat.not_lt.mpr hend)]
  dsimp only
  rw [if_neg (Int.not_lt.mpr hread), hr.outOff, cut_eq hs hr.start_le hsize, hnext,
    Nat.add_sub_cancel_left, Nat.add_sub_cancel' (moved_le_succ _), readOn]

theorem ReadBefore.next {r : BlockReading} (hr : disk.ReadBefore offset size buffer r)
    (hread : 0 ≤ disk.readResult r.sector) :
    disk.ReadBefore offset size buffer (disk.readOn junk offset size r) where
  start_le := Nat.le_succ_of_le hr.start_le
  outOff := rfl
  buffer i := by
    have hle : disk.moved offset size r.sector ≤ disk.moved offset size (r.sector + 1) :=
      moved_le_succ _
    rw [BlockDisk.readOn]
    dsimp only
    rw [moveBytes_apply, Nat.add_sub_cancel' hle, hr.buffer]
    by_cases hnew : disk.moved offset size r.sector ≤ i ∧
        i < disk.moved offset size (r.sector + 1)
    · rw [if_pos hnew, if_pos hnew.2, sectorOf_cut disk.byte hnew]
    · rw [if_neg hnew]
      simp only [show i < disk.moved offset size r.sector ↔
        i < disk.moved offset size (r.sector + 1) by omega]
  accesses := by
    rw [BlockDisk.readOn]
    dsimp only
    rw [List.length_append, hr.accesses, List.length_singleton,
      Nat.sub_add_comm hr.start_le]
  read s hstart hlt := by
    rcases Nat.lt_succ_iff_lt_or_eq.mp hlt with hbefore | rfl
    · exact hr.read s hstart hbefore
    · exact hread

/-- What `block_read` has done in the end. -/
structure ReadDone (disk : BlockDisk) (offset size : Nat) (buffer : Nat → UInt8)
    (out : Int × BlockReading) : Prop where
  accesses : out.2.accesses.length ≤
    disk.endSector offset size + 1 - disk.startSector offset
  result : out.1 < 0 ∧ (∃ s, disk.startSector offset ≤ s ∧ s ≤ disk.endSector offset size ∧
      disk.readResult s < 0) ∨
    out.1 = size ∧ disk.ReadBefore offset size buffer out.2 ∧
      disk.endSector offset size < out.2.sector

theorem ReadBefore.ends {r : BlockReading} (junk : Nat → UInt8)
    (hr : disk.ReadBefore offset size buffer r) (hsize : size < 2 ^ 31)
    (hinside : disk.endSector offset size < disk.sectors) :
    ∃ out, Loop.Ends (disk.readRound offset size junk) r out ∧
      (disk.startSector offset ≤ disk.endSector offset size + 1 →
        r.sector ≤ disk.endSector offset size + 1 →
        disk.ReadDone offset size buffer out) := by
  generalize hleft : disk.endSector offset size + 1 - r.sector = left
  induction left generalizing r with
  | zero =>
      refine ⟨(size, r), Loop.Ends.now (by rw [readRound, if_pos (by omega), returned_eq hsize]),
        fun hstart hr' => ⟨?_, .inr ⟨rfl, hr, by dsimp only; omega⟩⟩⟩
      dsimp only
      rw [hr.accesses]
      omega
  | succ left ih =>
      by_cases hread : 0 ≤ disk.readResult r.sector
      · obtain ⟨out, hends, hdone⟩ := ih (hr.next hread) (by dsimp only [readOn]; omega)
        exact ⟨out, hends.of_goes (hr.goes hsize (by omega) (by omega) hread),
          fun hstart _ => hdone hstart (by dsimp only [readOn]; omega)⟩
      · refine ⟨_, Loop.Ends.now (by
          rw [readRound, if_neg (by omega), if_pos (by dsimp only; omega)]), fun _ _ => ?_⟩
        have hstart := hr.start_le
        refine ⟨?_, .inl ⟨by dsimp only; omega, r.sector, hstart, by omega, by omega⟩⟩
        dsimp only
        rw [List.length_append, hr.accesses, List.length_singleton]
        omega

/-! ### Writing -/

/-- What `block_write` has done before a sector. -/
structure WriteBefore (disk : BlockDisk) (offset size : Nat) (buffer : Nat → UInt8)
    (w : BlockWriting) : Prop where
  start_le : disk.startSector offset ≤ w.sector
  inOff : w.inOff = disk.moved offset size w.sector
  byte : ∀ a, w.byte a =
    if offset ≤ a ∧ a < offset + disk.moved offset size w.sector then buffer (a - offset)
    else disk.byte a

theorem writeBefore_start (disk : BlockDisk) (offset size : Nat) (buffer : Nat → UInt8) :
    disk.WriteBefore offset size buffer ⟨disk.startSector offset, 0, disk.byte⟩ where
  start_le := Nat.le_refl _
  inOff := moved_startSector.symm
  byte a := by
    dsimp only
    rw [moved_startSector, if_neg (by omega)]

/-- The sector as it is written back. -/
def sectorBack (disk : BlockDisk) (junk buffer : Nat → UInt8) (offset size : Nat)
    (w : BlockWriting) : Nat → UInt8 :=
  moveBytes buffer (disk.moved offset size w.sector) (disk.sectorOf w.byte junk w.sector)
    (offset - w.sector * disk.sectorSize)
    (disk.moved offset size (w.sector + 1) - disk.moved offset size w.sector)

/-- Where `block_write` stands one sector further. -/
def writeOn (disk : BlockDisk) (junk buffer : Nat → UInt8) (offset size : Nat)
    (w : BlockWriting) : BlockWriting where
  sector := w.sector + 1
  inOff := disk.moved offset size (w.sector + 1)
  byte := moveBytes (disk.sectorBack junk buffer offset size w) 0 w.byte
    (w.sector * disk.sectorSize) disk.sectorSize

theorem WriteBefore.goes {w : BlockWriting} (hw : disk.WriteBefore offset size buffer w)
    (hsize : size < 2 ^ 31) (hend : w.sector ≤ disk.endSector offset size)
    (hs : w.sector < disk.sectors) (hread : 0 ≤ disk.readResult w.sector)
    (hwrite : 0 ≤ disk.writeResult w.sector) :
    Loop.Goes (disk.writeRound offset size junk buffer) w
      (disk.writeOn junk buffer offset size w) := by
  have hnext : (w.sector + 1) % 2 ^ 64 = w.sector + 1 := by
    have hsectors := disk.sectors_lt
    exact Nat.mod_eq_of_lt (by omega)
  rw [Loop.Goes, writeRound, if_neg (Nat.not_lt.mpr hend), if_neg (Int.not_lt.mpr hread)]
  dsimp only
  rw [if_neg (Int.not_lt.mpr hwrite), hw.inOff, cut_eq hs hw.start_le hsize, hnext]
  dsimp only
  rw [Nat.add_sub_cancel_left, Nat.add_sub_cancel' (moved_le_succ _), writeOn, sectorBack]

/-- A byte of a sector as it is written back: from the buffer inside the transfer. -/
theorem WriteBefore.sectorBack {w : BlockWriting} {a : Nat}
    (hw : disk.WriteBefore offset size buffer w)
    (ha : w.sector * disk.sectorSize ≤ a ∧
      a < w.sector * disk.sectorSize + disk.sectorSize) :
    disk.sectorBack junk buffer offset size w (a - w.sector * disk.sectorSize) =
      if offset ≤ a ∧ a < offset + disk.moved offset size (w.sector + 1)
      then buffer (a - offset) else disk.byte a := by
  have hread : disk.sectorOf w.byte junk w.sector (a - w.sector * disk.sectorSize) =
      w.byte a := by
    rw [sectorOf, if_pos (by omega), Nat.add_sub_cancel' ha.1]
  rw [BlockDisk.sectorBack, moveBytes_apply, hread, hw.byte]
  unfold moved
  rw [Nat.succ_mul]
  by_cases hnew : offset - w.sector * disk.sectorSize ≤ a - w.sector * disk.sectorSize ∧
      a - w.sector * disk.sectorSize < offset - w.sector * disk.sectorSize +
        (min size (w.sector * disk.sectorSize + disk.sectorSize - offset) -
          min size (w.sector * disk.sectorSize - offset))
  · rw [if_pos hnew, if_pos (by omega)]
    congr 1
    omega
  · rw [if_neg hnew]
    by_cases hold : offset ≤ a ∧ a < offset + min size (w.sector * disk.sectorSize - offset)
    · rw [if_pos hold, if_pos (by omega)]
    · rw [if_neg hold, if_neg (by omega)]

theorem WriteBefore.next {w : BlockWriting} (junk : Nat → UInt8)
    (hw : disk.WriteBefore offset size buffer w) :
    disk.WriteBefore offset size buffer (disk.writeOn junk buffer offset size w) where
  start_le := Nat.le_succ_of_le hw.start_le
  inOff := rfl
  byte a := by
    have hstart := lt_succ_mul hw.start_le
    rw [writeOn]
    dsimp only
    rw [moveBytes_apply]
    by_cases ha : w.sector * disk.sectorSize ≤ a ∧
        a < w.sector * disk.sectorSize + disk.sectorSize
    · rw [if_pos ha, Nat.zero_add, hw.sectorBack ha]
    · rw [if_neg ha, hw.byte]
      unfold moved
      rw [Nat.succ_mul]
      simp only [show offset ≤ a ∧ a < offset + min size (w.sector * disk.sectorSize - offset) ↔
        offset ≤ a ∧ a < offset +
          min size (w.sector * disk.sectorSize + disk.sectorSize - offset) by omega]

theorem WriteBefore.ends {w : BlockWriting} (junk : Nat → UInt8)
    (hw : disk.WriteBefore offset size buffer w) (hsize : size < 2 ^ 31)
    (hinside : disk.endSector offset size < disk.sectors)
    (hgood : ∀ s ≤ disk.endSector offset size,
      0 ≤ disk.readResult s ∧ 0 ≤ disk.writeResult s) :
    ∃ w', Loop.Ends (disk.writeRound offset size junk buffer) w ((size : Int), w') ∧
      disk.WriteBefore offset size buffer w' ∧ disk.endSector offset size < w'.sector := by
  generalize hleft : disk.endSector offset size + 1 - w.sector = left
  induction left generalizing w with
  | zero =>
      have hdone : disk.endSector offset size < w.sector := by omega
      exact ⟨w, Loop.Ends.now (by rw [writeRound, if_pos hdone, returned_eq hsize]), hw, hdone⟩
  | succ left ih =>
      have hend : w.sector ≤ disk.endSector offset size := by omega
      obtain ⟨hread, hwrite⟩ := hgood w.sector hend
      obtain ⟨w', hends, hdone⟩ := ih (hw.next junk) (by dsimp only [writeOn]; omega)
      exact ⟨w', hends.of_goes (hw.goes hsize hend (by omega) hread hwrite), hdone⟩

/-! ### The last sector -/

theorem endSector_eq (hsize : size ≠ 0) (hfits : offset + size ≤ 2 ^ 64) :
    disk.endSector offset size = (offset + size - 1) / disk.sectorSize := by
  have hlast : sub64 ((offset + size) % 2 ^ 64) 1 = offset + size - 1 := by
    unfold sub64
    omega
  rw [endSector, hlast]

theorem moved_behind (hsize : size ≠ 0) (hfits : offset + size ≤ 2 ^ 64)
    (hs : disk.endSector offset size < s) : disk.moved offset size s = size := by
  have hlast := Nat.lt_div_mul_add (a := offset + size - 1) disk.sectorSize_pos
  have hmul := Nat.mul_le_mul_right disk.sectorSize (Nat.succ_le_of_lt hs)
  rw [Nat.succ_mul, endSector_eq hsize hfits] at hmul
  unfold moved
  omega

theorem startSector_le (disk : BlockDisk) (hsize : size ≠ 0) (hfits : offset + size ≤ 2 ^ 64) :
    disk.startSector offset ≤ disk.endSector offset size := by
  rw [endSector_eq hsize hfits]
  exact Nat.div_le_div_right (by omega)

/-- The last sector of a transfer is on the device exactly when its last byte is. -/
theorem endSector_lt_iff (hsize : size ≠ 0) (hfits : offset + size ≤ 2 ^ 64) :
    disk.endSector offset size < disk.sectors ↔ offset + size ≤ disk.capacity := by
  rw [endSector_eq hsize hfits, Nat.div_lt_iff_lt_mul disk.sectorSize_pos, capacity]
  omega

theorem accesses_le (hsize : size ≠ 0) (hfits : offset + size ≤ 2 ^ 64) :
    disk.endSector offset size + 1 - disk.startSector offset ≤
      size / disk.sectorSize + 2 := by
  have hpos := disk.sectorSize_pos
  have hlast := Nat.div_mul_le_self (offset + size - 1) disk.sectorSize
  have hstart := Nat.lt_div_mul_add (a := offset) hpos
  have hcount := Nat.lt_div_mul_add (a := size) hpos
  rw [endSector_eq hsize hfits, startSector]
  have hmul : (offset + size - 1) / disk.sectorSize * disk.sectorSize <
      (offset / disk.sectorSize + size / disk.sectorSize + 2) * disk.sectorSize := by
    rw [Nat.add_mul, Nat.add_mul]
    omega
  have hlt := Nat.lt_of_mul_lt_mul_right hmul
  rw [Nat.sub_le_iff_le_add, Nat.add_comm _ (offset / disk.sectorSize), ← Nat.add_assoc]
  exact hlt

end BlockDisk

/-! ### Whole transfers -/

variable {disk : BlockDisk} {junk buffer : Nat → UInt8} {offset size : Nat}

/-- `block_read` comes to an end, with an error or with all the bytes. -/
theorem blockRead_done (drivers : BlockDrivers) (device : BlockDevice)
    (junk buffer : Nat → UInt8) (hdevice : drivers.Has device) (hsize : size < 2 ^ 31)
    (hinside : disk.endSector offset size < disk.sectors)
    (hstart : disk.startSector offset ≤ disk.endSector offset size + 1) :
    ∃ out, (∃ fuel, blockRead drivers device disk junk offset buffer size fuel = some out) ∧
      disk.ReadDone offset size buffer out := by
  obtain ⟨out, ⟨fuel, hrun⟩, hdone⟩ :=
    (disk.readBefore_start offset size buffer).ends junk hsize hinside
  exact ⟨out, ⟨fuel, by rw [blockRead, if_pos hdevice, hrun]⟩, hdone hstart hstart⟩

/-- Within a device whose driver reports no error, a read gives the bytes of the device and
a write changes them and no others. -/
theorem block_byte_array (drivers : BlockDrivers) (device : BlockDevice) (disk : BlockDisk)
    (junk buffer : Nat → UInt8) (offset size : Nat) (hdevice : drivers.Has device)
    (hgood : ∀ s < disk.sectors, 0 ≤ disk.readResult s ∧ 0 ≤ disk.writeResult s)
    (hsize : 1 ≤ size ∧ size < 2 ^ 31) (hfits : offset + size ≤ disk.capacity) :
    (∃ fuel r, blockRead drivers device disk junk offset buffer size fuel =
        some ((size : Int), r) ∧
      ∀ i, r.buffer i = if i < size then disk.byte (offset + i) else buffer i) ∧
    ∃ fuel w, blockWrite drivers device disk junk offset buffer size fuel =
        some ((size : Int), w) ∧
      ∀ a, w.byte a =
        if offset ≤ a ∧ a < offset + size then buffer (a - offset) else disk.byte a := by
  have hpos : size ≠ 0 := Nat.ne_of_gt hsize.1
  have hcapacity : disk.capacity < 2 ^ 63 := disk.size_lt
  have hmax : offset + size ≤ 2 ^ 64 := by omega
  have hend := (BlockDisk.endSector_lt_iff hpos hmax).mpr hfits
  constructor
  · obtain ⟨⟨result, r⟩, ⟨fuel, hrun⟩, hdone⟩ := blockRead_done drivers device junk buffer
      hdevice hsize.2 hend
      (Nat.le_succ_of_le (disk.startSector_le hpos hmax))
    rcases hdone.result with ⟨-, s, -, hs, herror⟩ | ⟨hresult, hbefore, hbehind⟩
    · exact absurd (hgood s (Nat.lt_of_le_of_lt hs hend)).1 (Int.not_le.mpr herror)
    · obtain rfl : result = size := hresult
      refine ⟨fuel, r, hrun, fun i => ?_⟩
      have hbyte := hbefore.buffer i
      rwa [BlockDisk.moved_behind hpos hmax hbehind] at hbyte
  · obtain ⟨w, ⟨fuel, hrun⟩, hbefore, hbehind⟩ :=
      (disk.writeBefore_start offset size buffer).ends junk hsize.2 hend
        fun s hs => hgood s (Nat.lt_of_le_of_lt hs hend)
    refine ⟨fuel, w, by rw [blockWrite, if_pos hdevice, hrun], fun a => ?_⟩
    have hbyte := hbefore.byte a
    rwa [BlockDisk.moved_behind hpos hmax hbehind] at hbyte

/-- A sector of a healthy disk of two sectors with three bytes each. -/
def sixBytes : BlockDisk where
  sectorSize := 3
  sectors := 2
  byte := Nat.toUInt8
  readResult s := if s < 2 then 0 else eInval
  writeResult s := if s < 2 then 0 else eInval
  sectorSize_pos := by decide
  sectorSize_le := by decide
  size_lt := by decide

/-- The bytes 2 to 4, over the end of a sector. -/
theorem sixBytes_transfer :
    (∃ fuel r, blockRead (fun _ => true) ⟨1, 0⟩ sixBytes (fun _ => 0) 2 (fun _ => 9) 3 fuel =
        some (3, r) ∧ ∀ i, r.buffer i = if i < 3 then (2 + i).toUInt8 else 9) ∧
    ∃ fuel w, blockWrite (fun _ => true) ⟨1, 0⟩ sixBytes (fun _ => 0) 2 (fun _ => 9) 3 fuel =
        some (3, w) ∧ ∀ a, w.byte a = if 2 ≤ a ∧ a < 2 + 3 then 9 else a.toUInt8 :=
  block_byte_array (fun _ => true) ⟨1, 0⟩ sixBytes (fun _ => 0) (fun _ => 9) 2 3 (by decide)
    (by
      intro s hs
      have hs : s < 2 := hs
      simp only [sixBytes, if_pos hs]
      decide)
    (by decide) (by decide)

/-! ### Arguments at the ends of their ranges -/

/-- A read is bounded, and reports what it has read. -/
structure HonestRead (disk : BlockDisk) (offset size : Nat) (out : Int × BlockReading) :
    Prop where
  accesses : out.2.accesses.length ≤ size / disk.sectorSize + 2
  bytes : out.1 = size → ∀ i < size,
    offset + i < disk.capacity ∧ out.2.buffer i = disk.byte (offset + i)
  empty : size = 0 → out.1 = 0 ∧ out.2.accesses = []
  behind : size ≠ 0 → disk.capacity < offset + size → out.1 < 0

/-- The last sector of the transfer is computed without a wrap, or is in front of the first
one for an empty transfer. -/
def EndTells (disk : BlockDisk) (offset size : Nat) : Prop :=
  if size = 0 then offset ≠ 0 ∧ disk.sectorSize ∣ offset else offset + size ≤ 2 ^ 64

theorem endSector_zero (hoffset : offset < 2 ^ 64) :
    disk.endSector offset 0 = if offset = 0 then (2 ^ 64 - 1) / disk.sectorSize
      else (offset - 1) / disk.sectorSize := by
  have hlast : sub64 ((offset + 0) % 2 ^ 64) 1 =
      if offset = 0 then 2 ^ 64 - 1 else offset - 1 := by
    unfold sub64
    split <;> omega
  rw [BlockDisk.endSector, hlast]
  split <;> rfl

/-- An empty transfer asks for no sector exactly behind the first one, at the beginning of
a sector. -/
theorem endSector_lt_start_iff (hoffset : offset < 2 ^ 64) :
    disk.endSector offset 0 < disk.startSector offset ↔ EndTells disk offset 0 := by
  rw [endSector_zero hoffset, EndTells, if_pos rfl, BlockDisk.startSector]
  by_cases hzero : offset = 0
  · subst hzero
    simp
  · obtain ⟨before, rfl⟩ := Nat.exists_eq_succ_of_ne_zero hzero
    rw [if_neg hzero, Nat.succ_sub_one, Nat.succ_div]
    by_cases hdvd : disk.sectorSize ∣ before + 1
    · simp [hdvd]
    · simp [hdvd]

theorem blockRead_none (drivers : BlockDrivers) (device : BlockDevice)
    (junk buffer : Nat → UInt8) (hdevice : drivers.Has device) (hsize : size < 2 ^ 31)
    (hend : disk.endSector offset size < disk.startSector offset) :
    blockRead drivers device disk junk offset buffer size 1 =
      some ((size : Int), ⟨disk.startSector offset, 0, buffer, []⟩) := by
  rw [blockRead, if_pos hdevice]
  exact Loop.run_done (by rw [BlockDisk.readRound, if_pos hend, returned_eq hsize])

/-- A transfer whose last sector is not in front of its first one asks for that one. -/
theorem blockRead_accesses (drivers : BlockDrivers) (device : BlockDevice)
    (hdevice : drivers.Has device)
    (hend : disk.startSector offset ≤ disk.endSector offset size) {fuel : Nat}
    {out : Int × BlockReading}
    (hrun : blockRead drivers device disk junk offset buffer size fuel = some out) :
    out.2.accesses ≠ [] := by
  rw [blockRead, if_pos hdevice] at hrun
  have hinv : ∀ r : BlockReading, r.accesses ≠ [] ∨ r.sector ≤ disk.endSector offset size →
      ∀ next, disk.readRound offset size junk r = some next →
        (match next with | .inl r' => r' | .inr out => out.2).accesses ≠ [] := by
    intro r hr next hround
    rw [BlockDisk.readRound] at hround
    split at hround
    · obtain rfl := Option.some.inj hround
      exact hr.resolve_right (by omega)
    · dsimp only at hround
      split at hround
      · obtain rfl := Option.some.inj hround
        simp
      · obtain rfl := Option.some.inj hround
        simp
  refine Loop.run_invariant
    (fun r : BlockReading => r.accesses ≠ [] ∨ r.sector ≤ disk.endSector offset size)
    (fun out : Int × BlockReading => out.2.accesses ≠ []) ?_ ?_ (.inr hend) hrun
  · intro r r' hr hround
    exact .inl (hinv r hr _ hround)
  · intro r out hr hround
    exact hinv r hr _ hround

theorem blockRead_unique {drivers : BlockDrivers} {device : BlockDevice} {fuel fuel' : Nat}
    {out out' : Int × BlockReading} (hdevice : drivers.Has device)
    (hrun : blockRead drivers device disk junk offset buffer size fuel = some out)
    (hrun' : blockRead drivers device disk junk offset buffer size fuel' = some out') :
    out = out' := by
  rw [blockRead, if_pos hdevice] at hrun hrun'
  exact Loop.Ends.unique ⟨fuel, hrun⟩ ⟨fuel', hrun'⟩

/-- A transfer behind the largest offset ends in front of the first sector. -/
theorem endSector_wraps (disk : BlockDisk) (hoffset : offset < 2 ^ 64) (hsize : size < 2 ^ 31)
    (hwrap : 2 ^ 64 < offset + size) :
    disk.endSector offset size < disk.startSector offset := by
  have hlast : sub64 ((offset + size) % 2 ^ 64) 1 < 2 ^ 31 := by
    unfold sub64
    omega
  have hend := Nat.div_le_self (sub64 ((offset + size) % 2 ^ 64) 1) disk.sectorSize
  have hstart : offset / 4096 ≤ offset / disk.sectorSize :=
    Nat.div_le_div_left disk.sectorSize_le disk.sectorSize_pos
  unfold BlockDisk.endSector BlockDisk.startSector
  generalize offset / disk.sectorSize = start at hstart ⊢
  generalize sub64 ((offset + size) % 2 ^ 64) 1 / disk.sectorSize = last at hend ⊢
  omega

/-- The driver refuses one of the sectors that a transfer over the end of the device comes
to.  Behind the largest number of a sector the loop goes on at the first one. -/
def RefusesBehind (disk : BlockDisk) (offset size : Nat) : Prop :=
  size ≠ 0 → disk.capacity < offset + size → ∃ k < size / disk.sectorSize + 2,
    (disk.startSector offset + k ≤ disk.endSector offset size ∨
      disk.endSector offset size = 2 ^ 64 - 1) ∧
    disk.readResult ((disk.startSector offset + k) % 2 ^ 64) < 0

theorem BlockDisk.ReadDone.honest {out : Int × BlockReading}
    (hdone : disk.ReadDone offset size buffer out) (hpos : size ≠ 0)
    (hfits : offset + size ≤ disk.capacity) : HonestRead disk offset size out := by
  have hcapacity : disk.capacity < 2 ^ 63 := disk.size_lt
  have hmax : offset + size ≤ 2 ^ 64 := by omega
  refine ⟨hdone.accesses.trans (BlockDisk.accesses_le hpos hmax), fun hresult i hi => ?_,
    fun hzero => absurd hzero hpos, fun _ hbehind => absurd hfits (Nat.not_le.mpr hbehind)⟩
  refine ⟨by omega, ?_⟩
  rcases hdone.result with ⟨herror, -⟩ | ⟨-, hbefore, hbehind⟩
  · omega
  · rw [hbefore.buffer, BlockDisk.moved_behind hpos hmax hbehind, if_pos hi]

namespace BlockDisk

/-- The loop has come to a sector by asking for all sectors before it. -/
def CameTo (disk : BlockDisk) (offset size : Nat) (r : BlockReading) : Prop :=
  r.sector = (disk.startSector offset + r.accesses.length) % 2 ^ 64 ∧
    (disk.endSector offset size = 2 ^ 64 - 1 ∨
      disk.startSector offset + r.accesses.length ≤ disk.endSector offset size + 1)

theorem endSector_lt (disk : BlockDisk) (offset size : Nat) : disk.endSector offset size < 2 ^ 64 :=
  Nat.lt_of_le_of_lt (Nat.div_le_self _ _) (Nat.mod_lt _ (by decide))

/-- Where one round comes to from a sector. -/
theorem CameTo.round {r : BlockReading} {next : BlockReading ⊕ Int × BlockReading}
    (hr : disk.CameTo offset size r)
    (hround : disk.readRound offset size junk r = some next) :
    (∃ r', next = .inl r' ∧ disk.CameTo offset size r' ∧
        r'.accesses.length = r.accesses.length + 1) ∨
      (∃ r', next = .inr (disk.readResult r.sector, r') ∧ disk.readResult r.sector < 0 ∧
        r.sector ≤ disk.endSector offset size ∧
        r'.accesses.length = r.accesses.length + 1) ∨
      next = .inr (returned size, r) ∧ disk.endSector offset size < r.sector := by
  obtain ⟨hsector, hway⟩ := hr
  have hend := disk.endSector_lt offset size
  rw [readRound] at hround
  split at hround
  · rename_i hover
    exact .inr (.inr ⟨(Option.some.inj hround).symm, hover⟩)
  · rename_i hle
    dsimp only at hround
    split at hround
    · rename_i hrefused
      obtain rfl := Option.some.inj hround
      exact .inr (.inl ⟨_, rfl, hrefused, Nat.le_of_not_lt hle, List.length_append⟩)
    · obtain rfl := Option.some.inj hround
      refine .inl ⟨_, rfl, ⟨?_, ?_⟩, List.length_append⟩
      · dsimp only
        rw [List.length_append, List.length_singleton]
        omega
      · dsimp only
        rw [List.length_append, List.length_singleton]
        omega

theorem cameTo_start (hstart : disk.startSector offset ≤ disk.endSector offset size)
    (buffer : Nat → UInt8) :
    disk.CameTo offset size ⟨disk.startSector offset, 0, buffer, []⟩ := by
  have hend := disk.endSector_lt offset size
  refine ⟨?_, .inr (Nat.le_succ_of_le hstart)⟩
  dsimp only
  rw [List.length_nil]
  omega

/-- The loop comes to a refused sector, and reports the error. -/
theorem CameTo.ends {r : BlockReading} {k : Nat} (junk : Nat → UInt8)
    (hr : disk.CameTo offset size r)
    (hk : disk.startSector offset + r.accesses.length + k ≤ disk.endSector offset size ∨
      disk.endSector offset size = 2 ^ 64 - 1)
    (hrefused : disk.readResult
      ((disk.startSector offset + r.accesses.length + k) % 2 ^ 64) < 0) :
    ∃ out, Loop.Ends (disk.readRound offset size junk) r out ∧ out.1 < 0 ∧
      out.2.accesses.length ≤ r.accesses.length + k + 1 := by
  have hend := disk.endSector_lt offset size
  have hsector := hr.1
  induction k generalizing r with
  | zero =>
      rw [Nat.add_zero] at hk hrefused
      rw [← hsector] at hrefused
      refine ⟨_, Loop.Ends.now (by rw [readRound, if_neg (by omega), if_pos hrefused]),
        hrefused, ?_⟩
      rw [List.length_append, List.length_singleton, Nat.add_zero]
  | succ k ih =>
      have hle : r.sector ≤ disk.endSector offset size := by omega
      obtain ⟨next, hround⟩ : ∃ next, disk.readRound offset size junk r = some next := by
        rw [readRound, if_neg (Nat.not_lt.mpr hle)]
        dsimp only
        split <;> exact ⟨_, rfl⟩
      rcases hr.round hround with ⟨r', rfl, hcame, hlength⟩ |
        ⟨r', rfl, herror, -, hlength⟩ | ⟨rfl, hover⟩
      · obtain ⟨out, hends, hneg, hcount⟩ := ih hcame (by omega)
          (by rwa [hlength, show disk.startSector offset + (r.accesses.length + 1) + k =
            disk.startSector offset + r.accesses.length + (k + 1) by omega]) hcame.1
        exact ⟨out, hends.of_goes hround, hneg, by omega⟩
      · exact ⟨_, Loop.Ends.now hround, herror, by dsimp only; omega⟩
      · exact absurd hle (Nat.not_le.mpr hover)

end BlockDisk

/-- A transfer over the end of the device reports an error within its bound exactly when
the driver refuses a sector in time. -/
theorem blockRead_behind_iff (drivers : BlockDrivers) (device : BlockDevice)
    (junk buffer : Nat → UInt8) (hdevice : drivers.Has device) (hpos : size ≠ 0)
    (hsize : size < 2 ^ 31) (hmax : offset + size ≤ 2 ^ 64)
    (hbehind : disk.capacity < offset + size) :
    (∃ fuel out, blockRead drivers device disk junk offset buffer size fuel = some out ∧
        HonestRead disk offset size out) ↔ RefusesBehind disk offset size := by
  have hcame := BlockDisk.cameTo_start (disk.startSector_le hpos hmax) buffer
  rw [RefusesBehind]
  simp only [blockRead, if_pos hdevice, ne_eq, hpos, not_false_eq_true, hbehind, forall_const]
  constructor
  · rintro ⟨fuel, out, hrun, hhonest⟩
    have hneg := hhonest.behind hpos hbehind
    have hcount := hhonest.accesses
    have hrefused := Loop.run_invariant (disk.CameTo offset size)
      (fun out : Int × BlockReading => out.1 < 0 → ∃ k, out.2.accesses.length = k + 1 ∧
        (disk.startSector offset + k ≤ disk.endSector offset size ∨
          disk.endSector offset size = 2 ^ 64 - 1) ∧
        disk.readResult ((disk.startSector offset + k) % 2 ^ 64) < 0)
      ?_ ?_ hcame hrun hneg
    · obtain ⟨k, hk, hrefused⟩ := hrefused
      exact ⟨k, by omega, hrefused⟩
    · intro r r' hr hround
      rcases hr.round hround with ⟨r'', heq, hr', -⟩ | ⟨r'', heq, -⟩ | ⟨heq, -⟩
      · obtain rfl := Sum.inl.inj heq
        exact hr'
      · cases heq
      · cases heq
    · intro r out hr hround herror
      have hsector := hr.1
      have hway := hr.2
      have hend := disk.endSector_lt offset size
      rcases hr.round hround with ⟨r'', heq, -⟩ | ⟨r'', heq, hresult, hle, hlength⟩ | ⟨heq, -⟩
      · cases heq
      · obtain rfl := Sum.inr.inj heq
        exact ⟨r.accesses.length, hlength, by omega, hsector ▸ hresult⟩
      · obtain rfl := Sum.inr.inj heq
        rw [returned_eq hsize] at herror
        exact absurd herror (Int.not_lt.mpr (Int.natCast_nonneg size))
  · rintro ⟨k, hk, hway, hrefused⟩
    obtain ⟨out, ⟨fuel, hrun⟩, hneg, hcount⟩ := hcame.ends junk hway hrefused
    refine ⟨fuel, out, hrun, ?_, fun hresult => ?_, fun hzero => absurd hzero hpos,
      fun _ _ => hneg⟩
    · rw [List.length_nil] at hcount
      omega
    · omega

/-- A read is bounded and honest exactly when its last sector is computed right, and a
driver is asked that refuses what is behind the device. -/
theorem block_read_honest_iff (drivers : BlockDrivers) (device : BlockDevice)
    (disk : BlockDisk) (junk buffer : Nat → UInt8) (offset size : Nat)
    (hdevice : drivers.Has device) (hoffset : offset < 2 ^ 64) (hsize : size < 2 ^ 31) :
    (∃ fuel out, blockRead drivers device disk junk offset buffer size fuel = some out ∧
        HonestRead disk offset size out) ↔
      EndTells disk offset size ∧ RefusesBehind disk offset size := by
  have hcapacity : disk.capacity < 2 ^ 63 := disk.size_lt
  by_cases hempty : size = 0
  · subst hempty
    rw [← endSector_lt_start_iff hoffset]
    constructor
    · rintro ⟨fuel, out, hrun, hhonest⟩
      refine ⟨?_, fun hpos => absurd rfl hpos⟩
      by_contra hend
      exact blockRead_accesses drivers device hdevice (Nat.le_of_not_lt hend) hrun
        (hhonest.empty rfl).2
    · rintro ⟨hend, -⟩
      exact ⟨1, _, blockRead_none drivers device junk buffer hdevice hsize hend,
        { accesses := Nat.zero_le _
          bytes := fun _ i hi => absurd hi (Nat.not_lt_zero i)
          empty := fun _ => ⟨rfl, rfl⟩
          behind := fun hpos => absurd rfl hpos }⟩
  · rw [EndTells, if_neg hempty]
    by_cases hmax : offset + size ≤ 2 ^ 64
    · by_cases hfits : offset + size ≤ disk.capacity
      · refine ⟨fun _ => ⟨hmax, fun _ hbehind => absurd hfits (Nat.not_le.mpr hbehind)⟩,
          fun _ => ?_⟩
        obtain ⟨out, ⟨fuel, hrun⟩, hdone⟩ := blockRead_done drivers device junk buffer
          hdevice hsize ((BlockDisk.endSector_lt_iff hempty hmax).mpr hfits)
          (Nat.le_succ_of_le (disk.startSector_le hempty hmax))
        exact ⟨fuel, out, hrun, hdone.honest hempty hfits⟩
      · rw [blockRead_behind_iff drivers device junk buffer hdevice hempty hsize hmax
          (Nat.lt_of_not_le hfits), and_iff_right hmax]
    · refine ⟨?_, fun h => absurd h.1 hmax⟩
      rintro ⟨fuel, out, hrun, hhonest⟩
      have hnone := blockRead_none drivers device junk buffer hdevice hsize
        (endSector_wraps disk hoffset hsize (Nat.lt_of_not_le hmax))
      obtain rfl := blockRead_unique hdevice hrun hnone
      have hbyte := (hhonest.bytes rfl 0 (Nat.pos_of_ne_zero hempty)).1
      omega

/-- The bytes 2 to 4 are read, and a read from byte 4 over the end is refused.  A driver
that refuses nothing serves it. -/
theorem block_read_over_end :
    (∃ fuel out, blockRead (fun _ => true) ⟨1, 0⟩ sixBytes (fun _ => 0) 2 (fun _ => 9) 3 fuel =
        some out ∧ HonestRead sixBytes 2 3 out) ∧
    (∃ fuel out, blockRead (fun _ => true) ⟨1, 0⟩ sixBytes (fun _ => 0) 4 (fun _ => 9) 4 fuel =
        some out ∧ HonestRead sixBytes 4 4 out) ∧
    ¬ ∃ fuel out, blockRead (fun _ => true) ⟨1, 0⟩ { sixBytes with readResult := fun _ => 0 }
        (fun _ => 0) 4 (fun _ => 9) 4 fuel = some out ∧
        HonestRead { sixBytes with readResult := fun _ => 0 } 4 4 out := by
  refine ⟨(block_read_honest_iff _ _ _ _ _ _ _ (by decide) (by decide) (by decide)).mpr
      ⟨by unfold EndTells; decide, fun _ hbehind => absurd hbehind (by decide)⟩,
    (block_read_honest_iff _ _ _ _ _ _ _ (by decide) (by decide) (by decide)).mpr
      ⟨by unfold EndTells; decide, fun _ _ => ⟨1, by decide, .inl (by decide), by decide⟩⟩,
    fun hhonest => ?_⟩
  obtain ⟨-, hrefuses⟩ :=
    (block_read_honest_iff _ _ _ _ _ _ _ (by decide) (by decide) (by decide)).mp hhonest
  obtain ⟨k, -, -, hrefused⟩ := hrefuses (by decide) (by decide)
  exact absurd hrefused (Int.lt_irrefl 0)

/-- A read of nothing at the beginning of the device asks for all of its sectors, and
reports the error of the one behind them. -/
theorem block_read_nothing_fails :
    (∃ fuel r, blockRead (fun _ => true) ⟨1, 0⟩ sixBytes (fun _ => 0) 0 (fun _ => 9) 0 fuel =
        some (eInval, r) ∧ r.accesses = [0, 1, 2]) ∧
    ¬ ∃ fuel out, blockRead (fun _ => true) ⟨1, 0⟩ sixBytes (fun _ => 0) 0 (fun _ => 9) 0
        fuel = some out ∧ HonestRead sixBytes 0 0 out := by
  have hrun : blockRead (fun _ => true) ⟨1, 0⟩ sixBytes (fun _ => 0) 0 (fun _ => 9) 0 3 =
      some (eInval, ⟨2, 0, fun _ => 9, [0, 1, 2]⟩) := by
    rfl
  refine ⟨⟨3, _, hrun, rfl⟩, ?_⟩
  rintro ⟨fuel, out, hout, hhonest⟩
  obtain rfl := blockRead_unique (by decide) hout hrun
  exact absurd (hhonest.empty rfl).1 (by decide)

end GlitchedOS
