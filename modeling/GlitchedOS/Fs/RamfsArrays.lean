/-
Files of a ramfs as arrays of bytes.  Writes and reads of a file are those of an array with
zeros behind its end; a truncation is that of the array as long as what it leaves in the
blocks behind the shorter size is zero.
-/
import GlitchedOS.Fs.RamfsVolume
import GlitchedOS.Lib.Padded
import GlitchedOS.Lib.Run

namespace GlitchedOS

inductive RamfsFileOp where
  | write (buffer : List UInt8) (offset : Nat)
  | read (offset size : Nat)
  | truncate (newSize : Nat)

/-- The call on an array of bytes: its answer, and the array after it. -/
def arrayCall (bytes : List UInt8) : RamfsFileOp → (Int × List UInt8) × List UInt8
  | .write buffer offset => ((buffer.length, []), Padded.overwrite 0 bytes offset buffer)
  | .read offset size =>
    (((Padded.slice bytes offset size).length, Padded.slice bytes offset size), bytes)
  | .truncate newSize => ((0, []), Padded.resize 0 bytes newSize)

/-- Calls on an array of bytes, one after the other. -/
def arrayCalls : List UInt8 → List RamfsFileOp → List (Int × List UInt8) × List UInt8
  | bytes, [] => ([], bytes)
  | bytes, op :: rest =>
    let (answer, bytes) := arrayCall bytes op
    let (answers, bytes) := arrayCalls bytes rest
    (answer :: answers, bytes)

/-- The call is one that the driver promises to carry out: a write of some bytes or a read,
within the memory there is. -/
def RamfsFileOp.InRange : RamfsFileOp → Prop
  | .write buffer offset => buffer ≠ [] ∧ offset + buffer.length < 2 ^ 63
  | .read offset size => offset + size < 2 ^ 63
  | .truncate _ => False

namespace RamfsVolume

open Ramfs (byteAt truncateEnd)

def fileCall (v : RamfsVolume) (p : Nat) :
    RamfsFileOp → Option ((Int × List UInt8) × RamfsVolume)
  | .write buffer offset => (v.write 0 p buffer offset).map fun (res, v) => ((res, []), v)
  | .read offset size => (v.read (0, []) p offset size).map fun answer => (answer, v)
  | .truncate newSize => (v.truncate p newSize).map fun (res, v) => ((res, []), v)

def fileCalls (p : Nat) :
    RamfsVolume → List RamfsFileOp → Option (List (Int × List UInt8) × RamfsVolume)
  | v, [] => some ([], v)
  | v, op :: rest => do
    let (answer, v) ← v.fileCall p op
    let (answers, v) ← fileCalls p v rest
    some (answer :: answers, v)

/-- A regular file as `ramfs_create_file` makes it. -/
structure FreshFile (v : RamfsVolume) (p : Nat) : Prop where
  writable : v.fs.readOnly = false
  live : p ∈ v.fs.live
  file : (v.fs.dirents p).type = .file
  size : (v.fs.dirents p).fileSize = 0
  blocks : v.firstBlock p = none

/-- The bytes that a truncation leaves in the blocks, and that are not in the file before
or after it, are zero. -/
def TruncateClears (v : RamfsVolume) (p newSize : Nat) : Prop :=
  ∀ l, v.memory.BlockList (v.firstBlock p) l →
    ∀ i, min (v.fs.dirents p).fileSize newSize ≤ i →
      i < truncateEnd l.length (v.fs.dirents p).fileSize newSize →
        byteAt (v.memory.contents l) i = 0

/-- The file holds an array of bytes, with zeros behind it. -/
structure Holds (v : RamfsVolume) (p : Nat) (l : List Nat) (bytes : List UInt8) : Prop
    extends FileAt v p l where
  size : (v.fs.dirents p).fileSize = bytes.length
  bytes : ∀ i, byteAt (v.memory.contents l) i = bytes.getD i 0

/-- A call after which a file still holds an array. -/
def KeepsArray (v : RamfsVolume) (p : Nat) : RamfsFileOp → Prop
  | .write buffer offset => offset + buffer.length < 2 ^ 64
  | .read offset size => offset + size < 2 ^ 64
  | .truncate newSize => v.TruncateFits p newSize ∧ v.TruncateClears p newSize

variable {v v' : RamfsVolume} {p offset size newSize : Nat} {l l' : List Nat}
  {buffer bytes : List UInt8} {op : RamfsFileOp} {ops : List RamfsFileOp}

theorem FreshFile.fileAt (h : v.FreshFile p) : v.FileAt p [] where
  writable := h.writable
  live := h.live
  file := h.file
  list := by
    rw [h.blocks]
    exact ⟨rfl, fun a ha => absurd ha List.not_mem_nil⟩
  sized := Ramfs.sized_nil
  covers := by
    rw [h.size]
    exact Nat.zero_le _

theorem FreshFile.holds (h : v.FreshFile p) : v.Holds p [] [] where
  toFileAt := h.fileAt
  size := h.size
  bytes i := Ramfs.byteAt_behind (by
    rw [RamfsMemory.length_contents, List.length_nil, Nat.zero_mul]
    exact Nat.zero_le i)

theorem Holds.write (h : v.Holds p l bytes) (buffer : List UInt8)
    (hrange : offset + buffer.length < 2 ^ 64) :
    ∃ v' l', v.write 0 p buffer offset = some ((buffer.length : Int), v') ∧
      v'.Holds p l' (Padded.overwrite 0 bytes offset buffer) := by
  obtain ⟨v', l', hwrite, hfile, hsize, -, hfilled⟩ := h.toFileAt.write 0 buffer offset
  refine ⟨v', l', hwrite, hfile, ?_, fun i => ?_⟩
  · rw [hsize, h.size, Nat.mod_eq_of_lt hrange, Padded.length_overwrite]
  · rw [hfilled.bytes, Padded.getD_overwrite, h.bytes]

theorem Holds.read (h : v.Holds p l bytes) (hrange : offset + size < 2 ^ 64) :
    v.read (0, []) p offset size =
      some (((Padded.slice bytes offset size).length : Int), Padded.slice bytes offset size) := by
  have hread := h.toFileAt.read (0, []) hrange
  have hbytes : (List.range' offset (min size ((v.fs.dirents p).fileSize - offset))).map
      (byteAt (v.memory.contents l)) = Padded.slice bytes offset size := by
    rw [Padded.slice_eq_map 0, h.size]
    exact List.map_congr_left fun i _ => h.bytes i
  rw [hbytes] at hread
  exact hread

/-- What a truncation keeps is in front of where the bytes come to an end. -/
theorem FileAt.min_le_truncateEnd (h : v.FileAt p l) (hfits : v.TruncateFits p newSize) :
    min (v.fs.dirents p).fileSize newSize ≤
      truncateEnd l.length (v.fs.dirents p).fileSize newSize := by
  have hcovers := h.covers
  have hcount := Nat.le_trans (Ramfs.ramfsBlockCount_le _) (Ramfs.le_blocks_iff.mp hcovers)
  have hnew := (blockCount_of_fits hfits).ge
  have hdiv := Nat.div_add_mod' newSize ramfsBlockSize
  by_cases hshrink : ramfsBlockCount newSize < ramfsBlockCount (v.fs.dirents p).fileSize
  · have hkept : ramfsBlockCount newSize ≤
        Ramfs.keptBlocks l.length (v.fs.dirents p).fileSize newSize := by
      rw [Ramfs.keptBlocks]
      omega
    refine Nat.le_trans (Nat.min_le_right _ _) ?_
    have hroom := Ramfs.le_blocks_iff.mpr (Nat.le_trans hnew hkept)
    rw [truncateEnd]
    split
    next hclear =>
      -- the size ends inside of the last block that is kept
      have hblock : newSize / ramfsBlockSize <
          Ramfs.keptBlocks l.length (v.fs.dirents p).fileSize newSize :=
        (Nat.div_lt_iff_lt_mul Ramfs.ramfsBlockSize_pos).mpr (Nat.lt_of_le_of_ne hroom fun heq =>
          hclear.2.2 (by rw [heq, Nat.mul_mod_left]))
      have hmul := Nat.mul_le_mul_right ramfsBlockSize (Nat.le_sub_one_of_lt hblock)
      omega
    next => exact hroom
  · have hkept : Ramfs.keptBlocks l.length (v.fs.dirents p).fileSize newSize = l.length := by
      rw [Ramfs.keptBlocks]
      omega
    rw [Ramfs.truncateEnd_eq (by omega), hkept]
    exact Nat.le_trans (Nat.min_le_left _ _) hcovers

theorem Holds.truncate (h : v.Holds p l bytes) (hfits : v.TruncateFits p newSize)
    (hclears : v.TruncateClears p newSize) :
    ∃ v' l', v.truncate p newSize = some (0, v') ∧
      v'.Holds p l' (Padded.resize 0 bytes newSize) := by
  obtain ⟨v', l', gone, htruncate, hfile, hsize, -, hcut⟩ := h.toFileAt.truncate hfits
  have hend := h.toFileAt.min_le_truncateEnd hfits
  refine ⟨v', l', htruncate, hfile, ?_, fun i => ?_⟩
  · rw [hsize, Padded.length_resize]
  · have hclear := hclears l h.list i
    rw [hcut.bytes, Padded.getD_resize, RamfsMemory.length_contents]
    rw [h.size] at hclear hend ⊢
    rw [h.bytes] at hclear ⊢
    rcases Nat.lt_or_ge i (min bytes.length newSize) with hkept | hbehind
    · rw [if_pos (Nat.lt_of_lt_of_le hkept hend),
        if_pos (Nat.lt_of_lt_of_le hkept (Nat.min_le_right _ _))]
    · have hzero : newSize ≤ i ∨ bytes.getD i 0 = 0 := by
        rcases Nat.lt_or_ge i newSize with hlt | hge
        · exact .inr (List.getD_eq_default _ _ (by omega))
        · exact .inl hge
      split
      next hlt => rw [hclear hbehind hlt, ite_self]
      next =>
        split
        next hnew => exact (hzero.resolve_left (Nat.not_le.mpr hnew)).symm
        next => rfl

/-- One call is that of the array. -/
theorem Holds.fileCall (h : v.Holds p l bytes) (hkeeps : v.KeepsArray p op) :
    ∃ v' l', v.fileCall p op = some ((arrayCall bytes op).1, v') ∧
      v'.Holds p l' (arrayCall bytes op).2 := by
  cases op with
  | write buffer offset =>
      obtain ⟨v', l', hwrite, hholds⟩ := h.write buffer hkeeps
      refine ⟨v', l', ?_, hholds⟩
      rw [RamfsVolume.fileCall, hwrite]
      rfl
  | read offset size =>
      refine ⟨v, l, ?_, h⟩
      rw [RamfsVolume.fileCall, h.read hkeeps]
      rfl
  | truncate newSize =>
      obtain ⟨v', l', htruncate, hholds⟩ := h.truncate hkeeps.1 hkeeps.2
      refine ⟨v', l', ?_, hholds⟩
      rw [RamfsVolume.fileCall, htruncate]
      rfl

theorem keepsArray_of_inRange (h : op.InRange) : v.KeepsArray p op := by
  cases op with
  | write buffer offset => exact Nat.lt_trans h.2 (by decide)
  | read offset size => exact Nat.lt_trans h (by decide)
  | truncate newSize => exact h.elim

/-- Writes and reads are those of the array. -/
theorem Holds.fileCalls (h : v.Holds p l bytes) (hops : ∀ op ∈ ops, op.InRange) :
    ∃ v' l', v.fileCalls p ops = some ((arrayCalls bytes ops).1, v') ∧
      v'.Holds p l' (arrayCalls bytes ops).2 := by
  induction ops generalizing v l bytes with
  | nil => exact ⟨v, l, rfl, h⟩
  | cons op rest ih =>
      obtain ⟨v₁, l₁, hcall, hholds⟩ :=
        h.fileCall (keepsArray_of_inRange (hops op List.mem_cons_self))
      obtain ⟨v', l', hcalls, hholds'⟩ := ih hholds fun op hop =>
        hops op (List.mem_cons_of_mem _ hop)
      refine ⟨v', l', ?_, hholds'⟩
      rw [RamfsVolume.fileCalls, hcall, Option.bind_eq_bind, Option.bind_some]
      dsimp only
      rw [hcalls]
      rfl

/-- A file that is written and read answers like an array of bytes: what is written stands
there, holes are zero, and the size is how far the writes reach. -/
theorem ramfs_files_are_arrays (hfresh : v.FreshFile p) (hops : ∀ op ∈ ops, op.InRange) :
    ∃ v', v.fileCalls p ops = some ((arrayCalls [] ops).1, v') ∧
      (v'.fs.dirents p).fileSize = (arrayCalls [] ops).2.length := by
  obtain ⟨v', l', hcalls, hholds⟩ := hfresh.holds.fileCalls hops
  exact ⟨v', hcalls, hholds.size⟩

/-- A volume with one file, the second thing that was given out. -/
def oneFileMount : RamfsVolume :=
  (((mount false).createFile "a".toList).map Prod.snd).getD (mount false)

theorem oneFileMount_fresh : oneFileMount.FreshFile 1 where
  writable := by decide
  live := by decide
  file := by decide
  size := by decide
  blocks := by decide

/-- A byte behind a hole. -/
def writeBehindHole : List RamfsFileOp := [.write [7] 2, .read 1 5]

theorem ramfs_files_are_arrays_hole :
    ∃ v', oneFileMount.fileCalls 1 writeBehindHole = some ([(1, []), (2, [0, 7])], v') ∧
      (v'.fs.dirents 1).fileSize = 3 := by
  have hops : ∀ op ∈ writeBehindHole, op.InRange := by
    simp [writeBehindHole, RamfsFileOp.InRange]
  exact ramfs_files_are_arrays oneFileMount_fresh hops

end RamfsVolume

end GlitchedOS
