/-
Truncation of ramfs files.  Calls that count the blocks of their sizes right keep blocks for
the size of the file.  What a truncation leaves behind the end of the file comes back with a
later size exactly where it was not zero.
-/
import GlitchedOS.Fs.RamfsArrays

namespace GlitchedOS

/-- The call counts the blocks of its size without a wrap. -/
def RamfsFileOp.Counts : RamfsFileOp → Prop
  | .truncate newSize => newSize + ramfsBlockSize ≤ 2 ^ 64
  | _ => True

/-- The call does not write a byte. -/
def RamfsFileOp.Skips (i : Nat) : RamfsFileOp → Prop
  | .write buffer offset => ¬ (offset ≤ i ∧ i < offset + buffer.length)
  | _ => True

namespace RamfsVolume

open Ramfs (byteAt truncateEnd keptBlocks)

/-- The blocks of a file are a list without end or freed memory in it, and enough for its
size. -/
def BlocksCover (v : RamfsVolume) (p : Nat) : Prop :=
  ∃ l, Chain (fun a => (v.memory.blocks a).next) (v.firstBlock p) l ∧ l.Nodup ∧
    (∀ a ∈ l, a ∉ v.memory.freed) ∧
    ((v.fs.dirents p).fileSize + ramfsBlockSize - 1) / ramfsBlockSize ≤ l.length

/-- A regular file, with some bytes of its blocks that are zero. -/
structure ZeroAt (v : RamfsVolume) (p : Nat) (l : List Nat) (zero : Nat → Prop) : Prop
    extends FileAt v p l where
  size_lt : (v.fs.dirents p).fileSize < 2 ^ 64
  zeros : ∀ i, zero i → byteAt (v.memory.contents l) i = 0

variable {v v' : RamfsVolume} {p offset size newSize i : Nat} {l l' : List Nat}
  {zero : Nat → Prop} {op : RamfsFileOp} {ops : List RamfsFileOp}
  {answer : Int × List UInt8} {answers : List (Int × List UInt8)}

theorem FreshFile.zeroAt (h : v.FreshFile p) : v.ZeroAt p [] fun _ => True where
  toFileAt := h.fileAt
  size_lt := by
    rw [h.size]
    decide
  zeros i _ := by
    have hbytes := h.holds.bytes i
    rwa [List.getD_nil] at hbytes

/-- A call with a result keeps the blocks of the file, and the zeros that it does not
write. -/
theorem ZeroAt.fileCall (h : v.ZeroAt p l zero) (hcounts : op.Counts)
    (hcall : v.fileCall p op = some (answer, v')) :
    ∃ l', v'.ZeroAt p l' fun i => zero i ∧ op.Skips i := by
  cases op with
  | write buffer offset =>
      obtain ⟨v₁, l', hwrite, hfile, hsize, -, hfilled⟩ := h.toFileAt.write 0 buffer offset
      rw [RamfsVolume.fileCall, hwrite] at hcall
      cases hcall
      refine ⟨l', hfile, ?_, ?_⟩
      · rw [hsize]
        exact Nat.max_lt.mpr ⟨h.size_lt, Nat.mod_lt _ (Nat.two_pow_pos 64)⟩
      · rintro i ⟨hzero, hskips⟩
        rw [hfilled.bytes, if_neg hskips]
        exact h.zeros i hzero
  | read offset size =>
      rw [RamfsVolume.fileCall] at hcall
      obtain ⟨found, -, heq⟩ := Option.map_eq_some_iff.mp hcall
      cases heq
      exact ⟨l, h.toFileAt, h.size_lt, fun i hzero => h.zeros i hzero.1⟩
  | truncate newSize =>
      rw [RamfsVolume.fileCall] at hcall
      rcases Nat.lt_or_ge (RamfsMemory.truncateRounds (v.firstBlock p)
          (v.fs.dirents p).fileSize newSize) (2 ^ 31) with hfew | hmany
      · obtain ⟨v₁, l', gone, htruncate, hfile, hsize, -, hcut⟩ :=
          h.toFileAt.truncate ⟨hcounts, hfew⟩
        rw [htruncate] at hcall
        cases hcall
        refine ⟨l', hfile, ?_, ?_⟩
        · rw [hsize]
          have hpos := Ramfs.ramfsBlockSize_pos
          have hcounts : newSize + ramfsBlockSize ≤ 2 ^ 64 := hcounts
          omega
        · rintro i ⟨hzero, -⟩
          rw [hcut.bytes, h.zeros i hzero, ite_self]
      · rw [truncate_overflow h.live h.list hmany] at hcall
        cases hcall

theorem ZeroAt.fileCalls (h : v.ZeroAt p l zero) (hcounts : ∀ op ∈ ops, op.Counts)
    (hcalls : v.fileCalls p ops = some (answers, v')) :
    ∃ l', v'.ZeroAt p l' fun i => zero i ∧ ∀ op ∈ ops, op.Skips i := by
  induction ops generalizing v l zero answers with
  | nil =>
      cases hcalls
      exact ⟨l, h.toFileAt, h.size_lt, fun i hzero => h.zeros i hzero.1⟩
  | cons op rest ih =>
      rw [RamfsVolume.fileCalls, Option.bind_eq_bind] at hcalls
      obtain ⟨⟨answer, v₁⟩, hcall, hrest⟩ := Option.bind_eq_some_iff.mp hcalls
      obtain ⟨⟨more, v₂⟩, hrest, heq⟩ := Option.bind_eq_some_iff.mp hrest
      cases heq
      obtain ⟨l₁, hone⟩ := h.fileCall (hcounts op List.mem_cons_self) hcall
      obtain ⟨l', hall⟩ := ih hone (fun op hop => hcounts op (List.mem_cons_of_mem _ hop)) hrest
      refine ⟨l', hall.toFileAt, hall.size_lt, ?_⟩
      rintro i ⟨hzero, hskips⟩
      exact hall.zeros i ⟨⟨hzero, hskips op List.mem_cons_self⟩, fun op hop =>
        hskips op (List.mem_cons_of_mem _ hop)⟩

theorem fileCalls_write {buffer : List UInt8} {res : Int}
    (hwrite : v.write 0 p buffer offset = some (res, v')) :
    v.fileCalls p [.write buffer offset] = some ([(res, [])], v') := by
  rw [RamfsVolume.fileCalls, RamfsVolume.fileCall, hwrite]
  rfl

/-- A file with one byte, and the spare block of its write. -/
theorem oneFileMount_write :
    ∃ v' l', oneFileMount.write 0 1 [7] 0 = some (1, v') ∧
      v'.ZeroAt 1 l' (fun i => 1 ≤ i) ∧ (v'.fs.dirents 1).fileSize = 1 ∧ l'.length = 2 ∧
      byteAt (v'.memory.contents l') 0 = 7 := by
  obtain ⟨v', l', hwrite, hfile, hsize, -, hfilled⟩ :=
    oneFileMount_fresh.fileAt.write 0 [7] 0
  have hlength := hfilled.length (List.cons_ne_nil 7 [])
  rw [RamfsMemory.length_contents, RamfsMemory.length_contents] at hlength
  have hone : (v'.fs.dirents 1).fileSize = 1 := by
    rw [hsize, oneFileMount_fresh.size]
    rfl
  refine ⟨v', l', hwrite, ⟨hfile, by rw [hone]; decide, fun i hi => ?_⟩, hone, hlength, ?_⟩
  · rw [hfilled.bytes, if_neg fun hin => Nat.not_lt.mpr hi hin.2]
    exact oneFileMount_fresh.zeroAt.zeros i trivial
  · rw [hfilled.bytes, if_pos ⟨Nat.le_refl 0, Nat.one_pos⟩]
    rfl

theorem ZeroAt.blocksCover (h : v.ZeroAt p l zero) : v.BlocksCover p :=
  ⟨l, h.list.chain, h.list.nodup, fun a ha => (h.list.live a ha).2,
    Ramfs.le_blocks_iff.mp h.covers⟩

/-- After calls that count right a file has blocks for its size, so that reads, writes and
truncations that count right do not follow a pointer that is null. -/
theorem ramfs_blocks_cover (hfresh : v.FreshFile p) (hcounts : ∀ op ∈ ops, op.Counts)
    (hcalls : v.fileCalls p ops = some (answers, v')) :
    v'.BlocksCover p ∧ (∀ offset size, (v'.read (0, []) p offset size).isSome) ∧
      (∀ buffer offset, (v'.write 0 p buffer offset).isSome) ∧
      ∀ newSize, v'.TruncateFits p newSize → (v'.truncate p newSize).isSome := by
  obtain ⟨l, hzero⟩ := hfresh.zeroAt.fileCalls hcounts hcalls
  refine ⟨hzero.blocksCover, hzero.read_isSome (0, []), fun buffer offset => ?_,
    fun newSize hfits => ?_⟩
  · obtain ⟨later, l', hwrite, -⟩ := hzero.toFileAt.write 0 buffer offset
    rw [hwrite]
    rfl
  · obtain ⟨later, l', gone, htruncate, -⟩ := hzero.toFileAt.truncate hfits
    rw [htruncate]
    rfl

theorem ramfs_blocks_cover_one :
    ∃ v', oneFileMount.fileCalls 1 [.write [7] 0] = some ([(1, [])], v') ∧ v'.BlocksCover 1 := by
  obtain ⟨v', l', hwrite, -⟩ := oneFileMount_write
  have hcalls := fileCalls_write hwrite
  have hcounts : ∀ op ∈ [RamfsFileOp.write [7] 0], op.Counts := by
    simp [RamfsFileOp.Counts]
  exact ⟨v', hcalls, (ramfs_blocks_cover oneFileMount_fresh hcounts hcalls).1⟩

/-- A size for which the count of blocks wraps. -/
theorem ramfs_truncate_wraps :
    ∃ v', oneFileMount.fileCalls 1 [.truncate (2 ^ 64 - 1)] = some ([(0, [])], v') ∧
      ¬ v'.BlocksCover 1 ∧ v'.read (0, []) 1 ramfsBlockSize 1 = none := by
  refine ⟨oneFileMount.setFile 1 none oneFileMount.memory (2 ^ 64 - 1), rfl, ?_, by decide⟩
  rintro ⟨l, hchain, -, -, hcovers⟩
  have hnil : l = [] := by
    cases l with
    | nil => rfl
    | cons a rest => cases hchain.1
  subst hnil
  revert hcovers
  decide

end RamfsVolume

end GlitchedOS
