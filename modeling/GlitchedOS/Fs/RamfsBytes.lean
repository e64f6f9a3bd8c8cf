/-
The bytes of a list of blocks.  A write and a truncation are described byte by byte; what
lies behind the last block counts as zero.
-/
import GlitchedOS.Fs.RamfsRuns
import Mathlib.Data.List.GetD

namespace GlitchedOS

namespace Ramfs

def byteAt (blocks : List (List UInt8)) (i : Nat) : UInt8 :=
  (blocks[i / ramfsBlockSize]?.getD []).getD (i % ramfsBlockSize) 0

/-- Blocks of the size of `ramfs_data_t`. -/
def Sized (blocks : List (List UInt8)) : Prop := ∀ block ∈ blocks, block.length = ramfsBlockSize

variable {blocks blocks' : List (List UInt8)} {block : List UInt8} {i j n index blockOffset : Nat}
  {buffer : List UInt8} {g : List UInt8 → List UInt8}

theorem ramfsBlockSize_pos : 0 < ramfsBlockSize := by decide

theorem ramfsBlockSize_eq : ramfsBlockSize = 4088 := rfl

theorem le_blocks_iff : n ≤ j * ramfsBlockSize ↔ (n + ramfsBlockSize - 1) / ramfsBlockSize ≤ j := by
  simp only [ramfsBlockSize_eq]
  omega

theorem sized_nil : Sized [] := fun _ hblock => nomatch hblock

theorem length_zeroBlock : zeroBlock.length = ramfsBlockSize := List.length_replicate

theorem Sized.append (h : Sized blocks) (h' : Sized blocks') : Sized (blocks ++ blocks') :=
  List.forall_mem_append.mpr ⟨h, h'⟩

theorem sized_zeros (n : Nat) : Sized (List.replicate n zeroBlock) := fun _ hblock =>
  (List.eq_of_mem_replicate hblock) ▸ length_zeroBlock

theorem Sized.take (h : Sized blocks) (n : Nat) : Sized (blocks.take n) := fun block hblock =>
  h block (List.mem_of_mem_take hblock)

theorem Sized.modify (h : Sized blocks) (hg : ∀ block : List UInt8,
    block.length = ramfsBlockSize → (g block).length = ramfsBlockSize) (index : Nat) :
    Sized (blocks.modify index g) := by
  intro block hblock
  obtain ⟨k, hk, heq⟩ := List.getElem_of_mem hblock
  rw [List.length_modify] at hk
  rw [List.getElem_modify] at heq
  have hold := h blocks[k] (List.getElem_mem hk)
  split at heq
  · rw [← heq]
    exact hg _ hold
  · rw [← heq]
    exact hold

theorem byteAt_behind (h : blocks.length * ramfsBlockSize ≤ i) : byteAt blocks i = 0 := by
  have hle : blocks.length ≤ i / ramfsBlockSize :=
    (Nat.le_div_iff_mul_le ramfsBlockSize_pos).mpr h
  rw [byteAt, List.getElem?_eq_none hle, Option.getD_none, List.getD_nil]

theorem byteAt_zeros (blocks : List (List UInt8)) (n i : Nat) :
    byteAt (blocks ++ List.replicate n zeroBlock) i = byteAt blocks i := by
  rw [byteAt, byteAt]
  rcases Nat.lt_or_ge (i / ramfsBlockSize) blocks.length with hin | hout
  · rw [List.getElem?_append_left hin]
  · rw [List.getElem?_append_right hout, List.getElem?_eq_none hout, List.getElem?_replicate,
      Option.getD_none, List.getD_nil]
    split
    · rw [Option.getD_some, zeroBlock, List.getD_eq_getElem?_getD,
        List.getElem?_getD_replicate_default_eq]
    · rw [Option.getD_none, List.getD_nil]

theorem byteAt_take (blocks : List (List UInt8)) (n i : Nat) :
    byteAt (blocks.take n) i = if i < n * ramfsBlockSize then byteAt blocks i else 0 := by
  split
  next hlt =>
    have hdiv : i / ramfsBlockSize < n := (Nat.div_lt_iff_lt_mul ramfsBlockSize_pos).mpr hlt
    rw [byteAt, byteAt, List.getElem?_take_of_lt hdiv]
  next hge =>
    refine byteAt_behind (Nat.le_trans (Nat.mul_le_mul_right _ ?_) (Nat.le_of_not_lt hge))
    exact List.length_take_le n blocks

theorem byteAt_drop (blocks : List (List UInt8)) (n i : Nat) :
    byteAt (blocks.drop n) i = byteAt blocks (n * ramfsBlockSize + i) := by
  rw [byteAt, byteAt, List.getElem?_drop, Nat.mul_comm, Nat.mul_add_div ramfsBlockSize_pos,
    Nat.mul_add_mod]

theorem byteAt_cons_of_lt (h : i < ramfsBlockSize) :
    byteAt (block :: blocks) i = block.getD i 0 := by
  rw [byteAt, Nat.div_eq_of_lt h, Nat.mod_eq_of_lt h]
  rfl

/-- Bytes of the first block, with bytes of the blocks behind it. -/
theorem bytes_cons {k : Nat} (hblock : block.length = ramfsBlockSize)
    (hfits : blockOffset + n ≤ ramfsBlockSize) (hmore : k = 0 ∨ blockOffset + n = ramfsBlockSize) :
    (block.drop blockOffset).take n ++ (List.range' 0 k).map (byteAt blocks) =
      (List.range' blockOffset (n + k)).map (byteAt (block :: blocks)) := by
  rw [← List.range'_append_1, List.map_append]
  congr 1
  · refine List.ext_getElem ?_ fun i hi hi' => ?_
    · rw [List.length_take, List.length_drop, List.length_map, List.length_range']
      omega
    · rw [List.length_map, List.length_range'] at hi'
      rw [List.getElem_take, List.getElem_drop, List.getElem_map, List.getElem_range', Nat.one_mul,
        byteAt_cons_of_lt (by omega), List.getD_eq_getElem _ _ (by omega)]
  · rcases hmore with rfl | hfull
    · rfl
    · have hshift : List.range' (blockOffset + n) k =
          (List.range' 0 k).map (ramfsBlockSize + ·) := by
        rw [hfull, List.map_add_range', Nat.add_zero]
      rw [hshift, List.map_map]
      refine List.map_congr_left fun i _ => ?_
      have hdrop := byteAt_drop (block :: blocks) 1 i
      rw [Nat.one_mul] at hdrop
      exact hdrop

theorem byteAt_modify (hindex : index < blocks.length) (i : Nat) :
    byteAt (blocks.modify index g) i =
      if i / ramfsBlockSize = index then
        (g (blocks.get ⟨index, hindex⟩)).getD (i % ramfsBlockSize) 0
      else byteAt blocks i := by
  rw [byteAt]
  split
  next heq =>
    rw [heq, List.getElem?_modify_eq, List.getElem?_eq_getElem hindex]
    rfl
  next hne => rw [byteAt, List.getElem?_modify_ne _ _ (Ne.symm hne)]

theorem byteAt_eq_get (hin : i / ramfsBlockSize < blocks.length) :
    byteAt blocks i = (blocks.get ⟨_, hin⟩).getD (i % ramfsBlockSize) 0 := by
  rw [byteAt, List.getElem?_eq_getElem hin]
  rfl

theorem getD_splice (hblock : block.length = ramfsBlockSize) (hfits : blockOffset + n ≤
    ramfsBlockSize) (hn : n ≤ buffer.length) (j : Nat) :
    (block.take blockOffset ++ buffer.take n ++ block.drop (blockOffset + n)).getD j 0 =
      if blockOffset ≤ j ∧ j < blockOffset + n then buffer.getD (j - blockOffset) 0
      else block.getD j 0 := by
  have hfront : (block.take blockOffset).length = blockOffset := by
    rw [List.length_take]
    omega
  have hmiddle : (buffer.take n).length = n := by
    rw [List.length_take]
    omega
  rw [List.append_assoc, List.getD_eq_getElem?_getD, List.getD_eq_getElem?_getD,
    List.getD_eq_getElem?_getD]
  rcases Nat.lt_or_ge j blockOffset with hlt | hge
  · rw [if_neg (by omega), List.getElem?_append_left (by rw [hfront]; exact hlt),
      List.getElem?_take_of_lt hlt]
  · rw [List.getElem?_append_right (by rw [hfront]; exact hge), hfront]
    by_cases hin : j < blockOffset + n
    · rw [if_pos ⟨hge, hin⟩, List.getElem?_append_left (by rw [hmiddle]; omega),
        List.getElem?_take_of_lt (by omega)]
    · rw [if_neg fun h => hin h.2, List.getElem?_append_right (by rw [hmiddle]; omega), hmiddle,
        List.getElem?_drop]
      congr 2
      omega

theorem length_splice (hblock : block.length = ramfsBlockSize) (hfits : blockOffset + n ≤
    ramfsBlockSize) (hn : n ≤ buffer.length) :
    (block.take blockOffset ++ buffer.take n ++ block.drop (blockOffset + n)).length =
      ramfsBlockSize := by
  simp only [List.length_append, List.length_take, List.length_drop]
  omega

structure Filled (blocks blocks' : List (List UInt8)) (start : Nat) (buffer : List UInt8) :
    Prop where
  sized : Sized blocks'
  bytes : ∀ i, byteAt blocks' i =
    if start ≤ i ∧ i < start + buffer.length then buffer.getD (i - start) 0 else byteAt blocks i
  length : buffer ≠ [] →
    blocks'.length = max blocks.length ((start + buffer.length - 1) / ramfsBlockSize + 2)

theorem byteAt_splice (hsized : Sized blocks) (hindex : index < blocks.length)
    (hfits : blockOffset + n ≤ ramfsBlockSize) (hn : n ≤ buffer.length) (i : Nat) :
    byteAt (blocks.modify index fun block =>
        block.take blockOffset ++ buffer.take n ++ block.drop (blockOffset + n)) i =
      if index * ramfsBlockSize + blockOffset ≤ i ∧
          i < index * ramfsBlockSize + blockOffset + n then
        buffer.getD (i - (index * ramfsBlockSize + blockOffset)) 0 else byteAt blocks i := by
  have hdiv := Nat.div_add_mod i ramfsBlockSize
  have hmod := Nat.mod_lt i ramfsBlockSize_pos
  rw [byteAt_modify hindex]
  by_cases hblock : i / ramfsBlockSize = index
  · subst hblock
    rw [Nat.mul_comm] at hdiv
    rw [if_pos rfl, getD_splice (hsized _ (List.get_mem ..)) hfits hn, byteAt_eq_get hindex]
    by_cases hin : blockOffset ≤ i % ramfsBlockSize ∧ i % ramfsBlockSize < blockOffset + n
    · rw [if_pos hin, if_pos (by omega)]
      congr 1
      omega
    · rw [if_neg hin, if_neg (by omega)]
  · rw [if_neg hblock, if_neg]
    rintro ⟨hlow, hhigh⟩
    refine hblock (Nat.div_eq_of_lt_le ?_ ?_)
    · omega
    · rw [Nat.succ_mul]
      omega

theorem block_behind (hsized : Sized blocks) (hindex : index < blocks.length) :
    let behind := if index + 1 < blocks.length then blocks else blocks ++ [zeroBlock]
    Sized behind ∧ (∀ i, byteAt behind i = byteAt blocks i) ∧
      behind.length = max blocks.length (index + 2) := by
  dsimp only
  split
  next hmore => exact ⟨hsized, fun i => rfl, by omega⟩
  next hmore =>
    refine ⟨hsized.append (sized_zeros 1), byteAt_zeros blocks 1, ?_⟩
    rw [List.length_append, List.length_singleton]
    omega

theorem writeBlocks_filled (hsized : Sized blocks) (hindex : index < blocks.length)
    (hoffset : blockOffset < ramfsBlockSize) :
    Filled blocks (writeBlocks blocks index blockOffset buffer)
      (index * ramfsBlockSize + blockOffset) buffer := by
  induction hn : buffer.length using Nat.strong_induction_on generalizing blocks index
    blockOffset buffer with
  | _ n ih =>
  subst hn
  rw [writeBlocks]
  by_cases hempty : buffer = []
  · rw [if_pos (.inl hempty)]
    refine ⟨hsized, fun i => ?_, fun hne => absurd hempty hne⟩
    rw [hempty, List.length_nil, if_neg (by omega)]
  · rw [if_neg (by rw [not_or]; exact ⟨hempty, Nat.not_le.mpr hoffset⟩)]
    have hpos := List.length_pos_iff.mpr hempty
    dsimp only
    generalize htoWrite : min (ramfsBlockSize - blockOffset) buffer.length = toWrite
    have hfits : blockOffset + toWrite ≤ ramfsBlockSize := by omega
    have hle : toWrite ≤ buffer.length := by omega
    have hbytes := byteAt_splice hsized hindex hfits hle
    have hlength : (blocks.modify index fun block =>
        block.take blockOffset ++ buffer.take toWrite ++
          block.drop (blockOffset + toWrite)).length = blocks.length := List.length_modify ..
    have hwritten : Sized (blocks.modify index fun block =>
        block.take blockOffset ++ buffer.take toWrite ++ block.drop (blockOffset + toWrite)) :=
      hsized.modify (fun block hblock => length_splice hblock hfits hle) index
    generalize (blocks.modify index fun block =>
      block.take blockOffset ++ buffer.take toWrite ++ block.drop (blockOffset + toWrite)) =
        written at *
    obtain ⟨hbehind, hsame, hroom⟩ := block_behind hwritten (by rw [hlength]; exact hindex)
    generalize (if index + 1 < written.length then written else written ++ [zeroBlock]) =
      behind at *
    obtain ⟨hsized', hbytes', hlength'⟩ := ih (buffer.drop toWrite).length
      (by rw [List.length_drop]; omega) hbehind (show index + 1 < behind.length by omega)
      ramfsBlockSize_pos rfl
    refine ⟨hsized', fun i => ?_, fun _ => ?_⟩
    · rw [hbytes', hsame, hbytes, List.length_drop, List.getD_eq_getElem?_getD, List.getElem?_drop,
        ← List.getD_eq_getElem?_getD, Nat.add_one_mul]
      by_cases hrest : index * ramfsBlockSize + ramfsBlockSize + 0 ≤ i ∧
          i < index * ramfsBlockSize + ramfsBlockSize + 0 + (buffer.length - toWrite)
      · rw [if_pos hrest, if_pos (by omega)]
        exact congrArg (fun k => buffer.getD k 0) (by omega)
      · rw [if_neg hrest]
        by_cases hfirst : index * ramfsBlockSize + blockOffset ≤ i ∧
            i < index * ramfsBlockSize + blockOffset + toWrite
        · rw [if_pos hfirst, if_pos (by omega)]
        · rw [if_neg hfirst, if_neg (by omega)]
    · by_cases hlast : buffer.drop toWrite = []
      · rw [hlast, writeBlocks, if_pos (.inl rfl), hroom, hlength]
        have hshort : buffer.length ≤ toWrite := List.drop_eq_nil_iff.mp hlast
        have hend : (index * ramfsBlockSize + blockOffset + buffer.length - 1) / ramfsBlockSize =
            index := Nat.div_eq_of_lt_le (by omega) (by rw [Nat.succ_mul]; omega)
        rw [hend]
      · have hmore : ¬ buffer.length ≤ toWrite := fun hle => hlast (List.drop_eq_nil_iff.mpr hle)
        rw [hlength' hlast, hroom, hlength, List.length_drop, Nat.succ_mul,
          show index * ramfsBlockSize + ramfsBlockSize + 0 + (buffer.length - toWrite) - 1 =
            index * ramfsBlockSize + blockOffset + buffer.length - 1 by omega]
        have hend : index + 1 ≤
            (index * ramfsBlockSize + blockOffset + buffer.length - 1) / ramfsBlockSize :=
          (Nat.le_div_iff_mul_le ramfsBlockSize_pos).mpr (by rw [Nat.succ_mul]; omega)
        omega

theorem write_filled (hsized : Sized blocks) (offset : Nat) (buffer : List UInt8) :
    Filled blocks (writeBlocks
      (blocks ++ List.replicate (offset / ramfsBlockSize + 1 - blocks.length) zeroBlock)
      (offset / ramfsBlockSize) (offset % ramfsBlockSize) buffer) offset buffer := by
  have hindex : offset / ramfsBlockSize < (blocks ++
      List.replicate (offset / ramfsBlockSize + 1 - blocks.length) zeroBlock).length := by
    rw [List.length_append, List.length_replicate]
    omega
  have hfilled : Filled _ (writeBlocks _ _ _ buffer) _ buffer :=
    writeBlocks_filled (hsized.append (sized_zeros _)) hindex (Nat.mod_lt offset ramfsBlockSize_pos)
  rw [Nat.div_add_mod'] at hfilled
  refine ⟨hfilled.sized, fun i => ?_, fun hne => ?_⟩
  · rw [hfilled.bytes, byteAt_zeros]
  · have hpos := List.length_pos_iff.mpr hne
    have hend : offset / ramfsBlockSize ≤ (offset + buffer.length - 1) / ramfsBlockSize :=
      Nat.div_le_div_right (by omega)
    rw [hfilled.length hne, List.length_append, List.length_replicate]
    omega

/-- The blocks that remain of a list of some length. -/
def keptBlocks (length oldSize newSize : Nat) : Nat :=
  length - (ramfsBlockCount oldSize - ramfsBlockCount newSize)

/-- Where the bytes that `ramfs_truncate` leaves as they are come to an end: what remains
of the last block is cleared when blocks are freed. -/
def truncateEnd (length oldSize newSize : Nat) : Nat :=
  let kept := keptBlocks length oldSize newSize
  if kept < length ∧ 0 < kept ∧ newSize % ramfsBlockSize ≠ 0 then
    (kept - 1) * ramfsBlockSize + newSize % ramfsBlockSize
  else kept * ramfsBlockSize

theorem truncateEnd_eq {length oldSize newSize : Nat}
    (h : ¬ (keptBlocks length oldSize newSize < length ∧ 0 < keptBlocks length oldSize newSize ∧
      newSize % ramfsBlockSize ≠ 0)) :
    truncateEnd length oldSize newSize = keptBlocks length oldSize newSize * ramfsBlockSize :=
  if_neg h

theorem getD_clear (hblock : block.length = ramfsBlockSize) (hn : n ≤ ramfsBlockSize) (j : Nat) :
    (block.take n ++ List.replicate (ramfsBlockSize - n) 0).getD j 0 =
      if j < n then block.getD j 0 else 0 := by
  have hfront : (block.take n).length = n := by
    rw [List.length_take]
    omega
  rw [List.getD_eq_getElem?_getD]
  split
  next hlt =>
    rw [List.getElem?_append_left (by rw [hfront]; exact hlt), List.getElem?_take_of_lt hlt,
      List.getD_eq_getElem?_getD]
  next hge =>
    rw [List.getElem?_append_right (by rw [hfront]; omega),
      List.getElem?_getD_replicate_default_eq]

/-- The first blocks, the last one of them cleared from an offset on. -/
theorem byteAt_clearLast {kept : Nat} (hsized : Sized blocks) (hkept : kept ≤ blocks.length)
    (hn : n ≤ ramfsBlockSize) (i : Nat) :
    byteAt ((blocks.take kept).modify (kept - 1) fun block =>
        block.take n ++ List.replicate (ramfsBlockSize - n) 0) i =
      if 0 < kept ∧ i < (kept - 1) * ramfsBlockSize + n then byteAt blocks i else 0 := by
  cases kept with
  | zero =>
      rw [if_neg fun h => Nat.lt_irrefl 0 h.1, List.take_zero, List.modify_nil]
      exact byteAt_behind (Nat.le_trans (Nat.le_of_eq (Nat.zero_mul _)) (Nat.zero_le i))
  | succ k =>
      have hdiv := Nat.div_add_mod i ramfsBlockSize
      have hmod := Nat.mod_lt i ramfsBlockSize_pos
      have hlast : k < (blocks.take (k + 1)).length := by
        rw [List.length_take]
        omega
      have hblock := hsized.take (k + 1) _ (List.get_mem (blocks.take (k + 1)) ⟨k, hlast⟩)
      rw [Nat.add_sub_cancel, byteAt_modify hlast, getD_clear hblock hn]
      by_cases heq : i / ramfsBlockSize = k
      · rw [Nat.mul_comm, heq] at hdiv
        subst heq
        rw [if_pos rfl, ← byteAt_eq_get hlast, byteAt_take]
        by_cases hin : i % ramfsBlockSize < n
        · rw [if_pos hin, if_pos (by rw [Nat.add_one_mul]; omega),
            if_pos ⟨Nat.succ_pos _, by omega⟩]
        · rw [if_neg hin, if_neg fun h => by omega]
      · rw [if_neg heq, byteAt_take]
        rcases Nat.lt_or_ge i (k * ramfsBlockSize) with hlt | hge
        · rw [if_pos (by rw [Nat.add_one_mul]; omega), if_pos ⟨Nat.succ_pos _, by omega⟩]
        · have hbehind : (k + 1) * ramfsBlockSize ≤ i := by
            refine Nat.le_of_not_lt fun hlt => heq ?_
            exact Nat.div_eq_of_lt_le hge hlt
          rw [if_neg (by omega)]
          rw [Nat.add_one_mul] at hbehind
          rw [if_neg fun h => by omega]

structure Cut (blocks blocks' : List (List UInt8)) (oldSize newSize : Nat) : Prop where
  sized : Sized blocks'
  bytes : ∀ i, byteAt blocks' i =
    if i < truncateEnd blocks.length oldSize newSize then byteAt blocks i else 0
  length : blocks'.length =
    blocks.length - ramfsBlockCount oldSize + ramfsBlockCount newSize

theorem byteAt_inside (blocks : List (List UInt8)) (i : Nat) :
    byteAt blocks i = if i < blocks.length * ramfsBlockSize then byteAt blocks i else 0 := by
  split
  · rfl
  next hge => exact byteAt_behind (Nat.le_of_not_lt hge)

/-- `ramfs_truncate` for a file with blocks for its size. -/
theorem truncateBlocks_cut {oldSize newSize : Nat} (hsized : Sized blocks)
    (hcovers : ramfsBlockCount oldSize ≤ blocks.length) :
    ∃ blocks', truncateBlocks blocks oldSize newSize = some blocks' ∧
      Cut blocks blocks' oldSize newSize := by
  rw [truncateBlocks]
  dsimp only
  by_cases hgrow : ramfsBlockCount oldSize < ramfsBlockCount newSize
  · rw [if_pos hgrow]
    have hkept : keptBlocks blocks.length oldSize newSize = blocks.length := by
      rw [keptBlocks]
      omega
    refine ⟨_, rfl, hsized.append (sized_zeros _), fun i => ?_, ?_⟩
    · rw [byteAt_zeros, truncateEnd_eq (by omega), hkept]
      exact byteAt_inside blocks i
    · rw [List.length_append, List.length_replicate]
      omega
  · rw [if_neg hgrow]
    by_cases hshrink : ramfsBlockCount newSize < ramfsBlockCount oldSize
    · have hne : blocks ≠ [] := by
        rintro rfl
        rw [List.length_nil] at hcovers
        omega
      rw [if_pos hshrink, if_neg hne]
      have hkept : keptBlocks blocks.length oldSize newSize =
          blocks.length - (ramfsBlockCount oldSize - ramfsBlockCount newSize) := rfl
      rw [← hkept]
      have hlength : (blocks.take (keptBlocks blocks.length oldSize newSize)).length =
          keptBlocks blocks.length oldSize newSize := by
        rw [List.length_take]
        omega
      by_cases hrest : newSize % ramfsBlockSize = 0
      · rw [if_pos hrest]
        refine ⟨_, rfl, hsized.take _, fun i => ?_, by omega⟩
        rw [byteAt_take, truncateEnd_eq fun h => h.2.2 hrest]
      · have hmod := Nat.mod_lt newSize ramfsBlockSize_pos
        have hend : truncateEnd blocks.length oldSize newSize =
            if 0 < keptBlocks blocks.length oldSize newSize then
              (keptBlocks blocks.length oldSize newSize - 1) * ramfsBlockSize +
                newSize % ramfsBlockSize
            else 0 := by
          by_cases hpos : 0 < keptBlocks blocks.length oldSize newSize
          · rw [if_pos hpos]
            exact if_pos ⟨by omega, hpos, hrest⟩
          · rw [if_neg hpos, truncateEnd_eq fun h => hpos h.2.1, Nat.eq_zero_of_not_pos hpos,
              Nat.zero_mul]
        rw [if_neg hrest, hlength]
        refine ⟨_, rfl, (hsized.take _).modify (fun block hblock => ?_) _, fun i => ?_, ?_⟩
        · rw [List.length_append, List.length_take, List.length_replicate]
          omega
        · rw [byteAt_clearLast hsized (by omega) hmod.le, hend]
          by_cases hpos : 0 < keptBlocks blocks.length oldSize newSize
          · rw [if_pos hpos]
            simp only [hpos, true_and]
          · rw [if_neg hpos, if_neg fun h => hpos h.1, if_neg (Nat.not_lt_zero i)]
        · rw [List.length_modify]
          omega
    · rw [if_neg hshrink]
      have hkept : keptBlocks blocks.length oldSize newSize = blocks.length := by
        rw [keptBlocks]
        omega
      refine ⟨blocks, rfl, hsized, fun i => ?_, by omega⟩
      rw [truncateEnd_eq (by omega), hkept]
      exact byteAt_inside blocks i

end Ramfs

end GlitchedOS
