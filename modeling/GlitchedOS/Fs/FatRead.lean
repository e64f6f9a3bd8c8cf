/-
Reading a file.  The loops of `fat_read` go along the chain of the file, first to the
cluster of the offset and then over the clusters that hold the bytes.
-/
import GlitchedOS.Fs.FatDelete

namespace GlitchedOS

namespace FatData

section Read

variable (v : FatData) (junk : Nat → Buffer)

/-- A round of the loop of `fat_read` that skips to the offset. -/
def readSkipRound (at_ : Nat × Nat) : Option ((Nat × Nat) ⊕ Except Int (Nat × Nat)) :=
  match at_ with
  | (cluster, offset) =>
    if offset < v.bytesPerCluster then some (.inr (.ok (cluster, offset)))
    else do
      let next ← v.nextCluster cluster
      if clusterChainEnd ≤ next then some (.inr (.error (-3)))
      else some (.inl (next, offset - v.bytesPerCluster))

/-- A round of the loop of `fat_read` that reads: the cluster, the offset in it and the
bytes so far. -/
def readRound (size : Nat) (at_ : Nat × Nat × List UInt8) :
    Option ((Nat × Nat × List UInt8) ⊕ List UInt8) :=
  match at_ with
  | (cluster, clusterOffset, bytes) =>
    if size ≤ bytes.length then some (.inr bytes)
    else
      let buffer := v.readCluster cluster (junk cluster)
      let count := min (v.bytesPerCluster - clusterOffset) (size - bytes.length)
      let bytes := bytes ++ (List.range' clusterOffset count).map buffer
      if bytes.length < size then do
        let next ← v.nextCluster cluster
        if clusterChainEnd ≤ next then some (.inr bytes) else some (.inl (next, 0, bytes))
      else some (.inl (cluster, clusterOffset + count, bytes))

/-- `fat_read`: its result, and the bytes at the start of the buffer. -/
def read (fuel : Nat) (sector : Buffer) (handle offset size : Nat) :
    Option (Int × List UInt8) :=
  let dirent := v.readDirent sector handle
  if dirent.firstByte = direntDeleted ∨ dirent.firstByte = direntEnd then some (eNoent, [])
  else if dirent.fileSize ≤ offset then some (0, [])
  else do
    let size := if dirent.fileSize < (offset + size) % 2 ^ 64 then dirent.fileSize - offset
      else size
    match ← runLoop v.readSkipRound fuel (dirent.firstCluster, offset) with
    | .error res => some (res, [])
    | .ok (cluster, clusterOffset) =>
      let bytes ← runLoop (v.readRound junk size) fuel (cluster, clusterOffset, [])
      some (bytes.length, bytes)

end Read

def clusterBytes (v : FatData) (cluster : Nat) : List UInt8 :=
  (List.range v.bytesPerCluster).map fun j => v.backing.byte (v.clusterPlace cluster + j)

/-- The clusters of a file, one behind the other, up to its size. -/
def content (v : FatData) (clusters : List Nat) (fileSize : Nat) : List UInt8 :=
  (clusters.flatMap v.clusterBytes).take fileSize

/-- The handle is the one of a file, whose entry is at the place. -/
def RegularFile (v : FatData) (handle place : Nat) : Prop :=
  (∃ c i, v.DirCluster c ∧ i < v.entryCount ∧ handle = v.slotHandle c i ∧
    place = v.slotPlace c i) ∧ (v.direntAt place).IsFile

/-- A read comes to an end, with bytes that it has written to the buffer. -/
def ReadReturns (v : FatData) (junk : Nat → Buffer) (sector : Buffer) (handle offset size : Nat)
    (bytes : List UInt8) : Prop :=
  ∃ fuel, ∀ more, fuel ≤ more →
    v.read junk more sector handle offset size = some ((bytes.length : Int), bytes)

variable {v : FatData} {heads dirs : Set Nat} {junk : Nat → Buffer}
  {c offset size handle place : Nat} {clusters : List Nat} {bytes : List UInt8}

@[simp] theorem length_clusterBytes (v : FatData) (c : Nat) :
    (v.clusterBytes c).length = v.bytesPerCluster := by
  rw [clusterBytes, List.length_map, List.length_range]

theorem length_flatMap_clusterBytes (v : FatData) (clusters : List Nat) :
    (clusters.flatMap v.clusterBytes).length = clusters.length * v.bytesPerCluster := by
  induction clusters with
  | nil => exact (Nat.zero_mul _).symm
  | cons c rest ih =>
      rw [List.flatMap_cons, List.length_append, ih, length_clusterBytes, List.length_cons,
        Nat.succ_mul, Nat.add_comm]

theorem length_content (hcovers : size ≤ clusters.length * v.bytesPerCluster) :
    (v.content clusters size).length = size := by
  rw [content, List.length_take, length_flatMap_clusterBytes]
  exact Nat.min_eq_left hcovers

/-- A part of a cluster, from the buffer that it was read into. -/
theorem Synced.readCluster_range (hv : v.Synced) (hc : v.IsCluster c) (buffer : Buffer)
    (start count : Nat) (hfits : start + count ≤ v.bytesPerCluster) :
    (List.range' start count).map (v.readCluster c buffer) =
      ((v.clusterBytes c).drop start).take count := by
  refine List.ext_getElem ?_ fun i hi hi' => ?_
  · rw [List.length_map, List.length_range', List.length_take, List.length_drop,
      length_clusterBytes]
    omega
  · have hsize := hv.toLayout.bytesPerCluster_eq_sectors
    rw [List.length_map, List.length_range'] at hi
    rw [List.getElem_map, List.getElem_range', List.getElem_take, List.getElem_drop]
    simp only [clusterBytes, List.getElem_map, List.getElem_range, Nat.one_mul]
    exact readCluster_apply buffer (hv.toLayout.cluster_sectors hc).2 (by omega)

/-- Skipping leads to the cluster of the offset, with the rest of the chain behind it. -/
theorem Synced.readSkip (hv : v.Synced) (hclusters : ∀ a ∈ clusters, v.IsCluster a)
    (hchain : Chain v.follow (some c) clusters)
    (hoffset : offset < clusters.length * v.bytesPerCluster) :
    ∃ d rest, Chain v.follow (some d) (d :: rest) ∧ (∀ a ∈ d :: rest, a ∈ clusters) ∧
      (d :: rest).flatMap v.clusterBytes = (clusters.flatMap v.clusterBytes).drop
        (offset / v.bytesPerCluster * v.bytesPerCluster) ∧
      Loop.Ends v.readSkipRound (c, offset) (.ok (d, offset % v.bytesPerCluster)) := by
  induction clusters generalizing c offset with
  | nil => cases hchain
  | cons a rest ih =>
      obtain rfl := Option.some.inj hchain.1
      by_cases hin : offset < v.bytesPerCluster
      · refine ⟨c, rest, ⟨rfl, hchain.2⟩, fun a ha => ha, ?_, .now ?_⟩
        · rw [Nat.div_eq_of_lt hin, Nat.zero_mul, List.drop_zero]
        · rw [readSkipRound, if_pos hin, Nat.mod_eq_of_lt hin]
      · have hpos := hv.toLayout.bytesPerCluster_pos
        have hle := Nat.le_of_not_lt hin
        rw [List.length_cons, Nat.succ_mul] at hoffset
        have hmore : offset - v.bytesPerCluster < rest.length * v.bytesPerCluster := by omega
        have hne : rest ≠ [] := by
          rintro rfl
          rw [List.length_nil, Nat.zero_mul] at hmore
          exact Nat.not_lt_zero _ hmore
        obtain ⟨hnext, hrest⟩ := chain_next hchain hne
        obtain ⟨d, more, hchain', hsub, hbytes, hends⟩ := ih (fun b hb =>
          hclusters b (List.mem_cons_of_mem c hb)) hrest hmore
        have hdiv : offset / v.bytesPerCluster =
            (offset - v.bytesPerCluster) / v.bytesPerCluster + 1 :=
          Nat.div_eq_sub_div hpos hle
        refine ⟨d, more, hchain', fun b hb => List.mem_cons_of_mem c (hsub b hb), ?_, ?_⟩
        · rw [hbytes, hdiv, Nat.succ_mul, Nat.add_comm, ← List.drop_drop, List.flatMap_cons,
            List.drop_left' (length_clusterBytes v c)]
        · rw [Nat.mod_eq_sub_mod hle]
          refine hends.of_goes ?_
          rw [Loop.Goes, readSkipRound, if_neg hin,
            hv.nextCluster_eq (hv.inTable (hclusters c List.mem_cons_self)), Option.bind_eq_bind,
            Option.bind_some, if_neg (Nat.not_le.mpr hnext)]

/-- Reading goes on to the clusters behind as long as bytes are missing. -/
theorem Synced.readLoop (hv : v.Synced) (hclusters : ∀ a ∈ clusters, v.IsCluster a)
    (hchain : Chain v.follow (some c) clusters) (hoffset : offset < v.bytesPerCluster)
    (hcovers : offset + (size - bytes.length) ≤ clusters.length * v.bytesPerCluster)
    (hbytes : bytes.length ≤ size) :
    Loop.Ends (v.readRound junk size) (c, offset, bytes)
      (bytes ++ ((clusters.flatMap v.clusterBytes).drop offset).take (size - bytes.length)) := by
  induction clusters generalizing c offset bytes with
  | nil => cases hchain
  | cons a rest ih =>
      obtain rfl := Option.some.inj hchain.1
      have hc := hclusters c List.mem_cons_self
      rcases Nat.eq_or_lt_of_le hbytes with heq | hlt
      · rw [heq, Nat.sub_self, List.take_zero, List.append_nil]
        refine .now ?_
        rw [readRound, if_pos heq.ge]
      · have hpart : (((c :: rest).flatMap v.clusterBytes).drop offset) =
            (v.clusterBytes c).drop offset ++ rest.flatMap v.clusterBytes := by
          rw [List.flatMap_cons, List.drop_append_of_le_length
            (by rw [length_clusterBytes]; exact hoffset.le)]
        have hlength : ((v.clusterBytes c).drop offset).length = v.bytesPerCluster - offset := by
          rw [List.length_drop, length_clusterBytes]
        rcases Nat.lt_or_ge (v.bytesPerCluster - offset) (size - bytes.length) with hmore | hlast
        · -- the cluster is read to its end
          have hcount : min (v.bytesPerCluster - offset) (size - bytes.length) =
              v.bytesPerCluster - offset := Nat.min_eq_left hmore.le
          have hread := hv.readCluster_range hc (junk c) offset (v.bytesPerCluster - offset)
            (by omega)
          rw [List.take_of_length_le hlength.le] at hread
          rw [List.length_cons, Nat.succ_mul] at hcovers
          have hne : rest ≠ [] := by
            rintro rfl
            rw [List.length_nil, Nat.zero_mul] at hcovers
            omega
          obtain ⟨hnext, hrest⟩ := chain_next hchain hne
          have hlength' : (bytes ++ (v.clusterBytes c).drop offset).length =
              bytes.length + (v.bytesPerCluster - offset) := by
            rw [List.length_append, hlength]
          have hends := @ih (v.link c) 0 (bytes ++ (v.clusterBytes c).drop offset)
            (fun b hb => hclusters b (List.mem_cons_of_mem c hb)) hrest
            hv.toLayout.bytesPerCluster_pos (by rw [hlength']; omega) (by rw [hlength']; omega)
          have hround : Loop.Goes (v.readRound junk size) (c, offset, bytes)
              (v.link c, 0, bytes ++ (v.clusterBytes c).drop offset) := by
            rw [Loop.Goes, readRound, if_neg (Nat.not_le.mpr hlt)]
            dsimp only
            rw [hcount, hread, if_pos (by rw [hlength']; omega),
              hv.nextCluster_eq (hv.inTable hc), Option.bind_eq_bind, Option.bind_some,
              if_neg (Nat.not_le.mpr hnext)]
          rw [hlength', List.drop_zero] at hends
          rw [hpart, List.take_append, hlength, List.take_of_length_le (by omega),
            ← List.append_assoc, show size - bytes.length - (v.bytesPerCluster - offset) =
              size - (bytes.length + (v.bytesPerCluster - offset)) by omega]
          exact hends.of_goes hround
        · -- the rest is in this cluster
          have hcount : min (v.bytesPerCluster - offset) (size - bytes.length) =
              size - bytes.length := Nat.min_eq_right hlast
          have hread := hv.readCluster_range hc (junk c) offset (size - bytes.length) (by omega)
          have hfull : (bytes ++ ((v.clusterBytes c).drop offset).take
              (size - bytes.length)).length = size := by
            rw [List.length_append, List.length_take, hlength]
            omega
          rw [hpart, List.take_append_of_le_length (by rw [hlength]; exact hlast)]
          have hround : Loop.Goes (v.readRound junk size) (c, offset, bytes)
              (c, offset + (size - bytes.length),
                bytes ++ ((v.clusterBytes c).drop offset).take (size - bytes.length)) := by
            rw [Loop.Goes, readRound, if_neg (Nat.not_le.mpr hlt)]
            dsimp only
            rw [hcount, hread, if_neg (by rw [hfull]; exact Nat.lt_irrefl size)]
          refine Loop.Ends.of_goes hround (.now ?_)
          rw [readRound, if_pos hfull.ge]

/-- The part of the content from an offset on, of at most some size. -/
theorem drop_content (fileSize : Nat) :
    ((v.content clusters fileSize).drop offset).take size =
      ((clusters.flatMap v.clusterBytes).drop offset).take (min size (fileSize - offset)) := by
  rw [content, List.drop_take, List.take_take]

theorem FilesSound.chain_of_file (hsound : FilesSound v heads dirs) (ha : v.IsSlot dirs place)
    (hfile : (v.direntAt place).IsFile)
    (hclusters : v.FileClusters (v.direntAt place) clusters) (hne : clusters ≠ []) :
    Chain v.follow (some (v.direntAt place).firstCluster) clusters ∧
      ∀ c ∈ clusters, v.IsCluster c := by
  rw [FileClusters] at hclusters
  split at hclusters
  · exact absurd hclusters hne
  next hzero =>
    have hhead := ((hsound.file place ha hfile).resolve_left hzero).1
    exact ⟨hclusters, fun c hc => hsound.clusters _ hhead c ⟨clusters, hclusters, hc⟩⟩

theorem not_removed_of_isFile {dirent : FatDirent} (hfile : dirent.IsFile) :
    ¬ (dirent.firstByte = direntDeleted ∨ dirent.firstByte = direntEnd) := by
  rintro (hdeleted | hend)
  · have hskip := hfile.1.2
    rw [FatDirent.isSkipped, hdeleted, decide_eq_true rfl, Bool.true_or] at hskip
    cases hskip
  · exact hfile.1.1 hend

/-- `fat_read` for a file whose chain has room for its size. -/
theorem FilesSound.read (hsound : FilesSound v heads dirs) {i : Nat} (hc : v.DirOn dirs c)
    (hi : i < v.entryCount) (hfile : (v.direntAt (v.slotPlace c i)).IsFile)
    (hclusters : v.FileClusters (v.direntAt (v.slotPlace c i)) clusters)
    (hcovers : (v.direntAt (v.slotPlace c i)).fileSize ≤ clusters.length * v.bytesPerCluster)
    (junk : Nat → Buffer) (sector : Buffer) (hrange : offset + size < 2 ^ 64) :
    v.ReadReturns junk sector (v.slotHandle c i) offset size
      (((v.content clusters (v.direntAt (v.slotPlace c i)).fileSize).drop offset).take size) := by
  have hused := not_removed_of_isFile hfile
  have hread := hsound.readDirent hc hi sector
  generalize hplace : v.slotPlace c i = place at *
  have hslot : v.IsSlot dirs place := ⟨c, i, hc, hi, hplace.symm⟩
  by_cases hbehind : (v.direntAt place).fileSize ≤ offset
  · have hnone : (v.content clusters (v.direntAt place).fileSize).drop offset = [] :=
      List.drop_eq_nil_of_le (by rw [length_content hcovers]; exact hbehind)
    rw [hnone, List.take_nil]
    refine ⟨0, fun more _ => ?_⟩
    rw [FatData.read, hread]
    dsimp only
    rw [if_neg hused, if_pos hbehind]
    rfl
  · have hlt := Nat.lt_of_not_le hbehind
    have hne : clusters ≠ [] := by
      rintro rfl
      rw [List.length_nil, Nat.zero_mul] at hcovers
      omega
    obtain ⟨hchain, hall⟩ := hsound.chain_of_file hslot hfile hclusters hne
    have hpos := hsound.toLayout.bytesPerCluster_pos
    obtain ⟨d, rest, hchain', hsub, hbytes, fuel, hskip⟩ :=
      hsound.toSynced.readSkip hall hchain (Nat.lt_of_lt_of_le hlt hcovers)
    have hsize : (if (v.direntAt place).fileSize < (offset + size) % 2 ^ 64 then
        (v.direntAt place).fileSize - offset else size) =
          min size ((v.direntAt place).fileSize - offset) := by
      rw [Nat.mod_eq_of_lt hrange]
      split <;> omega
    have hlength := congrArg List.length hbytes
    rw [List.length_drop, length_flatMap_clusterBytes, length_flatMap_clusterBytes] at hlength
    have hdiv := Nat.div_add_mod offset v.bytesPerCluster
    rw [Nat.mul_comm] at hdiv
    have hends : Loop.Ends (v.readRound junk (min size ((v.direntAt place).fileSize - offset)))
        (d, offset % v.bytesPerCluster, [])
        ([] ++ (((d :: rest).flatMap v.clusterBytes).drop (offset % v.bytesPerCluster)).take
          (min size ((v.direntAt place).fileSize - offset) - 0)) :=
      hsound.toSynced.readLoop (fun a ha => hall a (hsub a ha)) hchain' (Nat.mod_lt offset hpos)
        (by rw [List.length_nil, Nat.sub_zero]; omega) (Nat.zero_le _)
    obtain ⟨fuel', hloop⟩ := hends
    refine ⟨max fuel fuel', fun more hmore => ?_⟩
    rw [List.nil_append, Nat.sub_zero, hbytes, List.drop_drop, hdiv,
      ← drop_content] at hloop
    rw [FatData.read, hread]
    dsimp only
    rw [if_neg hused, if_neg hbehind, hsize,
      Loop.run_mono hskip (Nat.le_trans (Nat.le_max_left _ _) hmore), Option.bind_eq_bind,
      Option.bind_some]
    dsimp only
    rw [Loop.run_mono hloop (Nat.le_trans (Nat.le_max_right _ _) hmore)]
    rfl

end FatData

open FatData

/-- `fat_read` returns the bytes of the file from the offset on, up to the size that was
asked for or the end of the file, and their number. -/
theorem read_returns_content (v : FatData) (hv : v.WellFormed) (handle place : Nat)
    (hfile : v.RegularFile handle place) (clusters : List Nat)
    (hclusters : v.FileClusters (v.direntAt place) clusters)
    (hcovers : (v.direntAt place).fileSize ≤ clusters.length * v.bytesPerCluster)
    (junk : Nat → Buffer) (sector : Buffer) (offset size : Nat) (hrange : offset + size < 2 ^ 64) :
    v.ReadReturns junk sector handle offset size
      (((v.content clusters (v.direntAt place).fileSize).drop offset).take size) := by
  obtain ⟨heads, dirs, hsound⟩ := hv.sound
  obtain ⟨⟨c, i, hc, hi, rfl, rfl⟩, hfile⟩ := hfile
  exact hsound.read (hsound.dirOn_of_dirCluster hc) hi hfile hclusters hcovers junk sector hrange

theorem threeFilesVolume_regular :
    threeFilesVolume.RegularFile (threeFilesVolume.slotHandle 2 2)
      (threeFilesVolume.slotPlace 2 2) :=
  ⟨⟨2, 2, .root, by decide, rfl, rfl⟩, threeFilesVolume_sectors.2.2.1⟩

theorem threeFilesVolume_clusters :
    threeFilesVolume.FileClusters
      (threeFilesVolume.direntAt (threeFilesVolume.slotPlace 2 2)) [3, 4] := by
  rw [FileClusters, threeFilesVolume_sectors.2.2.2.1, if_neg (by decide)]
  exact threeFilesVolume_file

/-- Its last three bytes, from the end of the first cluster on. -/
theorem read_returns_content_end :
    threeFilesVolume.ReadReturns (fun _ _ => 0) (fun _ => 0) (threeFilesVolume.slotHandle 2 2)
      511 5 [7, 8, 9] := by
  have hcontent : ((threeFilesVolume.content [3, 4] 514).drop 511).take 5 = [7, 8, 9] := by
    decide +kernel
  have hsize := threeFilesVolume_sectors.2.2.2.2
  have hread := read_returns_content threeFilesVolume threeFilesVolume_wellFormed _ _
    threeFilesVolume_regular [3, 4] threeFilesVolume_clusters (by rw [hsize]; decide)
    (fun _ _ => 0) (fun _ => 0) 511 5 (by decide)
  rwa [hsize, hcontent] at hread

end GlitchedOS
