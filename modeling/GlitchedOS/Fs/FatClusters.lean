/-
The search for a free cluster.  It reads the first table on the device, sector by
sector from the hint on, and comes back to the part before the hint only when the table
ends with the last cluster; so a free cluster before the hint is found exactly then.
-/
import GlitchedOS.Fs.FatWrite
import Mathlib.Data.Nat.Find

namespace GlitchedOS

theorem findSome?_range'_eq_none {β : Type} {f : Nat → Option β} {start n : Nat}
    (h : ∀ p, start ≤ p → p < start + n → f p = none) :
    (List.range' start n).findSome? f = none := by
  rw [List.findSome?_eq_none_iff]
  intro p hp
  obtain ⟨hlo, hhi⟩ := List.mem_range'_1.mp hp
  exact h p hlo hhi

theorem findSome?_range'_eq {β : Type} {f : Nat → Option β} {start n p : Nat} {b : β}
    (hlo : start ≤ p) (hhi : p < start + n) (hp : f p = some b)
    (hbefore : ∀ q, start ≤ q → q < p → f q = none) :
    (List.range' start n).findSome? f = some b := by
  obtain ⟨k, rfl⟩ := Nat.exists_eq_add_of_le hlo
  obtain ⟨m, rfl⟩ : ∃ m, n = k + (m + 1) := ⟨n - k - 1, by omega⟩
  rw [← List.range'_append_1, List.findSome?_append, List.range'_succ,
    findSome?_range'_eq_none fun q hq hq' => hbefore q hq hq', List.findSome?_cons, hp]
  rfl

theorem flatMap_range' (width start n : Nat) :
    ((List.range' start n).flatMap fun row => List.range' (width * row) width) =
      List.range' (width * start) (width * n) := by
  induction n generalizing start with
  | zero => rfl
  | succ n ih =>
      rw [List.range'_succ, List.flatMap_cons, ih, Nat.mul_succ, Nat.mul_succ,
        Nat.add_comm (width * n), List.range'_append_1]

namespace FatData

/-- The entry of a cluster in the first table on the device. -/
def entryOnDisk (v : FatData) (cluster : Nat) : Nat :=
  Buffer.u32 (fun i => v.backing.byte
    (512 * ((v.bpb.reservedSectors + cluster / 128) % 2 ^ 32) + i)) (4 * (cluster % 128))

/-- A cluster that is free on the device. -/
def IsFree (v : FatData) (cluster : Nat) : Prop :=
  2 ≤ cluster ∧ cluster < v.totalClusters + 2 ∧ v.entryOnDisk cluster % 2 ^ 28 = 0

instance (v : FatData) (cluster : Nat) : Decidable (v.IsFree cluster) :=
  inferInstanceAs (Decidable (_ ∧ _ ∧ _))

/-- Sectors of 512 bytes, a table with an entry for each cluster, and no read error. -/
structure Searchable (v : FatData) : Prop where
  bytesPerSector : v.bpb.bytesPerSector = 512
  sectorsPerCluster : 0 < v.bpb.sectorsPerCluster
  table : v.totalClusters + 2 ≤ v.fatSize * 128
  reads : ∀ sector < v.fatSize, (v.bpb.reservedSectors + sector) % 2 ^ 32 < v.backing.sectors

/-- A search for a free cluster is right: it finds one when there is one, and returns
zero only when there is none. -/
def FindsFree (v : FatData) : Prop :=
  ((∃ cluster, v.IsFree cluster) → v.IsFree v.computeFreeCluster.1) ∧
    (v.computeFreeCluster.1 = 0 → ¬ ∃ cluster, v.IsFree cluster)

/-- The sector of the table where the search starts. -/
def startSector (v : FatData) : Nat := v.startCluster * 4 % 2 ^ 32 / 512

/-- What the search does at one entry of the table. -/
def scanEntry (v : FatData) (position : Nat) : Option Nat :=
  let cluster := position % 2 ^ 32
  if cluster < 2 then none
  else if (v.totalClusters + 2) % 2 ^ 32 ≤ cluster then some 0
  else if v.entryOnDisk position % 2 ^ 28 = 0 then some cluster
  else none

variable {v : FatData} {cluster start : Nat}

theorem Searchable.freeInSector_eq (hv : v.Searchable) {buffer : Buffer} (sector : Nat)
    (hbuffer : ∀ i < 512, buffer i =
      v.backing.byte (512 * ((v.bpb.reservedSectors + sector) % 2 ^ 32) + i)) :
    ∀ l : List Nat, (∀ i ∈ l, i < 128) →
      v.freeInSector buffer sector l = l.findSome? fun i => v.scanEntry (128 * sector + i)
  | [], _ => rfl
  | i :: rest, hl => by
      have hi : i < 128 := hl i List.mem_cons_self
      have ih := hv.freeInSector_eq sector hbuffer rest fun j hj => hl j (List.mem_cons_of_mem i hj)
      have hposition : sector * v.entriesPerSector + i = 128 * sector + i := by
        rw [entriesPerSector, hv.bytesPerSector, Nat.mul_comm]
      have hentry : buffer.u32 (4 * i) = v.entryOnDisk (128 * sector + i) := by
        have hrow : (128 * sector + i) / 128 = sector := by omega
        have hcolumn : (128 * sector + i) % 128 = i := by omega
        rw [entryOnDisk, hrow, hcolumn]
        simp only [Buffer.u32, Buffer.u16]
        rw [hbuffer _ (by omega), hbuffer _ (by omega), hbuffer _ (by omega),
          hbuffer _ (by omega)]
      rw [freeInSector, List.findSome?_cons, ih, hposition, hentry, scanEntry]
      split
      · rfl
      · split
        · rfl
        · split <;> rfl

theorem Searchable.freeInSectors_eq (hv : v.Searchable) :
    ∀ sectors : List Nat, (∀ sector ∈ sectors, sector < v.fatSize) →
      v.freeInSectors sectors =
        (sectors.flatMap fun sector => List.range' (128 * sector) 128).findSome? v.scanEntry
  | [], _ => rfl
  | sector :: rest, hsectors => by
      have hread : (v.bpb.reservedSectors + sector) % 2 ^ 32 + 1 ≤ v.backing.sectors :=
        hv.reads sector (hsectors sector List.mem_cons_self)
      have ih := hv.freeInSectors_eq rest fun s hs => hsectors s (List.mem_cons_of_mem sector hs)
      have hrange : v.entriesPerSector = 128 := by
        rw [entriesPerSector, hv.bytesPerSector]
      have hrow : (List.range' (128 * sector) 128).findSome? v.scanEntry =
          (List.range 128).findSome? fun i => v.scanEntry (128 * sector + i) := by
        rw [← Nat.add_zero (128 * sector), ← List.map_add_range', List.findSome?_map,
          List.range_eq_range']
        rfl
      rw [freeInSectors, Disk.readSectors, if_pos hread, List.flatMap_cons,
        List.findSome?_append, hrow, hrange]
      dsimp only
      rw [if_neg (by decide), hv.freeInSector_eq sector
        (fun i hi => if_pos (by omega)) _ (fun i hi => List.mem_range.mp hi), ih]
      cases (List.range 128).findSome? fun i => v.scanEntry (128 * sector + i) <;> rfl

theorem Searchable.computeFreeCluster_fst (hv : v.Searchable)
    (hstart : v.startSector ≤ v.fatSize) :
    v.computeFreeCluster.1 =
      (((List.range' (128 * v.startSector) (128 * (v.fatSize - v.startSector))).findSome?
        v.scanEntry).or
        ((List.range' 0 (128 * v.startSector)).findSome? v.scanEntry)).getD 0 := by
  have hsector : v.startCluster * 4 % 2 ^ 32 / v.bpb.bytesPerSector = v.startSector := by
    rw [startSector, hv.bytesPerSector]
  rw [computeFreeCluster, hsector, hv.freeInSectors_eq _ (fun s hs => by
      obtain ⟨hlo, hhi⟩ := List.mem_range'_1.mp hs
      omega),
    hv.freeInSectors_eq _ (fun s hs => Nat.lt_of_lt_of_le (List.mem_range.mp hs) hstart),
    flatMap_range', List.range_eq_range', flatMap_range', Nat.mul_zero]
  split
  next h => rw [h]; rfl
  next h => rw [h]; rfl
  next h => rw [h]; rfl

theorem scanEntry_of_free (hsmall : v.totalClusters + 2 < 2 ^ 32) (h : v.IsFree cluster) :
    v.scanEntry cluster = some cluster := by
  obtain ⟨hlo, hhi, hentry⟩ := h
  rw [scanEntry, Nat.mod_eq_of_lt hsmall, Nat.mod_eq_of_lt (Nat.lt_trans hhi hsmall),
    if_neg (Nat.not_lt.mpr hlo), if_neg (Nat.not_le.mpr hhi), if_pos hentry]

theorem scanEntry_of_not_free (hsmall : v.totalClusters + 2 < 2 ^ 32)
    (hhi : cluster < v.totalClusters + 2) (h : ¬ v.IsFree cluster) :
    v.scanEntry cluster = none := by
  rw [scanEntry, Nat.mod_eq_of_lt hsmall, Nat.mod_eq_of_lt (Nat.lt_trans hhi hsmall)]
  split
  · rfl
  next hlo =>
    rw [if_neg (Nat.not_le.mpr hhi), if_neg fun hentry => h ⟨Nat.le_of_not_lt hlo, hhi, hentry⟩]

theorem scanEntry_behind (hsmall : v.totalClusters + 2 < 2 ^ 32) :
    v.scanEntry (v.totalClusters + 2) = some 0 := by
  rw [scanEntry, Nat.mod_eq_of_lt hsmall, if_neg (by omega), if_pos (Nat.le_refl _)]

theorem startSector_lt (hsmall : v.totalClusters + 2 < 2 ^ 32) :
    128 * v.startSector < v.totalClusters + 2 := by
  have hstart : v.startCluster = 2 ∨ v.startCluster < v.totalClusters + 2 := by
    rw [startCluster, Nat.mod_eq_of_lt hsmall]
    split
    · exact .inl rfl
    next h => exact .inr (by omega)
  rw [startSector]
  omega

theorem Searchable.startSector_le (hv : v.Searchable) (hsmall : v.totalClusters + 2 < 2 ^ 32) :
    v.startSector ≤ v.fatSize := by
  have hlt := startSector_lt hsmall
  have htable := hv.table
  omega

/-- In an ascending scan of clusters the first free one is found. -/
theorem scan_finds {start n : Nat} (hsmall : v.totalClusters + 2 < 2 ^ 32)
    (hfree : v.IsFree cluster) (hlo : start ≤ cluster) (hhi : cluster < start + n) :
    ∃ c, v.IsFree c ∧ (List.range' start n).findSome? v.scanEntry = some c := by
  have hex : ∃ c, start ≤ c ∧ v.IsFree c := ⟨cluster, hlo, hfree⟩
  obtain ⟨hfirst, hfound⟩ := Nat.find_spec hex
  have hle : Nat.find hex ≤ cluster := Nat.find_min' hex ⟨hlo, hfree⟩
  refine ⟨Nat.find hex, hfound, findSome?_range'_eq hfirst (Nat.lt_of_le_of_lt hle hhi)
    (scanEntry_of_free hsmall hfound) fun q hq hlt => ?_⟩
  exact scanEntry_of_not_free hsmall (Nat.lt_trans hlt hfound.2.1)
    fun hqfree => Nat.find_min hex hlt ⟨hq, hqfree⟩

/-- A free cluster behind the start of the search is found. -/
theorem Searchable.finds_behind (hv : v.Searchable) (hsmall : v.totalClusters + 2 < 2 ^ 32)
    (hfree : v.IsFree cluster) (hstart : 128 * v.startSector ≤ cluster) :
    v.IsFree v.computeFreeCluster.1 := by
  have hhi := hfree.2.1
  have htable := hv.table
  obtain ⟨c, hc, hscan⟩ := scan_finds (n := 128 * (v.fatSize - v.startSector)) hsmall hfree
    hstart (by omega)
  rw [hv.computeFreeCluster_fst (hv.startSector_le hsmall), hscan]
  exact hc

/-- When the table ends with the last cluster, the search comes back to its begin. -/
theorem Searchable.finds_before (hv : v.Searchable) (hsmall : v.totalClusters + 2 < 2 ^ 32)
    (hfull : v.totalClusters + 2 = v.fatSize * 128) (hfree : v.IsFree cluster)
    (hbehind : ∀ c, v.IsFree c → c < 128 * v.startSector) :
    v.IsFree v.computeFreeCluster.1 := by
  have hfirst : (List.range' (128 * v.startSector)
      (128 * (v.fatSize - v.startSector))).findSome? v.scanEntry = none := by
    refine findSome?_range'_eq_none fun p hlo hhi => ?_
    exact scanEntry_of_not_free hsmall (by omega)
      fun hp => Nat.not_lt.mpr hlo (hbehind p hp)
  have hlt : cluster < 0 + 128 * v.startSector := by
    rw [Nat.zero_add]
    exact hbehind cluster hfree
  obtain ⟨c, hc, hscan⟩ := scan_finds hsmall hfree (Nat.zero_le cluster) hlt
  rw [hv.computeFreeCluster_fst (hv.startSector_le hsmall), hfirst, hscan]
  exact hc

theorem Searchable.misses_before (hv : v.Searchable) (hsmall : v.totalClusters + 2 < 2 ^ 32)
    (hmore : v.totalClusters + 2 < v.fatSize * 128)
    (hbehind : ∀ c, v.IsFree c → c < 128 * v.startSector) :
    v.computeFreeCluster.1 = 0 := by
  have hlt := startSector_lt hsmall
  have hfirst : (List.range' (128 * v.startSector)
      (128 * (v.fatSize - v.startSector))).findSome? v.scanEntry = some 0 := by
    refine findSome?_range'_eq hlt.le (by omega) (scanEntry_behind hsmall) fun q hlo hhi => ?_
    exact scanEntry_of_not_free hsmall hhi fun hq => Nat.not_lt.mpr hlo (hbehind q hq)
  rw [hv.computeFreeCluster_fst (hv.startSector_le hsmall), hfirst]
  rfl

/-- A number of clusters that wraps the bound of the search. -/
theorem Searchable.misses_wrapped (hv : v.Searchable) (htotal : v.totalClusters < 2 ^ 32)
    (hlarge : 2 ^ 32 ≤ v.totalClusters + 2) : v.computeFreeCluster.1 = 0 := by
  have hbound : (v.totalClusters + 2) % 2 ^ 32 ≤ 1 := by omega
  have hstart : v.startSector = 0 := by
    have hcluster : v.startCluster = 2 := by
      rw [startCluster]
      exact if_pos (by omega)
    have hsector : 2 * 4 % 2 ^ 32 / 512 = 0 := by decide
    rw [startSector, hcluster, hsector]
  have htable := hv.table
  have hfirst : (List.range' (128 * v.startSector)
      (128 * (v.fatSize - v.startSector))).findSome? v.scanEntry = some 0 := by
    rw [hstart]
    refine findSome?_range'_eq (p := 2) (by omega) (by omega) ?_ fun q _ hq => ?_
    · rw [scanEntry, if_neg (by decide), if_pos (by omega)]
    · rw [scanEntry, if_pos (by omega)]
  rw [hv.computeFreeCluster_fst (by omega), hfirst]
  rfl

theorem totalClusters_lt (v : FatData) : v.totalClusters < 2 ^ 32 := by
  refine Nat.lt_of_le_of_lt (Nat.div_le_self _ _) ?_
  omega

/-- A right search is one that does not return zero while a cluster is free. -/
theorem finds_of_isFree (h : v.IsFree v.computeFreeCluster.1) : v.FindsFree :=
  ⟨fun _ => h, fun hzero => absurd h.1 (by omega)⟩

theorem not_finds_of_zero (h : v.computeFreeCluster.1 = 0) (hfree : v.IsFree cluster) :
    ¬ v.FindsFree :=
  fun hfinds => hfinds.2 h ⟨cluster, hfree⟩

end FatData

open FatData

/-- The search for a free cluster is right exactly when no cluster is free, or one is
free in a sector of the table that is not in front of the hint, or the table has no
entries behind the last cluster. -/
theorem computeFreeCluster_finds_iff (v : FatData) (hv : v.Searchable) :
    v.FindsFree ↔
      (∀ cluster, ¬ v.IsFree cluster) ∨
        v.totalClusters + 2 < 2 ^ 32 ∧
          (v.totalClusters + 2 = v.fatSize * 128 ∨
            ∃ cluster, v.IsFree cluster ∧ 128 * v.startSector ≤ cluster) := by
  by_cases hnone : ∃ cluster, v.IsFree cluster
  · obtain ⟨cluster, hfree⟩ := hnone
    rw [or_iff_right fun h => h cluster hfree]
    by_cases hsmall : v.totalClusters + 2 < 2 ^ 32
    · rw [and_iff_right hsmall]
      by_cases hbehind : ∃ c, v.IsFree c ∧ 128 * v.startSector ≤ c
      · obtain ⟨c, hc, hle⟩ := hbehind
        exact iff_of_true (finds_of_isFree (hv.finds_behind hsmall hc hle)) (.inr ⟨c, hc, hle⟩)
      · have hbefore : ∀ c, v.IsFree c → c < 128 * v.startSector :=
          fun c hc => Nat.lt_of_not_le fun hle => hbehind ⟨c, hc, hle⟩
        rw [or_iff_left hbehind]
        rcases Nat.eq_or_lt_of_le hv.table with hfull | hmore
        · exact iff_of_true (finds_of_isFree (hv.finds_before hsmall hfull hfree hbefore)) hfull
        · exact iff_of_false (not_finds_of_zero (hv.misses_before hsmall hmore hbefore) hfree)
            hmore.ne
    · refine iff_of_false (not_finds_of_zero ?_ hfree) fun h => hsmall h.1
      exact hv.misses_wrapped (totalClusters_lt v) (Nat.le_of_not_lt hsmall)
  · have hno : ∀ cluster, ¬ v.IsFree cluster := fun c hc => hnone ⟨c, hc⟩
    exact iff_of_true ⟨fun h => absurd h hnone, fun _ => hnone⟩ (.inl hno)

/-- A volume of 200 clusters of one sector with a table of two sectors, in which cluster
2 alone is free. -/
def oneFreeVolume (lastFree : Nat) : FatData where
  backing := { byte := fun i => if 512 + 8 ≤ i ∧ i < 512 + 12 then 0 else 255, sectors := 203 }
  bpb :=
    { bytesPerSector := 512, sectorsPerCluster := 1, reservedSectors := 1, numFats := 1,
      totalSectors16 := 203, fatSize16 := 2, totalSectors32 := 0, fatSize32 := 0,
      rootCluster := 3, fsInfo := 0 }
  fat := List.replicate 256 0x0FFFFFFF
  readOnly := false
  fatSize := 2
  lastFree := lastFree

theorem oneFreeVolume_totalClusters (lastFree : Nat) :
    (oneFreeVolume lastFree).totalClusters = 200 := by
  change (((203 : Nat) - ((1 : Nat) + (1 : Nat) * (2 : Nat)) : Int) % 2 ^ 32).toNat / 1 = 200
  decide

theorem oneFreeVolume_searchable (lastFree : Nat) : (oneFreeVolume lastFree).Searchable := by
  refine ⟨rfl, Nat.one_pos, ?_, ?_⟩
  · rw [oneFreeVolume_totalClusters]
    exact (by decide : 202 ≤ 2 * 128)
  intro sector hsector
  change sector < 2 at hsector
  change (1 + sector) % 2 ^ 32 < 203
  omega

theorem oneFreeVolume_isFree_iff (lastFree cluster : Nat) :
    (oneFreeVolume lastFree).IsFree cluster ↔ cluster = 2 := by
  constructor
  · rintro ⟨hlo, hhi, hentry⟩
    rw [oneFreeVolume_totalClusters] at hhi
    by_contra hne
    have hbyte : ∀ j < 4, (oneFreeVolume lastFree).backing.byte
        (512 * ((1 + cluster / 128) % 2 ^ 32) + (4 * (cluster % 128) + j)) = 255 :=
      fun j hj => if_neg (by omega)
    rw [entryOnDisk, Buffer.u32, Buffer.u16, Buffer.u16] at hentry
    change ((((oneFreeVolume lastFree).backing.byte
      (512 * ((1 + cluster / 128) % 2 ^ 32) + (4 * (cluster % 128) + 0))).toNat + _) + _) %
        2 ^ 28 = 0 at hentry
    rw [hbyte 0 (by decide)] at hentry
    have hodd : (255 : UInt8).toNat = 255 := rfl
    omega
  · rintro rfl
    exact ⟨Nat.le_refl 2, by rw [oneFreeVolume_totalClusters]; decide, rfl⟩

/-- A search with its hint in the first sector finds the free cluster. -/
theorem computeFreeCluster_finds_near : (oneFreeVolume 2).FindsFree := by
  refine (computeFreeCluster_finds_iff (oneFreeVolume 2) (oneFreeVolume_searchable 2)).mpr ?_
  rw [oneFreeVolume_totalClusters]
  exact .inr ⟨by decide, .inr ⟨2, (oneFreeVolume_isFree_iff 2 2).mpr rfl, Nat.zero_le 2⟩⟩

/-- With its hint in the second sector it does not. -/
theorem computeFreeCluster_misses :
    (oneFreeVolume 130).Searchable ∧ ¬ (oneFreeVolume 130).FindsFree := by
  have hv := oneFreeVolume_searchable 130
  have hfree := (oneFreeVolume_isFree_iff 130 2).mpr rfl
  refine ⟨hv, not_finds_of_zero (hv.misses_before (by decide) (by decide) ?_) hfree⟩
  intro c hc
  rw [(oneFreeVolume_isFree_iff 130 c).mp hc]
  decide

end GlitchedOS
