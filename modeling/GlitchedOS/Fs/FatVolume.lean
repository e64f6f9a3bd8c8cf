/-
The layout of a volume.  The table and its copies lie in front of the clusters, and all
of them lie on the device; so a write to the table and a write to a cluster each leave
the rest of the volume as it was.
-/
import GlitchedOS.Fs.FatScans
import GlitchedOS.Fs.FatClusters
import Mathlib.Data.List.GetD
import Mathlib.Tactic.Ring

namespace GlitchedOS

/-! ### Bytes of a buffer -/

namespace Buffer

variable {b b' : Buffer} {start start' : Nat}

theorem u16_congr (h : ∀ i < 2, b (start + i) = b' (start' + i)) :
    b.u16 start = b'.u16 start' := by
  have hlow := h 0 (by decide)
  have hhigh := h 1 (by decide)
  rw [Nat.add_zero, Nat.add_zero] at hlow
  rw [u16, u16, hlow, hhigh]

theorem u32_congr (h : ∀ i < 4, b (start + i) = b' (start' + i)) :
    b.u32 start = b'.u32 start' := by
  have hlow : b.u16 start = b'.u16 start' := u16_congr fun i hi => h i (by omega)
  have hhigh : b.u16 (start + 2) = b'.u16 (start' + 2) := u16_congr fun i hi => by
    rw [Nat.add_assoc, Nat.add_assoc]
    exact h (2 + i) (by omega)
  rw [u32, u32, hlow, hhigh]

theorem u16_lt (b : Buffer) (start : Nat) : b.u16 start < 2 ^ 16 := by
  have hlow := (b start).toNat_lt
  have hhigh := (b (start + 1)).toNat_lt
  rw [u16]
  omega

theorem u32_lt (b : Buffer) (start : Nat) : b.u32 start < 2 ^ 32 := by
  have hlow := b.u16_lt start
  have hhigh := b.u16_lt (start + 2)
  rw [u32]
  omega

theorem u16_of_bytes16 {n : Nat} (h : ∀ i < 2, b (start + i) = (bytes16 n).getD i 0) :
    b.u16 start = n % 2 ^ 16 := by
  have hlow : b start = n.toUInt8 := h 0 (by decide)
  have hhigh : b (start + 1) = (n / 2 ^ 8).toUInt8 := h 1 (by decide)
  rw [u16, hlow, hhigh, Nat.toUInt8_eq, Nat.toUInt8_eq, UInt8.toNat_ofNat', UInt8.toNat_ofNat']
  omega

theorem u32_of_bytes32 {n : Nat} (h : ∀ i < 4, b (start + i) = (bytes32 n).getD i 0) :
    b.u32 start = n % 2 ^ 32 := by
  have hlow : b.u16 start = n % 2 ^ 16 := u16_of_bytes16 fun i hi => by
    rw [h i (by omega)]
    exact List.getD_append (bytes16 n) (bytes16 (n / 2 ^ 16)) 0 i hi
  have hhigh : b.u16 (start + 2) = n / 2 ^ 16 % 2 ^ 16 := u16_of_bytes16 fun i hi => by
    rw [Nat.add_assoc, h (2 + i) (by omega), bytes32]
    rw [List.getD_append_right _ _ _ _ (by simp [bytes16])]
    simp [bytes16]
  rw [u32, hlow, hhigh]
  omega

end Buffer

namespace FatData

def firstDataSector (v : FatData) : Nat := v.bpb.reservedSectors + v.bpb.numFats * v.fatSize

def IsCluster (v : FatData) (cluster : Nat) : Prop :=
  2 ≤ cluster ∧ cluster < v.totalClusters + 2

instance (v : FatData) (cluster : Nat) : Decidable (v.IsCluster cluster) :=
  inferInstanceAs (Decidable (_ ∧ _))

/-- The search for a free cluster comes to the cluster: it starts in front of it, or comes
back to the begin of the table. -/
def Searched (v : FatData) (cluster : Nat) : Prop :=
  128 * v.startSector ≤ cluster ∨ v.totalClusters + 2 = v.fatSize * 128

/-- The table has an entry for each cluster, and the tables and the clusters behind them
are on the device. -/
structure Layout (v : FatData) : Prop extends Valid v where
  numFats : 0 < v.bpb.numFats
  table : v.totalClusters + 2 ≤ v.fatSize * 128
  numbers : v.totalClusters + 2 < clusterChainEnd
  device : v.firstDataSector + v.totalClusters * v.bpb.sectorsPerCluster ≤ v.backing.sectors
  sectors : v.firstDataSector + v.totalClusters * v.bpb.sectorsPerCluster ≤ 2 ^ 32

/-- What no write to a volume changes. -/
structure SameGeometry (v v' : FatData) : Prop where
  bpb : v'.bpb = v.bpb
  fatSize : v'.fatSize = v.fatSize
  readOnly : v'.readOnly = v.readOnly
  sectors : v'.backing.sectors = v.backing.sectors
  fat_length : v'.fat.length = v.fat.length

variable {v v' v'' : FatData} {env : FatEnv} {cluster content lba count start : Nat}
  {buffer : Buffer} {bytes : List UInt8}

/-! ### Geometry -/

theorem SameGeometry.refl (v : FatData) : SameGeometry v v :=
  ⟨rfl, rfl, rfl, rfl, rfl⟩

theorem SameGeometry.trans (h : SameGeometry v v') (h' : SameGeometry v' v'') :
    SameGeometry v v'' where
  bpb := h'.bpb.trans h.bpb
  fatSize := h'.fatSize.trans h.fatSize
  readOnly := h'.readOnly.trans h.readOnly
  sectors := h'.sectors.trans h.sectors
  fat_length := h'.fat_length.trans h.fat_length

theorem SameGeometry.totalClusters (h : SameGeometry v v') :
    v'.totalClusters = v.totalClusters := by
  rw [FatData.totalClusters, FatData.totalClusters, h.bpb, h.fatSize]

theorem SameGeometry.isCluster (h : SameGeometry v v') :
    v'.IsCluster cluster ↔ v.IsCluster cluster := by
  rw [IsCluster, IsCluster, h.totalClusters]

theorem SameGeometry.firstDataSector (h : SameGeometry v v') :
    v'.firstDataSector = v.firstDataSector := by
  rw [FatData.firstDataSector, FatData.firstDataSector, h.bpb, h.fatSize]

theorem SameGeometry.getFirstClusterSector (h : SameGeometry v v') (cluster : Nat) :
    v'.getFirstClusterSector cluster = v.getFirstClusterSector cluster := by
  rw [FatData.getFirstClusterSector, FatData.getFirstClusterSector, h.bpb, h.fatSize]

theorem SameGeometry.bytesPerCluster (h : SameGeometry v v') :
    v'.bytesPerCluster = v.bytesPerCluster := by
  rw [FatData.bytesPerCluster, FatData.bytesPerCluster, h.bpb]

theorem SameGeometry.entryCount (h : SameGeometry v v') : v'.entryCount = v.entryCount := by
  rw [FatData.entryCount, FatData.entryCount, h.bytesPerCluster]

theorem SameGeometry.layout (h : SameGeometry v v') (hv : v.Layout) : v'.Layout where
  bytesPerSector := by rw [h.bpb]; exact hv.bytesPerSector
  sectorsPerCluster := by rw [h.bpb]; exact hv.sectorsPerCluster
  fat_length := by rw [h.fat_length, h.fatSize]; exact hv.fat_length
  numFats := by rw [h.bpb]; exact hv.numFats
  table := by rw [h.totalClusters, h.fatSize]; exact hv.table
  numbers := by rw [h.totalClusters]; exact hv.numbers
  device := by
    rw [h.firstDataSector, h.totalClusters, h.bpb, h.sectors]
    exact hv.device
  sectors := by
    rw [h.firstDataSector, h.totalClusters, h.bpb]
    exact hv.sectors

theorem writeSectors_geometry (v : FatData) (lba : Nat) (buffer : Buffer) (count : Nat) :
    SameGeometry v (v.writeSectors lba buffer count) where
  bpb := rfl
  fatSize := rfl
  readOnly := rfl
  sectors := by
    simp only [writeSectors, Disk.writeSectors]
    split <;> rfl
  fat_length := rfl

theorem patchSector_geometry (v : FatData) (env : FatEnv) (lba start : Nat)
    (bytes : List UInt8) : SameGeometry v (v.patchSector env lba start bytes) :=
  writeSectors_geometry ..

theorem writeFatCopy_geometry (v : FatData) (env : FatEnv) (entOffset content lba : Nat) :
    SameGeometry v (v.writeFatCopy env entOffset content lba) :=
  patchSector_geometry ..

theorem clearCluster_geometry (v : FatData) (cluster : Nat) :
    SameGeometry v (v.clearCluster cluster) :=
  writeSectors_geometry ..

theorem writeFatCopies_geometry (entOffset content fatSector : Nat) (copies : List Nat)
    (v : FatData) :
    SameGeometry v (copies.foldl (fun v i =>
      v.writeFatCopy env entOffset content ((fatSector + i * v.fatSize) % 2 ^ 32)) v) := by
  induction copies generalizing v with
  | nil => exact .refl v
  | cons i rest ih =>
      rw [List.foldl_cons]
      exact (writeFatCopy_geometry v env entOffset content _).trans (ih _)

theorem writeFat_geometry (h : v.writeFat env cluster content = some v') :
    SameGeometry v v' := by
  rw [writeFat] at h
  split at h
  next hin =>
    rw [← Option.some.inj h]
    have hset : SameGeometry v { v with fat := v.fat.set cluster content.toUInt32 } :=
      ⟨rfl, rfl, rfl, rfl, List.length_set⟩
    exact hset.trans (writeFatCopies_geometry ..)
  next => cases h

theorem computeFreeCluster_snd (v : FatData) :
    v.computeFreeCluster.2 = { v with lastFree := v.computeFreeCluster.2.lastFree } := by
  rw [computeFreeCluster]
  split <;> rfl

theorem setLastFree_geometry (v : FatData) (lastFree : Nat) :
    SameGeometry v { v with lastFree := lastFree } :=
  ⟨rfl, rfl, rfl, rfl, rfl⟩

/-! ### Sectors of the tables and the clusters -/

theorem Layout.firstDataSector_le (hv : v.Layout) : v.firstDataSector ≤ v.backing.sectors :=
  Nat.le_trans (Nat.le_add_right _ _) hv.device

theorem copy_lt {i sector : Nat} (hi : i < v.bpb.numFats)
    (hsector : sector < v.fatSize) :
    v.bpb.reservedSectors + i * v.fatSize + sector < v.firstDataSector := by
  have hcopies : (i + 1) * v.fatSize ≤ v.bpb.numFats * v.fatSize := Nat.mul_le_mul_right _ hi
  rw [Nat.succ_mul] at hcopies
  rw [firstDataSector]
  omega

theorem Layout.firstDataSector_le_two_pow (hv : v.Layout) : v.firstDataSector ≤ 2 ^ 32 :=
  Nat.le_trans (Nat.le_add_right _ _) hv.sectors

theorem Layout.searchable (hv : v.Layout) : v.Searchable where
  bytesPerSector := hv.bytesPerSector
  sectorsPerCluster := hv.sectorsPerCluster
  table := hv.table
  reads sector hsector := by
    have hlt := copy_lt hv.numFats hsector
    have hpow := hv.firstDataSector_le_two_pow
    have hdevice := hv.firstDataSector_le
    rw [Nat.zero_mul, Nat.add_zero] at hlt
    rw [Nat.mod_eq_of_lt (Nat.lt_of_lt_of_le hlt hpow)]
    exact Nat.lt_of_lt_of_le hlt hdevice

theorem Layout.getFirstClusterSector_eq (hv : v.Layout) (h : v.IsCluster cluster) :
    v.getFirstClusterSector cluster =
      v.firstDataSector + (cluster - 2) * v.bpb.sectorsPerCluster := by
  obtain ⟨hlo, hhi⟩ := h
  obtain ⟨k, rfl⟩ := Nat.exists_eq_add_of_le hlo
  have hspace : (k + 1) * v.bpb.sectorsPerCluster ≤
      v.totalClusters * v.bpb.sectorsPerCluster := Nat.mul_le_mul_right _ (by omega)
  have hpos := hv.sectorsPerCluster
  have hsectors := hv.sectors
  rw [Nat.succ_mul] at hspace
  have hcast : (((2 + k : Nat) : Int) - 2) * (v.bpb.sectorsPerCluster : Int) +
      (v.bpb.reservedSectors + v.bpb.numFats * v.fatSize) =
        ((v.firstDataSector + k * v.bpb.sectorsPerCluster : Nat) : Int) := by
    rw [firstDataSector]
    push_cast
    ring
  have hlt : v.firstDataSector + k * v.bpb.sectorsPerCluster < 2 ^ 32 := by omega
  rw [getFirstClusterSector, hcast, Nat.add_sub_cancel_left,
    Int.emod_eq_of_lt (Int.natCast_nonneg _) (by exact_mod_cast hlt), Int.toNat_natCast]

theorem Layout.cluster_sectors (hv : v.Layout) (h : v.IsCluster cluster) :
    v.firstDataSector ≤ v.getFirstClusterSector cluster ∧
      v.getFirstClusterSector cluster + v.bpb.sectorsPerCluster ≤ v.backing.sectors := by
  have hspace : (cluster - 2 + 1) * v.bpb.sectorsPerCluster ≤
      v.totalClusters * v.bpb.sectorsPerCluster :=
    Nat.mul_le_mul_right _ (by have hhi := h.2; have hlo := h.1; omega)
  have hdevice := hv.device
  rw [Nat.succ_mul] at hspace
  rw [hv.getFirstClusterSector_eq h]
  omega

theorem Layout.clusters_apart (hv : v.Layout) {c d : Nat} (hc : v.IsCluster c)
    (hd : v.IsCluster d) (hne : c ≠ d) :
    v.getFirstClusterSector c + v.bpb.sectorsPerCluster ≤ v.getFirstClusterSector d ∨
      v.getFirstClusterSector d + v.bpb.sectorsPerCluster ≤ v.getFirstClusterSector c := by
  have happart : ∀ a b : Nat, 2 ≤ a → a < b →
      (a - 2) * v.bpb.sectorsPerCluster + v.bpb.sectorsPerCluster ≤
        (b - 2) * v.bpb.sectorsPerCluster := fun a b ha hab => by
    rw [← Nat.succ_mul]
    exact Nat.mul_le_mul_right _ (by omega)
  rw [hv.getFirstClusterSector_eq hc, hv.getFirstClusterSector_eq hd]
  rcases Nat.lt_or_gt_of_ne hne with hlt | hlt
  · have hspace := happart c d hc.1 hlt
    omega
  · have hspace := happart d c hd.1 hlt
    omega

/-! ### The search for a free cluster -/

/-- The first hit of a search. -/
theorem findSome?_range'_some {β : Type} {f : Nat → Option β} {start n : Nat} {b : β}
    (h : (List.range' start n).findSome? f = some b) :
    ∃ p, start ≤ p ∧ p < start + n ∧ f p = some b ∧
      ∀ q, start ≤ q → q < p → f q = none := by
  induction n generalizing start with
  | zero => cases h
  | succ n ih =>
      rw [List.range'_succ, List.findSome?_cons] at h
      cases hfirst : f start with
      | some b' =>
          rw [hfirst] at h
          exact ⟨start, Nat.le_refl _, by omega, hfirst.trans h, fun q hq hq' => by omega⟩
      | none =>
          rw [hfirst] at h
          obtain ⟨p, hlo, hhi, hp, hbefore⟩ := ih h
          refine ⟨p, by omega, by omega, hp, fun q hq hq' => ?_⟩
          rcases Nat.eq_or_lt_of_le hq with rfl | hlt
          · exact hfirst
          · exact hbefore q hlt hq'

theorem isFree_of_scan (hsmall : v.totalClusters + 2 < 2 ^ 32) {n : Nat}
    (hstart : start ≤ v.totalClusters + 2)
    (h : (List.range' start n).findSome? v.scanEntry = some cluster) (hne : cluster ≠ 0) :
    v.IsFree cluster := by
  obtain ⟨p, hlo, -, hp, hbefore⟩ := findSome?_range'_some h
  have hle : p ≤ v.totalClusters + 2 := by
    by_contra hgt
    have hnone := hbefore (v.totalClusters + 2) hstart (by omega)
    rw [scanEntry_behind hsmall] at hnone
    cases hnone
  rw [scanEntry, Nat.mod_eq_of_lt hsmall, Nat.mod_eq_of_lt (by omega)] at hp
  split at hp
  · cases hp
  next h2 =>
    split at hp
    · exact absurd (Option.some.inj hp).symm hne
    next hin =>
      split at hp
      next hfree =>
        obtain rfl := Option.some.inj hp
        exact ⟨by omega, by omega, hfree⟩
      · cases hp

theorem Layout.totalClusters_small (hv : v.Layout) : v.totalClusters + 2 < 2 ^ 32 :=
  Nat.lt_trans hv.numbers (by decide)

theorem Layout.computeFreeCluster_isFree (hv : v.Layout) (h : v.computeFreeCluster.1 ≠ 0) :
    v.IsFree v.computeFreeCluster.1 := by
  have hsmall := hv.totalClusters_small
  have hstart := startSector_lt hsmall
  have hfst := hv.searchable.computeFreeCluster_fst (hv.searchable.startSector_le hsmall)
  rw [hfst] at h ⊢
  cases hbehind : (List.range' (128 * v.startSector)
      (128 * (v.fatSize - v.startSector))).findSome? v.scanEntry with
  | some c =>
      rw [hbehind] at h
      exact isFree_of_scan hsmall hstart.le hbehind h
  | none =>
      rw [hbehind] at h
      cases hbefore : (List.range' 0 (128 * v.startSector)).findSome? v.scanEntry with
      | some c =>
          rw [hbefore] at h
          exact isFree_of_scan hsmall (Nat.zero_le _) hbefore h
      | none =>
          rw [hbefore] at h
          exact absurd rfl h

/-- The search finds no cluster exactly when it comes to no free one. -/
theorem Layout.computeFreeCluster_eq_zero_iff (hv : v.Layout) :
    v.computeFreeCluster.1 = 0 ↔ ¬ ∃ cluster, v.IsFree cluster ∧ v.Searched cluster := by
  have hsmall := hv.totalClusters_small
  constructor
  · rintro hzero ⟨cluster, hfree, hbehind | hfull⟩
    · exact absurd (hv.searchable.finds_behind hsmall hfree hbehind).1 (by omega)
    · by_cases hbefore : ∀ c, v.IsFree c → c < 128 * v.startSector
      · exact absurd (hv.searchable.finds_before hsmall hfull hfree hbefore).1 (by omega)
      · push Not at hbefore
        obtain ⟨c, hc, hle⟩ := hbefore
        exact absurd (hv.searchable.finds_behind hsmall hc hle).1 (by omega)
  · intro hnone
    by_contra hne
    have hfree := hv.computeFreeCluster_isFree hne
    have hout : ¬ v.Searched v.computeFreeCluster.1 := fun h => hnone ⟨_, hfree, h⟩
    rw [Searched, not_or] at hout
    have hmore : v.totalClusters + 2 < v.fatSize * 128 :=
      Nat.lt_of_le_of_ne hv.table hout.2
    refine hne (hv.searchable.misses_before hsmall hmore fun c hc => ?_)
    exact Nat.lt_of_not_le fun hle => hnone ⟨c, hc, .inl hle⟩

theorem computeFreeCluster_of_zero (h : v.computeFreeCluster.1 = 0) :
    v.computeFreeCluster.2 = v := by
  rw [computeFreeCluster] at h ⊢
  split at h
  · rfl
  · rfl
  next hne _ => exact absurd h hne

/-! ### Bytes on the device -/

theorem readSectors_byte {disk : Disk} {j : Nat} (junk : Buffer)
    (hfits : lba + count ≤ disk.sectors) (hj : j < 512 * count) :
    (disk.readSectors lba count junk).2 j = disk.byte (512 * lba + j) := by
  rw [Disk.readSectors, if_pos hfits]
  exact if_pos hj

theorem writeSectors_byte (hfits : lba + count ≤ v.backing.sectors) (i : Nat) :
    (v.writeSectors lba buffer count).backing.byte i =
      if 512 * lba ≤ i ∧ i < 512 * (lba + count) then buffer (i - 512 * lba)
      else v.backing.byte i := by
  rw [writeSectors, Disk.writeSectors, if_pos hfits]

theorem patchSector_byte (hfits : lba < v.backing.sectors)
    (hin : start + bytes.length ≤ 512) (i : Nat) :
    (v.patchSector env lba start bytes).backing.byte i =
      if 512 * lba + start ≤ i ∧ i < 512 * lba + start + bytes.length then
        bytes.getD (i - (512 * lba + start)) 0
      else v.backing.byte i := by
  rw [patchSector, writeSectors_byte hfits]
  by_cases hsector : 512 * lba ≤ i ∧ i < 512 * (lba + 1)
  · have hold : (v.backing.readSectors lba 1 env.sector).2 (i - 512 * lba) =
        v.backing.byte i := by
      rw [readSectors_byte env.sector hfits (by omega), Nat.add_sub_cancel' hsector.1]
    rw [if_pos hsector, Buffer.copy, hold]
    by_cases hpatch : 512 * lba + start ≤ i ∧ i < 512 * lba + start + bytes.length
    · have hindex : i - 512 * lba - start = i - (512 * lba + start) := by omega
      rw [if_pos hpatch, if_pos (by omega), hindex,
        List.getD_eq_getElem _ _ (by omega), List.getD_eq_getElem _ _ (by omega)]
    · rw [if_neg hpatch]
      split
      · exact List.getD_eq_default _ _ (by omega)
      · rfl
  · rw [if_neg hsector, if_neg (by omega)]

theorem length_bytes32 (n : Nat) : (bytes32 n).length = 4 := rfl

theorem writeFatCopy_byte {entOffset : Nat} (hfits : lba < v.backing.sectors)
    (hin : entOffset + 4 ≤ 512) (i : Nat) (hother : i < 512 * lba + entOffset ∨
      512 * lba + entOffset + 4 ≤ i) :
    (v.writeFatCopy env entOffset content lba).backing.byte i = v.backing.byte i := by
  rw [writeFatCopy, patchSector_byte hfits hin, if_neg (by rw [length_bytes32]; omega)]

theorem writeFatCopy_u32 {entOffset : Nat} (hfits : lba < v.backing.sectors)
    (hin : entOffset + 4 ≤ 512) :
    Buffer.u32 (v.writeFatCopy env entOffset content lba).backing.byte
        (512 * lba + entOffset) =
      Buffer.u32 v.backing.byte (512 * lba + entOffset) / 2 ^ 28 * 2 ^ 28 +
        content % 2 ^ 28 := by
  have hold : (v.backing.readSectors lba 1 env.sector).2.u32 entOffset =
      Buffer.u32 v.backing.byte (512 * lba + entOffset) := by
    refine Buffer.u32_congr fun i hi => ?_
    rw [readSectors_byte env.sector hfits (by omega), Nat.add_assoc]
  have hlt := Buffer.u32_lt v.backing.byte (512 * lba + entOffset)
  rw [writeFatCopy, Buffer.u32_of_bytes32 (n := (v.backing.readSectors lba 1
    env.sector).2.u32 entOffset / 2 ^ 28 * 2 ^ 28 + content % 2 ^ 28), hold]
  · have hcontent : content % 2 ^ 28 < 2 ^ 28 := Nat.mod_lt _ (by decide)
    omega
  · intro i hi
    rw [patchSector_byte hfits hin, length_bytes32, if_pos (by omega), Nat.add_sub_cancel_left]

/-! ### Writes to the table -/

theorem Layout.entryOnDisk_eq (hv : v.Layout) (h : cluster < v.fatSize * 128) :
    v.entryOnDisk cluster =
      Buffer.u32 v.backing.byte (512 * v.bpb.reservedSectors + 4 * cluster) := by
  have hlt := copy_lt hv.numFats (show cluster / 128 < v.fatSize by omega)
  have hpow := hv.firstDataSector_le_two_pow
  rw [Nat.zero_mul, Nat.add_zero] at hlt
  rw [entryOnDisk, Nat.mod_eq_of_lt (Nat.lt_of_lt_of_le hlt hpow)]
  refine Buffer.u32_congr fun i _ => congrArg v.backing.byte ?_
  omega

/-- A volume after a write to its table. -/
structure FatWritten (v v' : FatData) (cluster content : Nat) : Prop where
  geometry : SameGeometry v v'
  lastFree : v'.lastFree = v.lastFree
  fat : v'.fat = v.fat.set cluster content.toUInt32
  entry : v'.entryOnDisk cluster % 2 ^ 28 = content % 2 ^ 28
  other : ∀ d < v.fatSize * 128, d ≠ cluster → v'.entryOnDisk d = v.entryOnDisk d
  clusters : ∀ i, 512 * v.firstDataSector ≤ i → v'.backing.byte i = v.backing.byte i

/-- Two volumes that differ at most in the entry of one cluster on the device. -/
structure TableKept (v w : FatData) (cluster : Nat) : Prop where
  geometry : SameGeometry v w
  lastFree : w.lastFree = v.lastFree
  fat : w.fat = v.fat
  other : ∀ d < v.fatSize * 128, d ≠ cluster → w.entryOnDisk d = v.entryOnDisk d
  clusters : ∀ i, 512 * v.firstDataSector ≤ i → w.backing.byte i = v.backing.byte i

theorem TableKept.trans {w w' : FatData} (h : TableKept v w cluster)
    (h' : TableKept w w' cluster) : TableKept v w' cluster where
  geometry := h.geometry.trans h'.geometry
  lastFree := h'.lastFree.trans h.lastFree
  fat := h'.fat.trans h.fat
  other d hd hne := (h'.other d (by rw [h.geometry.fatSize]; exact hd) hne).trans
    (h.other d hd hne)
  clusters i hi := (h'.clusters i (by rw [h.geometry.firstDataSector]; exact hi)).trans
    (h.clusters i hi)

def fatSector (v : FatData) (cluster : Nat) : Nat := v.bpb.reservedSectors + 4 * cluster / 512

def copySector (v : FatData) (sector i : Nat) : Nat := (sector + i * v.fatSize) % 2 ^ 32

def writeEntry (v : FatData) (env : FatEnv) (cluster content sector i : Nat) : FatData :=
  v.writeFatCopy env (4 * cluster % 512) content (v.copySector sector i)

theorem Layout.copySector_eq (hv : v.Layout) (hc : cluster < v.fatSize * 128) {i : Nat}
    (hi : i < v.bpb.numFats) :
    v.copySector (v.fatSector cluster) i =
        v.bpb.reservedSectors + 4 * cluster / 512 + i * v.fatSize ∧
      v.copySector (v.fatSector cluster) i < v.firstDataSector := by
  have hlt := copy_lt hi (show 4 * cluster / 512 < v.fatSize by omega)
  have hpow := hv.firstDataSector_le_two_pow
  have heq : v.copySector (v.fatSector cluster) i =
      v.bpb.reservedSectors + 4 * cluster / 512 + i * v.fatSize :=
    Nat.mod_eq_of_lt (by rw [fatSector]; omega)
  exact ⟨heq, by omega⟩

theorem writeEntry_geometry (v : FatData) (env : FatEnv) (cluster content sector i : Nat) :
    SameGeometry v (v.writeEntry env cluster content sector i) :=
  writeFatCopy_geometry ..

/-- A copy behind the first one lies behind the table that is searched. -/
theorem copy_behind {i : Nat} (hi : i ≠ 0) : v.fatSize ≤ i * v.fatSize :=
  Nat.le_mul_of_pos_left _ (Nat.pos_of_ne_zero hi)

theorem Layout.writeEntry_kept (hv : v.Layout) (hc : cluster < v.fatSize * 128) {i : Nat}
    (hi : i < v.bpb.numFats) :
    TableKept v (v.writeEntry env cluster content (v.fatSector cluster) i) cluster := by
  obtain ⟨heq, hlt⟩ := hv.copySector_eq hc hi
  have hfits := Nat.lt_of_lt_of_le hlt hv.firstDataSector_le
  have hin : 4 * cluster % 512 + 4 ≤ 512 := by omega
  refine ⟨writeEntry_geometry .., rfl, rfl, fun d hd hne => ?_, fun j hj => ?_⟩
  · have hgeo := writeEntry_geometry v env cluster content (v.fatSector cluster) i
    rw [(hgeo.layout hv).entryOnDisk_eq (by rw [hgeo.fatSize]; exact hd), hgeo.bpb,
      hv.entryOnDisk_eq hd]
    refine Buffer.u32_congr fun j hj => writeFatCopy_byte hfits hin _ ?_
    rcases Nat.eq_zero_or_pos i with rfl | hpos
    · rw [Nat.zero_mul, Nat.add_zero] at heq
      omega
    · have hbehind := copy_behind (v := v) hpos.ne'
      omega
  · exact writeFatCopy_byte hfits hin j (.inr (by omega))

theorem Layout.writeEntry_first (hv : v.Layout) (hc : cluster < v.fatSize * 128) :
    (v.writeEntry env cluster content (v.fatSector cluster) 0).entryOnDisk cluster % 2 ^ 28 =
      content % 2 ^ 28 := by
  obtain ⟨heq, hlt⟩ := hv.copySector_eq hc hv.numFats
  have hfits := Nat.lt_of_lt_of_le hlt hv.firstDataSector_le
  have hgeo := writeEntry_geometry v env cluster content (v.fatSector cluster) 0
  have hplace : 512 * v.bpb.reservedSectors + 4 * cluster =
      512 * v.copySector (v.fatSector cluster) 0 + 4 * cluster % 512 := by
    rw [heq, Nat.zero_mul]
    omega
  rw [(hgeo.layout hv).entryOnDisk_eq (by rw [hgeo.fatSize]; exact hc), hgeo.bpb, hplace,
    writeEntry, writeFatCopy_u32 hfits (by omega)]
  omega

theorem Layout.writeEntry_later (hv : v.Layout) (hc : cluster < v.fatSize * 128) {i : Nat}
    (hi : i < v.bpb.numFats) (hlater : i ≠ 0) :
    (v.writeEntry env cluster content (v.fatSector cluster) i).entryOnDisk cluster =
      v.entryOnDisk cluster := by
  obtain ⟨heq, hlt⟩ := hv.copySector_eq hc hi
  have hfits := Nat.lt_of_lt_of_le hlt hv.firstDataSector_le
  have hgeo := writeEntry_geometry v env cluster content (v.fatSector cluster) i
  rw [(hgeo.layout hv).entryOnDisk_eq (by rw [hgeo.fatSize]; exact hc), hgeo.bpb,
    hv.entryOnDisk_eq hc]
  have hbehind := copy_behind (v := v) hlater
  exact Buffer.u32_congr fun j hj => writeFatCopy_byte hfits (by omega) _ (.inl (by omega))

theorem Layout.writeFatCopies (hv : v.Layout) (env : FatEnv) (content : Nat)
    (hc : cluster < v.fatSize * 128) (n : Nat) (hn : n ≤ v.bpb.numFats) :
    let w := (List.range n).foldl (fun w i =>
      w.writeEntry env cluster content (v.fatSector cluster) i) v
    TableKept v w cluster ∧ (n ≠ 0 → w.entryOnDisk cluster % 2 ^ 28 = content % 2 ^ 28) := by
  induction n with
  | zero =>
      exact ⟨⟨.refl v, rfl, rfl, fun _ _ _ => rfl, fun _ _ => rfl⟩, fun h => absurd rfl h⟩
  | succ n ih =>
      obtain ⟨hkept, hentry⟩ := ih (Nat.le_of_succ_le hn)
      rw [List.range_succ, List.foldl_append, List.foldl_cons, List.foldl_nil]
      generalize (List.range n).foldl (fun w i =>
        w.writeEntry env cluster content (v.fatSector cluster) i) v = w at *
      have hsector : v.fatSector cluster = w.fatSector cluster := by
        rw [fatSector, fatSector, hkept.geometry.bpb]
      rw [hsector]
      have hw := hkept.geometry.layout hv
      have hc' : cluster < w.fatSize * 128 := by rw [hkept.geometry.fatSize]; exact hc
      have hn' : n < w.bpb.numFats := by rw [hkept.geometry.bpb]; exact hn
      refine ⟨hkept.trans (hw.writeEntry_kept hc' hn'), fun _ => ?_⟩
      by_cases hfirst : n = 0
      · subst hfirst
        exact hw.writeEntry_first hc'
      · rw [hw.writeEntry_later hc' hn' hfirst]
        exact hentry hfirst

/-- `write_fat` for an entry of the table. -/
theorem Layout.writeFat_eq (hv : v.Layout) (hc : cluster < v.fatSize * 128)
    (hsmall : cluster < clusterChainEnd) (env : FatEnv) (content : Nat) :
    ∃ v', v.writeFat env cluster content = some v' ∧ FatWritten v v' cluster content := by
  have hoffset : cluster * 4 % 2 ^ 32 = 4 * cluster := by
    rw [Nat.mul_comm]
    exact Nat.mod_eq_of_lt (by unfold clusterChainEnd at hsmall; omega)
  have hin : cluster < v.fat.length ∧ 4 * cluster % 512 + 4 ≤ 512 := by
    rw [hv.fat_length]
    omega
  have hset : SameGeometry v { v with fat := v.fat.set cluster content.toUInt32 } :=
    ⟨rfl, rfl, rfl, rfl, List.length_set⟩
  obtain ⟨hkept, hentry⟩ := (hset.layout hv).writeFatCopies env content
    hc v.bpb.numFats (Nat.le_refl _)
  refine ⟨_, ?_, hset.trans hkept.geometry, hkept.lastFree, hkept.fat,
    hentry hv.numFats.ne', hkept.other, hkept.clusters⟩
  rw [writeFat, hoffset, hv.bytesPerSector, if_pos hin]
  rfl

/-- What `write_fat` leaves behind, when it does not fault. -/
theorem Layout.writeFat_written (hv : v.Layout) (hc : cluster < v.fatSize * 128)
    (hsmall : cluster < clusterChainEnd) (h : v.writeFat env cluster content = some v') :
    FatWritten v v' cluster content := by
  obtain ⟨w, hw, hwritten⟩ := hv.writeFat_eq hc hsmall env content
  exact Option.some.inj (hw.symm.trans h) ▸ hwritten

/-! ### Writes to a cluster -/

theorem Layout.writeCluster_byte (hv : v.Layout) (h : v.IsCluster cluster) (buffer : Buffer)
    (i : Nat) :
    (v.writeSectors (v.getFirstClusterSector cluster) buffer
        v.bpb.sectorsPerCluster).backing.byte i =
      if 512 * v.getFirstClusterSector cluster ≤ i ∧
          i < 512 * (v.getFirstClusterSector cluster + v.bpb.sectorsPerCluster) then
        buffer (i - 512 * v.getFirstClusterSector cluster)
      else v.backing.byte i :=
  writeSectors_byte (hv.cluster_sectors h).2 i

theorem Layout.writeCluster_entryOnDisk (hv : v.Layout) (h : v.IsCluster cluster)
    (buffer : Buffer) {d : Nat} (hd : d < v.fatSize * 128) :
    (v.writeSectors (v.getFirstClusterSector cluster) buffer
        v.bpb.sectorsPerCluster).entryOnDisk d = v.entryOnDisk d := by
  have hgeo := writeSectors_geometry v (v.getFirstClusterSector cluster) buffer
    v.bpb.sectorsPerCluster
  have hlt := copy_lt hv.numFats (show d / 128 < v.fatSize by omega)
  have hbehind := (hv.cluster_sectors h).1
  rw [(hgeo.layout hv).entryOnDisk_eq (by rw [hgeo.fatSize]; exact hd), hgeo.bpb,
    hv.entryOnDisk_eq hd]
  refine Buffer.u32_congr fun j hj => ?_
  rw [hv.writeCluster_byte h, if_neg (by omega)]

theorem Layout.writeCluster_read (hv : v.Layout) (h : v.IsCluster cluster) (buffer junk : Buffer)
    {j : Nat} (hj : j < 512 * v.bpb.sectorsPerCluster) :
    (v.writeSectors (v.getFirstClusterSector cluster) buffer
        v.bpb.sectorsPerCluster).readCluster cluster junk j = buffer j := by
  have hgeo := writeSectors_geometry v (v.getFirstClusterSector cluster) buffer
    v.bpb.sectorsPerCluster
  have hfits := ((hgeo.layout hv).cluster_sectors (hgeo.isCluster.mpr h)).2
  rw [readCluster_apply junk hfits (by rw [hgeo.bpb]; exact hj),
    hgeo.getFirstClusterSector, hv.writeCluster_byte h, if_pos (by omega),
    Nat.add_sub_cancel_left]

theorem SameGeometry.readCluster (h : SameGeometry v v') (junk : Buffer)
    (hbytes : ∀ j < 512 * v.bpb.sectorsPerCluster,
      v'.backing.byte (512 * v.getFirstClusterSector cluster + j) =
        v.backing.byte (512 * v.getFirstClusterSector cluster + j)) :
    v'.readCluster cluster junk = v.readCluster cluster junk := by
  rw [FatData.readCluster, FatData.readCluster, h.getFirstClusterSector, h.bpb, Disk.readSectors,
    Disk.readSectors, h.sectors]
  split
  · funext j
    dsimp only
    split
    next hj => exact hbytes j hj
    next => rfl
  · rfl

theorem Layout.writeCluster_other (hv : v.Layout) (h : v.IsCluster cluster) {d : Nat}
    (hd : v.IsCluster d) (hne : d ≠ cluster) (buffer junk : Buffer) :
    (v.writeSectors (v.getFirstClusterSector cluster) buffer
        v.bpb.sectorsPerCluster).readCluster d junk = v.readCluster d junk := by
  refine (writeSectors_geometry ..).readCluster junk fun j hj => ?_
  have happart := hv.clusters_apart hd h hne
  rw [hv.writeCluster_byte h, if_neg (by omega)]

theorem FatWritten.readCluster {d : Nat} (h : FatWritten v v' cluster content) (hv : v.Layout)
    (hd : v.IsCluster d) (junk : Buffer) : v'.readCluster d junk = v.readCluster d junk := by
  have hbehind := (hv.cluster_sectors hd).1
  exact h.geometry.readCluster junk fun j _ => h.clusters _ (by omega)

end FatData

end GlitchedOS
