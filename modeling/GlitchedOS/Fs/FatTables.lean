/-
The copies of the table of a FAT volume.  `write_fat` changes one entry in each of them
and in the table that was loaded, so that all of them go on saying the same.
-/
import GlitchedOS.Fs.FatFiles

namespace GlitchedOS

namespace FatData

def entryPlace (v : FatData) (i c : Nat) : Nat :=
  512 * v.bpb.reservedSectors + 4 * (i * (v.fatSize * 128) + c)

def copyEntry (v : FatData) (i c : Nat) : Nat := Buffer.u32 v.backing.byte (v.entryPlace i c)

/-- The copies of the table lie in the volume, on a device with its sectors. -/
structure CopiesInside (v : FatData) : Prop where
  bytesPerSector : v.bpb.bytesPerSector = 512
  volume : v.firstDataSector ≤ v.bpb.totalSectors
  device : v.bpb.totalSectors ≤ v.backing.sectors

/-- Every copy of the table holds what the first one does. -/
def CopiesEqual (v : FatData) : Prop :=
  ∀ i < v.bpb.numFats, ∀ c < v.fatSize * 128, v.copyEntry i c = v.copyEntry 0 c

/-- Every copy of the table has the links of the table that was loaded. -/
def CopiesCoherent (v : FatData) : Prop :=
  ∀ i < v.bpb.numFats, ∀ c < v.fatSize * 128, v.copyEntry i c % 2 ^ 28 = v.link c

/-- A call of `write_fat`. -/
structure FatCall where
  env : FatEnv
  cluster : Nat
  content : Nat

/-- Calls of `write_fat`, one after the other. -/
def writeFats (v : FatData) (calls : List FatCall) : Option FatData :=
  calls.foldlM (fun v call => v.writeFat call.env call.cluster call.content) v

/-- What the calls leave as it is: the reserved bits of the entries, and all sectors
outside of the copies. -/
structure CopiesKept (v w : FatData) : Prop where
  geometry : SameGeometry v w
  reserved : ∀ i < v.bpb.numFats, ∀ c < v.fatSize * 128,
    w.copyEntry i c / 2 ^ 28 = v.copyEntry i c / 2 ^ 28
  outside : ∀ place, place < 512 * v.bpb.reservedSectors ∨ 512 * v.firstDataSector ≤ place →
    w.backing.byte place = v.backing.byte place

/-- What the calls rely on. -/
structure Copies (v : FatData) : Prop where
  bytesPerSector : v.bpb.bytesPerSector = 512
  fat_length : v.fat.length = v.fatSize * 128
  room : v.fatSize * 512 < 2 ^ 32
  device : v.firstDataSector ≤ v.backing.sectors
  sectors : v.firstDataSector ≤ 2 ^ 32

variable {v w v' : FatData} {env : FatEnv} {c d i k n content : Nat}

theorem SameGeometry.entryPlace (h : SameGeometry v w) (i c : Nat) :
    w.entryPlace i c = v.entryPlace i c := by
  rw [FatData.entryPlace, FatData.entryPlace, h.bpb, h.fatSize]

theorem SameGeometry.fatSector (h : SameGeometry v w) (c : Nat) :
    w.fatSector c = v.fatSector c := by
  rw [FatData.fatSector, FatData.fatSector, h.bpb]

theorem SameGeometry.copies (h : SameGeometry v w) (hv : v.Copies) : w.Copies where
  bytesPerSector := by rw [h.bpb]; exact hv.bytesPerSector
  fat_length := by rw [h.fat_length, h.fatSize]; exact hv.fat_length
  room := by rw [h.fatSize]; exact hv.room
  device := by rw [h.firstDataSector, h.sectors]; exact hv.device
  sectors := by rw [h.firstDataSector]; exact hv.sectors

namespace CopiesKept

theorem refl (v : FatData) : CopiesKept v v :=
  ⟨.refl v, fun _ _ _ _ => rfl, fun _ _ => rfl⟩

theorem trans (h : CopiesKept v w) (h' : CopiesKept w v') : CopiesKept v v' where
  geometry := h.geometry.trans h'.geometry
  reserved i hi c hc := by
    have hlater := h'.reserved i (by rw [h.geometry.bpb]; exact hi) c
      (by rw [h.geometry.fatSize]; exact hc)
    exact hlater.trans (h.reserved i hi c hc)
  outside place hplace := by
    have hlater := h'.outside place
      (by rw [h.geometry.bpb, h.geometry.firstDataSector]; exact hplace)
    exact hlater.trans (h.outside place hplace)

end CopiesKept

theorem entryPlace_apart (hc : c < v.fatSize * 128) (hd : d < v.fatSize * 128)
    (hne : i ≠ k ∨ c ≠ d) :
    v.entryPlace i c + 4 ≤ v.entryPlace k d ∨ v.entryPlace k d + 4 ≤ v.entryPlace i c := by
  rw [entryPlace, entryPlace]
  rcases Nat.lt_trichotomy i k with hlt | rfl | hlt
  · have hrows : (i + 1) * (v.fatSize * 128) ≤ k * (v.fatSize * 128) :=
      Nat.mul_le_mul_right _ hlt
    rw [Nat.succ_mul] at hrows
    omega
  · omega
  · have hrows : (k + 1) * (v.fatSize * 128) ≤ i * (v.fatSize * 128) :=
      Nat.mul_le_mul_right _ hlt
    rw [Nat.succ_mul] at hrows
    omega

theorem entryPlace_inside (hi : i < v.bpb.numFats) (hc : c < v.fatSize * 128) :
    512 * v.bpb.reservedSectors ≤ v.entryPlace i c ∧
      v.entryPlace i c + 4 ≤ 512 * v.firstDataSector := by
  have hlt := copy_lt hi (show 4 * c / 512 < v.fatSize by omega)
  have hrow : i * (v.fatSize * 128) = i * v.fatSize * 128 := (Nat.mul_assoc ..).symm
  rw [entryPlace, hrow]
  omega

/-- The sector and the offset that `write_fat` computes are those of the entry. -/
theorem Copies.writeEntry_place (hv : v.Copies) (hi : i < v.bpb.numFats)
    (hc : c < v.fatSize * 128) :
    512 * v.copySector (v.fatSector c) i + 4 * c % 512 = v.entryPlace i c ∧
      v.copySector (v.fatSector c) i < v.backing.sectors := by
  have hlt := copy_lt hi (show 4 * c / 512 < v.fatSize by omega)
  have hpow := hv.sectors
  have hdevice := hv.device
  have hrow : i * (v.fatSize * 128) = i * v.fatSize * 128 := (Nat.mul_assoc ..).symm
  have heq : v.copySector (v.fatSector c) i =
      v.bpb.reservedSectors + 4 * c / 512 + i * v.fatSize :=
    Nat.mod_eq_of_lt (by rw [fatSector]; omega)
  rw [heq, entryPlace, hrow]
  omega

/-- One copy is written: the entry gets its link, all other bytes stay. -/
theorem Copies.writeEntry (hv : v.Copies) (hi : i < v.bpb.numFats) (hc : c < v.fatSize * 128)
    (env : FatEnv) (content : Nat) :
    (v.writeEntry env c content (v.fatSector c) i).copyEntry i c =
        v.copyEntry i c / 2 ^ 28 * 2 ^ 28 + content % 2 ^ 28 ∧
      ∀ place, place < v.entryPlace i c ∨ v.entryPlace i c + 4 ≤ place →
        (v.writeEntry env c content (v.fatSector c) i).backing.byte place =
          v.backing.byte place := by
  obtain ⟨hplace, hfits⟩ := hv.writeEntry_place hi hc
  have hin : 4 * c % 512 + 4 ≤ 512 := by omega
  constructor
  · rw [copyEntry, (writeEntry_geometry ..).entryPlace, copyEntry, ← hplace]
    exact writeFatCopy_u32 hfits hin
  · intro place hother
    rw [← hplace] at hother
    exact writeFatCopy_byte hfits hin place hother

/-- A volume after a call has written the first `n` copies. -/
structure CopiesWritten (v w : FatData) (c content n : Nat) : Prop where
  geometry : SameGeometry v w
  fat : w.fat = v.fat
  entries : ∀ i < v.bpb.numFats, ∀ d < v.fatSize * 128, w.copyEntry i d =
    if i < n ∧ d = c then v.copyEntry i c / 2 ^ 28 * 2 ^ 28 + content % 2 ^ 28
    else v.copyEntry i d
  outside : ∀ place, place < 512 * v.bpb.reservedSectors ∨ 512 * v.firstDataSector ≤ place →
    w.backing.byte place = v.backing.byte place

theorem CopiesWritten.next (hv : v.Copies) (hc : c < v.fatSize * 128) (hn : n < v.bpb.numFats)
    (h : CopiesWritten v w c content n) (env : FatEnv) :
    CopiesWritten v (w.writeEntry env c content (w.fatSector c) n) c content (n + 1) := by
  have hgeo := h.geometry
  have hn' : n < w.bpb.numFats := by rw [hgeo.bpb]; exact hn
  have hc' : c < w.fatSize * 128 := by rw [hgeo.fatSize]; exact hc
  obtain ⟨hself, hother⟩ := (hgeo.copies hv).writeEntry hn' hc' env content
  have hlater := writeEntry_geometry w env c content (w.fatSector c) n
  rw [hgeo.entryPlace] at hother
  refine ⟨hgeo.trans hlater, h.fat, fun i hi d hd => ?_, fun place hplace => ?_⟩
  · by_cases hentry : i = n ∧ d = c
    · obtain ⟨rfl, rfl⟩ := hentry
      have hbefore := h.entries i hi d hd
      rw [if_neg fun hlt => Nat.lt_irrefl i hlt.1] at hbefore
      rw [hself, hbefore, if_pos ⟨Nat.lt_succ_self i, rfl⟩]
    · have hkept : (w.writeEntry env c content (w.fatSector c) n).copyEntry i d =
          w.copyEntry i d := by
        rw [copyEntry, copyEntry, hlater.entryPlace, hgeo.entryPlace]
        have hapart := entryPlace_apart (i := i) (k := n) hd hc (by omega)
        exact Buffer.u32_congr fun j hj => hother _ (by omega)
      have hsame : (i < n + 1 ∧ d = c) = (i < n ∧ d = c) := by
        refine propext ⟨fun hlt => ⟨?_, hlt.2⟩, fun hlt => ⟨Nat.lt_succ_of_lt hlt.1, hlt.2⟩⟩
        exact Nat.lt_of_le_of_ne (Nat.le_of_lt_succ hlt.1) fun hin => hentry ⟨hin, hlt.2⟩
      rw [hkept, h.entries i hi d hd]
      simp only [hsame]
  · have hinside := entryPlace_inside hn hc
    rw [hother place (by omega), h.outside place hplace]

theorem Copies.writeCopies (hv : v.Copies) (env : FatEnv) (content : Nat)
    (hc : c < v.fatSize * 128) (hn : n ≤ v.bpb.numFats) :
    CopiesWritten v ((List.range n).foldl (fun w i =>
      w.writeEntry env c content (v.fatSector c) i) v) c content n := by
  induction n with
  | zero =>
      refine ⟨.refl v, rfl, fun i _ d _ => ?_, fun _ _ => rfl⟩
      rw [if_neg fun hlt => Nat.not_lt_zero i hlt.1]
      rfl
  | succ n ih =>
      have hbefore := ih (Nat.le_of_succ_le hn)
      rw [List.range_succ, List.foldl_append, List.foldl_cons, List.foldl_nil]
      have hnext := hbefore.next hv hc hn env
      rw [hbefore.geometry.fatSector] at hnext
      exact hnext

theorem Copies.writeFat (hv : v.Copies) (hc : c < v.fatSize * 128) (env : FatEnv)
    (content : Nat) :
    ∃ w, v.writeFat env c content = some w ∧ w.fat = v.fat.set c content.toUInt32 ∧
      SameGeometry v w ∧
      (∀ i < v.bpb.numFats, ∀ d < v.fatSize * 128, w.copyEntry i d =
        if d = c then v.copyEntry i c / 2 ^ 28 * 2 ^ 28 + content % 2 ^ 28
        else v.copyEntry i d) ∧
      ∀ place, place < 512 * v.bpb.reservedSectors ∨ 512 * v.firstDataSector ≤ place →
        w.backing.byte place = v.backing.byte place := by
  have hroom := hv.room
  have hoffset : c * 4 % 2 ^ 32 = 4 * c := by
    rw [Nat.mul_comm]
    exact Nat.mod_eq_of_lt (by omega)
  have hin : c < v.fat.length ∧ 4 * c % 512 + 4 ≤ 512 := by
    rw [hv.fat_length]
    omega
  have hset : SameGeometry v { v with fat := v.fat.set c content.toUInt32 } :=
    ⟨rfl, rfl, rfl, rfl, List.length_set⟩
  have hwritten := (hset.copies hv).writeCopies env content hc (Nat.le_refl v.bpb.numFats)
  refine ⟨_, ?_, hwritten.fat, hset.trans hwritten.geometry, fun i hi d hd => ?_,
    hwritten.outside⟩
  · rw [FatData.writeFat, hoffset, hv.bytesPerSector, if_pos hin]
    rfl
  · have hentry := hwritten.entries i hi d hd
    by_cases hself : d = c
    · rw [if_pos ⟨hi, hself⟩] at hentry
      rw [if_pos hself]
      exact hentry
    · rw [if_neg fun h => hself h.2] at hentry
      rw [if_neg hself]
      exact hentry

theorem link_set (hin : c < v.fat.length) (hfat : w.fat = v.fat.set c content.toUInt32) (d : Nat) :
    w.link d = if d = c then content % 2 ^ 28 else v.link d := by
  split
  next heq =>
    rw [heq, link_eq, hfat, List.getElem?_set_self hin]
    change content.toUInt32.toNat % 2 ^ 28 = content % 2 ^ 28
    rw [Nat.toUInt32_eq, UInt32.toNat_ofNat']
    omega
  next hne =>
    rw [link_eq, link_eq, hfat, List.getElem?_set_ne (Ne.symm hne)]

/-- A call keeps the copies coherent. -/
theorem Copies.writeFat_coherent (hv : v.Copies) (hcoherent : v.CopiesCoherent)
    (hc : c < v.fatSize * 128) (env : FatEnv) (content : Nat) :
    ∃ w, v.writeFat env c content = some w ∧ w.CopiesCoherent ∧ CopiesKept v w := by
  obtain ⟨w, hwrite, hfat, hgeo, hentries, houtside⟩ := hv.writeFat hc env content
  have hlink := link_set (by rw [hv.fat_length]; exact hc) hfat
  refine ⟨w, hwrite, fun i hi d hd => ?_, hgeo, fun i hi d hd => ?_, houtside⟩
  · rw [hgeo.bpb] at hi
    rw [hgeo.fatSize] at hd
    rw [hentries i hi d hd, hlink d]
    split
    · omega
    · exact hcoherent i hi d hd
  · rw [hentries i hi d hd]
    split
    next heq =>
      rw [heq]
      omega
    · rfl

theorem Copies.writeFats {calls : List FatCall} (hv : v.Copies) (hcoherent : v.CopiesCoherent)
    (hcalls : ∀ call ∈ calls, call.cluster < v.fatSize * 128) :
    ∃ w, v.writeFats calls = some w ∧ w.CopiesCoherent ∧ CopiesKept v w := by
  induction calls generalizing v with
  | nil => exact ⟨v, rfl, hcoherent, .refl v⟩
  | cons call rest ih =>
      obtain ⟨next, hwrite, hnext, hkept⟩ := hv.writeFat_coherent hcoherent
        (hcalls call List.mem_cons_self) call.env call.content
      obtain ⟨w, hrest, hw, hkept'⟩ := ih (hkept.geometry.copies hv) hnext fun later hlater => by
        rw [hkept.geometry.fatSize]
        exact hcalls later (List.mem_cons_of_mem call hlater)
      refine ⟨w, ?_, hw, hkept.trans hkept'⟩
      rw [FatData.writeFats, List.foldlM_cons, hwrite]
      exact hrest

theorem fatMount_eq {backing : Disk} {junk : Buffer} {readOnly : Bool}
    (hmount : fatMount backing junk readOnly = some v) :
    v.backing = backing ∧ v.bpb = Bpb.ofBuffer (backing.readSectors 0 1 junk).2 ∧
      v.fatSize = v.bpb.fatSectors ∧
      v.bpb.reservedSectors + v.fatSize ≤ backing.sectors ∧
      512 * v.fatSize ≤ v.fatSize * v.bpb.bytesPerSector % 2 ^ 32 ∧
      v.fat = (List.range (v.fatSize * v.bpb.bytesPerSector % 2 ^ 32 / 4)).map fun c =>
        ((backing.readSectors v.bpb.reservedSectors v.fatSize junk).2.u32 (4 * c)).toUInt32 := by
  unfold fatMount at hmount
  dsimp only at hmount
  split at hmount
  · cases hmount
  · split at hmount
    next hread => cases hmount
    next hread =>
      split at hmount
      · cases hmount
      next hroom =>
        cases hmount
        refine ⟨rfl, rfl, rfl, ?_, Nat.le_of_not_lt hroom, rfl⟩
        by_contra hbehind
        refine hread ?_
        rw [Disk.readSectors, if_neg hbehind]
        exact (by decide : eInval < 0)

theorem totalSectors_lt (b : Buffer) : (Bpb.ofBuffer b).totalSectors < 2 ^ 32 := by
  rw [Bpb.totalSectors]
  split
  · exact Nat.lt_trans (Buffer.u16_lt b 19) (by decide)
  · exact Buffer.u32_lt b 32

theorem copies_of_mount {backing : Disk} {junk : Buffer} {readOnly : Bool}
    (hmount : fatMount backing junk readOnly = some v) (hinside : v.CopiesInside)
    (hequal : v.CopiesEqual) : v.Copies ∧ v.CopiesCoherent := by
  obtain ⟨hbacking, hbpb, -, hreads, hroom, hfat⟩ := fatMount_eq hmount
  have hvolume := hinside.volume
  have htotal : v.bpb.totalSectors < 2 ^ 32 := hbpb ▸ totalSectors_lt _
  have hsize := hinside.bytesPerSector
  have hlt := Nat.mod_lt (v.fatSize * v.bpb.bytesPerSector) (show 0 < 2 ^ 32 by decide)
  have hmod := Nat.mod_le (v.fatSize * v.bpb.bytesPerSector) (2 ^ 32)
  rw [hsize] at hroom hfat hlt hmod
  have hexact : v.fatSize * 512 % 2 ^ 32 = v.fatSize * 512 := by omega
  rw [hexact] at hfat
  have hlength : v.fat.length = v.fatSize * 128 := by
    rw [hfat, List.length_map, List.length_range]
    omega
  refine ⟨⟨hsize, hlength, by omega, Nat.le_trans hvolume hinside.device, by omega⟩,
    fun i hi c hc => ?_⟩
  have hentry : (backing.readSectors v.bpb.reservedSectors v.fatSize junk).2.u32 (4 * c) =
      v.copyEntry 0 c := by
    rw [copyEntry, entryPlace, Nat.zero_mul, Nat.zero_add, hbacking]
    refine Buffer.u32_congr fun j hj => ?_
    rw [Disk.readSectors, if_pos hreads, Nat.add_assoc]
    exact if_pos (by omega)
  have hu32 := Buffer.u32_lt v.backing.byte (v.entryPlace 0 c)
  rw [hequal i hi c hc, link_eq, hfat, List.getElem?_map, List.getElem?_range (by omega),
    Option.map_some, hentry, copyEntry]
  change _ = (Nat.toUInt32 _).toNat % 2 ^ 28
  rw [Nat.toUInt32_eq, UInt32.toNat_ofNat', Nat.mod_eq_of_lt hu32]

end FatData

open FatData

/-- However `write_fat` is called on a mounted volume, after each call all copies of the
table and the loaded one have the same links; the reserved bits and the other sectors stay
what they were at the mount. -/
theorem tables_stay_coherent (backing : Disk) (junk : Buffer) (readOnly : Bool) (v : FatData)
    (hmount : fatMount backing junk readOnly = some v) (hinside : v.CopiesInside)
    (hequal : v.CopiesEqual) (calls : List FatData.FatCall)
    (hcalls : ∀ call ∈ calls, call.cluster * 4 < v.fatSize * 512) :
    ∃ w, v.writeFats calls = some w ∧ w.CopiesCoherent ∧ CopiesKept v w := by
  obtain ⟨hv, hcoherent⟩ := copies_of_mount hmount hinside hequal
  refine hv.writeFats hcoherent fun call hcall => ?_
  have hlt := hcalls call hcall
  omega

/-- A disk with two copies of a table of one sector, and one cluster behind them. -/
def twoTableDisk : Disk where
  byte i :=
    if i = 12 then 2
    else if i = 13 then 1
    else if i = 14 then 1
    else if i = 16 then 2
    else if i = 19 then 4
    else if i = 22 then 1
    else 0
  sectors := 4

def twoTableVolume : FatData where
  backing := twoTableDisk
  bpb :=
    { bytesPerSector := 512, sectorsPerCluster := 1, reservedSectors := 1, numFats := 2,
      totalSectors16 := 4, fatSize16 := 1, totalSectors32 := 0, fatSize32 := 0,
      rootCluster := 0, fsInfo := 0 }
  fat := List.replicate 128 0
  readOnly := false
  fatSize := 1
  lastFree := 2

theorem twoTableVolume_mount : fatMount twoTableDisk (fun _ => 0) false = some twoTableVolume := by
  rfl

theorem tables_stay_coherent_two :
    ∃ w, twoTableVolume.writeFats [⟨zeroEnv 0, 2, clusterChainEnd⟩, ⟨zeroEnv 0, 3, 2⟩] = some w ∧
      w.CopiesCoherent ∧ CopiesKept twoTableVolume w := by
  have hbyte : ∀ place, 22 < place → twoTableDisk.byte place = 0 := by
    intro place hplace
    rw [twoTableDisk]
    dsimp only
    rw [if_neg (by omega), if_neg (by omega), if_neg (by omega), if_neg (by omega),
      if_neg (by omega), if_neg (by omega)]
  have hzero : ∀ i c, twoTableVolume.copyEntry i c = Buffer.u32 (fun _ => 0) 0 := by
    intro i c
    refine Buffer.u32_congr fun j _ => hbyte _ ?_
    have hplace : twoTableVolume.entryPlace i c = 512 + 4 * (i * 128 + c) := rfl
    omega
  refine tables_stay_coherent twoTableDisk (fun _ => 0) false twoTableVolume twoTableVolume_mount
    ⟨rfl, by decide, by decide⟩ (fun i _ c _ => (hzero i c).trans (hzero 0 c).symm) _ ?_
  decide

end GlitchedOS
