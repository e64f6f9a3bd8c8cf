/-
The files of a volume.  Each file and each directory has a chain of clusters of its own
that ends; the links outside these chains, and the contents of the clusters of files, do
not matter for that.
-/
import GlitchedOS.Lib.Chains
import GlitchedOS.Fs.FatCreate

namespace GlitchedOS

/-! ### Entries -/

namespace FatDirent

/-- An entry that a search may find. -/
def InUse (d : FatDirent) : Prop := d.firstByte ≠ direntEnd ∧ d.isSkipped = false

def IsFile (d : FatDirent) : Prop := d.InUse ∧ d.isDirectory = false

/-- The entry of a directory other than `.` and `..`. -/
def IsSub (d : FatDirent) : Prop := d.InUse ∧ d.isDirectory = true ∧ d.firstByte ≠ '.'

/-- The entry has a chain of its own. -/
def Owns (d : FatDirent) : Prop := d.IsFile ∨ d.IsSub

instance (d : FatDirent) : Decidable d.InUse := inferInstanceAs (Decidable (_ ∧ _))

instance (d : FatDirent) : Decidable d.IsFile := inferInstanceAs (Decidable (_ ∧ _))

instance (d : FatDirent) : Decidable d.IsSub := inferInstanceAs (Decidable (_ ∧ _))

instance (d : FatDirent) : Decidable d.Owns := inferInstanceAs (Decidable (_ ∨ _))

theorem Owns.inUse {d : FatDirent} (h : d.Owns) : d.InUse := by
  rcases h with hfile | hsub
  · exact hfile.1
  · exact hsub.1

theorem ofBuffer_congr {b b' : Buffer} {start start' : Nat}
    (h : ∀ i < 32, b (start + i) = b' (start' + i)) :
    ofBuffer b start = ofBuffer b' start' := by
  have h16 : ∀ k, k + 2 ≤ 32 → b.u16 (start + k) = b'.u16 (start' + k) := fun k hk =>
    Buffer.u16_congr fun i hi => by
      rw [Nat.add_assoc, Nat.add_assoc]
      exact h (k + i) (by omega)
  have h32 : b.u32 (start + 28) = b'.u32 (start' + 28) := Buffer.u32_congr fun i hi => by
    rw [Nat.add_assoc, Nat.add_assoc]
    exact h (28 + i) (by omega)
  have hname : (List.range 11).map (fun i => Char.ofUInt8 (b (start + i))) =
      (List.range 11).map fun i => Char.ofUInt8 (b' (start' + i)) := by
    refine List.map_congr_left fun i hi => ?_
    rw [h i (Nat.lt_trans (List.mem_range.mp hi) (by decide))]
  rw [ofBuffer, ofBuffer, hname, h 11 (by decide), h 12 (by decide), h 13 (by decide),
    h16 14 (by decide), h16 16 (by decide), h16 18 (by decide), h16 20 (by decide),
    h16 22 (by decide), h16 24 (by decide), h16 26 (by decide), h32]

end FatDirent

namespace FatData

/-- The table in memory has the links of the table on the device. -/
structure Synced (v : FatData) : Prop extends Layout v where
  sync : ∀ cluster, v.IsCluster cluster → v.link cluster = v.entryOnDisk cluster % 2 ^ 28

/-- The next cluster of a chain, unless the chain ends. -/
def follow (v : FatData) (cluster : Nat) : Option Nat :=
  if v.link cluster < clusterChainEnd then some (v.link cluster) else none

def clusterPlace (v : FatData) (cluster : Nat) : Nat := 512 * v.getFirstClusterSector cluster

def slotPlace (v : FatData) (cluster i : Nat) : Nat := v.clusterPlace cluster + 32 * i

def direntAt (v : FatData) (place : Nat) : FatDirent := .ofBuffer v.backing.byte place

/-- The links and the contents outside some clusters are as before. -/
structure Changed (v v' : FatData) (relinked filled : Set Nat) : Prop where
  geometry : SameGeometry v v'
  synced : v'.Synced
  link : ∀ c, c ∉ relinked → v'.link c = v.link c
  content : ∀ c, v.IsCluster c → c ∉ filled → ∀ j < 512 * v.bpb.sectorsPerCluster,
    v'.backing.byte (v.clusterPlace c + j) = v.backing.byte (v.clusterPlace c + j)

def DirOn (v : FatData) (dirs : Set Nat) (cluster : Nat) : Prop :=
  ∃ d ∈ dirs, OnChain v.follow d cluster

/-- The place of an entry of one of the directories. -/
def IsSlot (v : FatData) (dirs : Set Nat) (place : Nat) : Prop :=
  ∃ cluster i, v.DirOn dirs cluster ∧ i < v.entryCount ∧ place = v.slotPlace cluster i

/-- A volume after a write to one entry. -/
structure SlotWritten (v v' : FatData) (place : Nat) : Prop where
  geometry : SameGeometry v v'
  synced : v'.Synced
  link : ∀ c, v'.link c = v.link c
  other : ∀ j, 512 * v.firstDataSector ≤ j → j < place ∨ place + 32 ≤ j →
    v'.backing.byte j = v.backing.byte j

/-- The entry of the table that is reserved leads to no other one, or was released. -/
def ReservedEnds (v : FatData) : Prop :=
  v.link 0 = 0 ∨ clusterChainEnd ≤ v.link 0 ∨ v.fat.length ≤ v.link 0

/-- The first clusters of the files and directories.  Their chains end, have no cluster
in common, and are the chains of the entries. -/
structure FilesSound (v : FatData) (heads dirs : Set Nat) : Prop extends Synced v where
  chains : Chains v.follow heads
  clusters : ∀ h ∈ heads, ∀ c, OnChain v.follow h c → v.IsCluster c
  reserved : v.ReservedEnds
  dirs_heads : dirs ⊆ heads
  root : v.bpb.rootCluster ∈ dirs
  sub : ∀ a, v.IsSlot dirs a → (v.direntAt a).IsSub → (v.direntAt a).firstCluster ∈ dirs
  file : ∀ a, v.IsSlot dirs a → (v.direntAt a).IsFile → (v.direntAt a).firstCluster = 0 ∨
    (v.direntAt a).firstCluster ∈ heads ∧ (v.direntAt a).firstCluster ∉ dirs
  apart : ∀ a a', v.IsSlot dirs a → v.IsSlot dirs a' → (v.direntAt a).Owns →
    (v.direntAt a').Owns → (v.direntAt a).firstCluster = (v.direntAt a').firstCluster →
      (v.direntAt a).firstCluster ≠ 0 → a = a'
  not_root : ∀ a, v.IsSlot dirs a → (v.direntAt a).Owns →
    (v.direntAt a).firstCluster ≠ v.bpb.rootCluster

variable {v v' v'' : FatData} {env : FatEnv} {heads heads' dirs relinked relinked' filled filled' :
  Set Nat} {a c g h i p cluster content fuel : Nat} {buffer : Buffer}

/-! ### Links -/

theorem link_eq (v : FatData) (cluster : Nat) :
    v.link cluster = ((v.fat[cluster]?.map UInt32.toNat).map (· % 2 ^ 28)).getD 0 := rfl

theorem follow_eq_some (hlink : v.link c < clusterChainEnd) : v.follow c = some (v.link c) :=
  if_pos hlink

theorem follow_eq_none (hlink : clusterChainEnd ≤ v.link c) : v.follow c = none :=
  if_neg (Nat.not_lt.mpr hlink)

theorem follow_congr (hlink : v'.link c = v.link c) : v'.follow c = v.follow c := by
  rw [follow, follow, hlink]

theorem link_of_follow (hlast : v.follow c = none) : clusterChainEnd ≤ v.link c := by
  rw [follow] at hlast
  split at hlast
  · cases hlast
  next hlink => exact Nat.le_of_not_lt hlink

/-- A cluster that is not the last of its chain has a link to the next one. -/
theorem chain_next {rest : List Nat} (hchain : Chain v.follow (some c) (c :: rest))
    (hmore : rest ≠ []) :
    v.link c < clusterChainEnd ∧ Chain v.follow (some (v.link c)) rest := by
  have hrest : Chain v.follow (v.follow c) rest := hchain.2
  by_cases hlink : v.link c < clusterChainEnd
  · exact ⟨hlink, follow_eq_some hlink ▸ hrest⟩
  · rw [follow_eq_none (Nat.le_of_not_lt hlink)] at hrest
    cases rest with
    | nil => exact absurd rfl hmore
    | cons b rest => cases hrest.1

theorem FatWritten.link_other (hwritten : FatWritten v v' cluster content) {d : Nat}
    (hne : d ≠ cluster) : v'.link d = v.link d := by
  rw [link_eq, link_eq, hwritten.fat, List.getElem?_set_ne hne.symm]

theorem FatWritten.link_self (hwritten : FatWritten v v' cluster content)
    (hin : cluster < v.fat.length) : v'.link cluster = content % 2 ^ 28 := by
  have hcontent : content.toUInt32.toNat = content % 2 ^ 32 := by
    rw [Nat.toUInt32_eq, UInt32.toNat_ofNat']
  rw [link_eq, hwritten.fat, List.getElem?_set_self hin, Option.map_some, Option.map_some,
    Option.getD_some, hcontent]
  omega

namespace Synced

theorem inTable (hv : v.Synced) (hc : v.IsCluster c) : c < v.fatSize * 128 :=
  Nat.lt_of_lt_of_le hc.2 hv.table

theorem length_fat (hv : v.Synced) : v.fat.length = v.fatSize * 128 := by
  have hlength := hv.fat_length
  omega

theorem lt_clusterChainEnd (hv : v.Synced) (hc : v.IsCluster c) : c < clusterChainEnd :=
  Nat.lt_trans hc.2 hv.numbers

theorem nextCluster_eq (hv : v.Synced) (hc : c < v.fatSize * 128) :
    v.nextCluster c = some (v.link c) :=
  hv.toLayout.toValid.nextCluster_eq (show c < v.fatSize * 512 / 4 by omega)

theorem isFree_iff (hv : v.Synced) : v.IsFree c ↔ v.IsCluster c ∧ v.link c = 0 := by
  constructor
  · intro hfree
    exact ⟨hfree.isCluster, (hv.sync c hfree.isCluster).trans hfree.2.2⟩
  · rintro ⟨hc, hlink⟩
    exact ⟨hc.1, hc.2, (hv.sync c hc).symm.trans hlink⟩

theorem isFree_computeFreeCluster (hv : v.Synced) (h : v.computeFreeCluster.1 ≠ 0) :
    v.IsFree v.computeFreeCluster.1 :=
  hv.toLayout.computeFreeCluster_isFree h

end Synced

/-! ### Changes -/

/-- What is written behind the tables leaves the tables alone. -/
theorem SameGeometry.synced (hgeo : SameGeometry v v') (hv : v.Synced) (hfat : v'.fat = v.fat)
    (hbytes : ∀ j < 512 * v.firstDataSector, v'.backing.byte j = v.backing.byte j) :
    v'.Synced where
  toLayout := hgeo.layout hv.toLayout
  sync c hc := by
    have hc' := hgeo.isCluster.mp hc
    have hin := hv.inTable hc'
    have hlt := copy_lt hv.numFats (show c / 128 < v.fatSize by omega)
    have hentry : v'.entryOnDisk c = v.entryOnDisk c := by
      rw [(hgeo.layout hv.toLayout).entryOnDisk_eq (by rw [hgeo.fatSize]; exact hin),
        hv.toLayout.entryOnDisk_eq hin, hgeo.bpb]
      refine Buffer.u32_congr fun j hj => hbytes _ ?_
      omega
    rw [hentry, ← hv.sync c hc', link_eq, link_eq, hfat]

theorem SameGeometry.clusterPlace (hgeo : SameGeometry v v') (c : Nat) :
    v'.clusterPlace c = v.clusterPlace c := by
  rw [FatData.clusterPlace, FatData.clusterPlace, hgeo.getFirstClusterSector]

theorem SameGeometry.slotPlace (hgeo : SameGeometry v v') (c i : Nat) :
    v'.slotPlace c i = v.slotPlace c i := by
  rw [FatData.slotPlace, FatData.slotPlace, hgeo.clusterPlace]

namespace Changed

theorem mono (hchanged : Changed v v' relinked filled) (hrelinked : relinked ⊆ relinked')
    (hfilled : filled ⊆ filled') : Changed v v' relinked' filled' where
  geometry := hchanged.geometry
  synced := hchanged.synced
  link c hnot := hchanged.link c fun hmem => hnot (hrelinked hmem)
  content c hc hnot := hchanged.content c hc fun hmem => hnot (hfilled hmem)

theorem trans (hchanged : Changed v v' relinked filled)
    (hchanged' : Changed v' v'' relinked' filled') :
    Changed v v'' (relinked ∪ relinked') (filled ∪ filled') where
  geometry := hchanged.geometry.trans hchanged'.geometry
  synced := hchanged'.synced
  link c hnot := by
    rw [Set.mem_union, not_or] at hnot
    exact (hchanged'.link c hnot.2).trans (hchanged.link c hnot.1)
  content c hc hnot j hj := by
    rw [Set.mem_union, not_or] at hnot
    have hlater := hchanged'.content c (hchanged.geometry.isCluster.mpr hc) hnot.2 j
      (by rw [hchanged.geometry.bpb]; exact hj)
    rw [hchanged.geometry.clusterPlace] at hlater
    exact hlater.trans (hchanged.content c hc hnot.1 j hj)

theorem follow (hchanged : Changed v v' relinked filled) (hnot : c ∉ relinked) :
    v'.follow c = v.follow c :=
  follow_congr (hchanged.link c hnot)

end Changed

theorem SlotWritten.follow (hwritten : SlotWritten v v' a) : v'.follow = v.follow :=
  funext fun c => follow_congr (hwritten.link c)

namespace Synced

/-- `write_fat` changes one link. -/
theorem writeFat (hv : v.Synced) (hc : c < v.fatSize * 128) (hsmall : c < clusterChainEnd)
    (hwrite : v.writeFat env c content = some v') :
    Changed v v' {c} ∅ ∧ v'.link c = content % 2 ^ 28 := by
  have hwritten := hv.toLayout.writeFat_written hc hsmall hwrite
  have hself : v'.link c = content % 2 ^ 28 :=
    hwritten.link_self (by rw [hv.length_fat]; exact hc)
  refine ⟨⟨hwritten.geometry, ⟨hwritten.geometry.layout hv.toLayout, fun d hd => ?_⟩,
    fun d hne => hwritten.link_other hne, fun d hd _ j hj => ?_⟩, hself⟩
  · have hd' := hwritten.geometry.isCluster.mp hd
    by_cases hdc : d = c
    · subst hdc
      rw [hself, hwritten.entry]
    · rw [hwritten.link_other hdc, hwritten.other d (hv.inTable hd') hdc, hv.sync d hd']
  · have hbehind := (hv.toLayout.cluster_sectors hd).1
    exact hwritten.clusters _ (by rw [clusterPlace]; omega)

theorem writeFat_eq (hv : v.Synced) (hc : c < v.fatSize * 128) (hsmall : c < clusterChainEnd)
    (env : FatEnv) (content : Nat) : ∃ v', v.writeFat env c content = some v' := by
  obtain ⟨v', hwrite, -⟩ := hv.toLayout.writeFat_eq hc hsmall env content
  exact ⟨v', hwrite⟩

/-- A write to a cluster changes its contents. -/
theorem writeCluster (hv : v.Synced) (hc : v.IsCluster c) (buffer : Buffer) :
    Changed v (v.writeSectors (v.getFirstClusterSector c) buffer v.bpb.sectorsPerCluster)
      ∅ {c} := by
  have hgeo := writeSectors_geometry v (v.getFirstClusterSector c) buffer
    v.bpb.sectorsPerCluster
  have hbehind := (hv.toLayout.cluster_sectors hc).1
  refine ⟨hgeo, hgeo.synced hv rfl fun j hj => ?_, fun _ _ => rfl, fun d hd hne j hj => ?_⟩
  · rw [hv.toLayout.writeCluster_byte hc, if_neg (by omega)]
  · have happart := hv.toLayout.clusters_apart hd hc hne
    rw [hv.toLayout.writeCluster_byte hc, clusterPlace, if_neg (by omega)]

theorem setLastFree (hv : v.Synced) (lastFree : Nat) :
    Changed v { v with lastFree := lastFree } ∅ ∅ :=
  ⟨setLastFree_geometry v lastFree, (setLastFree_geometry v lastFree).synced hv rfl
    fun _ _ => rfl, fun _ _ => rfl, fun _ _ _ _ _ => rfl⟩

theorem computeFreeCluster (hv : v.Synced) : Changed v v.computeFreeCluster.2 ∅ ∅ := by
  rw [computeFreeCluster_snd]
  exact hv.setLastFree _

end Synced

/-! ### Places of entries -/

theorem Valid.slot_fits (hv : v.Valid) (hi : i < v.entryCount) :
    32 * i + 32 ≤ 512 * v.bpb.sectorsPerCluster := by
  have hsize := hv.bytesPerCluster_eq
  rw [bytesPerCluster, hv.bytesPerSector] at hsize
  omega

theorem slotPlace_mod (v : FatData) (c i : Nat) : v.slotPlace c i % 32 = 0 := by
  rw [slotPlace, clusterPlace]
  omega

theorem IsSlot.separate {a' : Nat} (ha : v.IsSlot dirs a) (ha' : v.IsSlot dirs a')
    (hne : a ≠ a') : a + 32 ≤ a' ∨ a' + 32 ≤ a := by
  obtain ⟨c, i, -, -, rfl⟩ := ha
  obtain ⟨c', i', -, -, rfl⟩ := ha'
  have hmod := v.slotPlace_mod c i
  have hmod' := v.slotPlace_mod c' i'
  omega

theorem isSlot_congr (hgeo : SameGeometry v v') (hdir : ∀ c, v'.DirOn dirs c ↔ v.DirOn dirs c) :
    v'.IsSlot dirs a ↔ v.IsSlot dirs a := by
  simp only [IsSlot, hdir, hgeo.entryCount, hgeo.slotPlace]

theorem IsSlot.mono {dirs' : Set Nat} (ha : v.IsSlot dirs' a) (hsubset : dirs' ⊆ dirs) :
    v.IsSlot dirs a := by
  obtain ⟨c, i, ⟨d, hd, honChain⟩, hi, rfl⟩ := ha
  exact ⟨c, i, ⟨d, hsubset hd, honChain⟩, hi, rfl⟩

theorem Changed.direntAt (hchanged : Changed v v' relinked filled) (hv : v.Synced)
    (hc : v.IsCluster c) (hnot : c ∉ filled) (hi : i < v.entryCount) :
    v'.direntAt (v.slotPlace c i) = v.direntAt (v.slotPlace c i) := by
  have hfits := hv.toLayout.toValid.slot_fits hi
  refine FatDirent.ofBuffer_congr fun j hj => ?_
  rw [slotPlace, Nat.add_assoc]
  exact hchanged.content c hc hnot (32 * i + j) (by omega)

namespace FilesSound

/-! ### What keeps the files sound -/

theorem dirOn_isCluster (hsound : FilesSound v heads dirs) (hc : v.DirOn dirs c) :
    v.IsCluster c := by
  obtain ⟨d, hd, honChain⟩ := hc
  exact hsound.clusters d (hsound.dirs_heads hd) c honChain

theorem not_onChain_of_free (hsound : FilesSound v heads dirs) (hfree : v.IsFree g)
    (hh : h ∈ heads) : ¬ OnChain v.follow h g := by
  intro honChain
  have hlink := (hsound.toSynced.isFree_iff.mp hfree).2
  have hnext : v.follow g = some 0 := by
    rw [follow_eq_some (by rw [hlink]; decide), hlink]
  exact absurd (hsound.clusters h hh 0 (honChain.step hnext)).1 (by decide)

theorem not_dirOn_of_free (hsound : FilesSound v heads dirs) (hfree : v.IsFree g) :
    ¬ v.DirOn dirs g := by
  rintro ⟨d, hd, honChain⟩
  exact hsound.not_onChain_of_free hfree (hsound.dirs_heads hd) honChain

/-- The chain of a file shares no cluster with a directory. -/
theorem not_dirOn_of_file (hsound : FilesSound v heads dirs) (hh : h ∈ heads)
    (hfile : h ∉ dirs) (honChain : OnChain v.follow h c) : ¬ v.DirOn dirs c := by
  rintro ⟨d, hd, honChain'⟩
  exact hfile (hsound.chains.apart h hh d (hsound.dirs_heads hd) c honChain honChain' ▸ hd)

theorem of_slots (hsound : FilesSound v heads dirs) (hv' : v'.Synced) (hbpb : v'.bpb = v.bpb)
    (hchains : Chains v'.follow heads')
    (hclusters : ∀ h ∈ heads', ∀ c, OnChain v'.follow h c → v'.IsCluster c)
    (hreserved : v'.ReservedEnds) (hheads : heads ⊆ heads')
    (hslots : ∀ a, v'.IsSlot dirs a → (v'.direntAt a).Owns →
      v.IsSlot dirs a ∧ v'.direntAt a = v.direntAt a) : FilesSound v' heads' dirs where
  toSynced := hv'
  chains := hchains
  clusters := hclusters
  reserved := hreserved
  dirs_heads := fun d hd => hheads (hsound.dirs_heads hd)
  root := hbpb ▸ hsound.root
  sub a ha hsub := by
    obtain ⟨ha, heq⟩ := hslots a ha (.inr hsub)
    rw [heq] at hsub ⊢
    exact hsound.sub a ha hsub
  file a ha hfile := by
    obtain ⟨ha, heq⟩ := hslots a ha (.inl hfile)
    rw [heq] at hfile ⊢
    exact (hsound.file a ha hfile).imp_right fun h => ⟨hheads h.1, h.2⟩
  apart a a' ha ha' howns howns' hsame hne := by
    obtain ⟨ha, heq⟩ := hslots a ha howns
    obtain ⟨ha', heq'⟩ := hslots a' ha' howns'
    rw [heq] at howns hsame hne
    rw [heq'] at howns' hsame
    exact hsound.apart a a' ha ha' howns howns' hsame hne
  not_root a ha howns := by
    obtain ⟨ha, heq⟩ := hslots a ha howns
    rw [heq] at howns ⊢
    rw [hbpb]
    exact hsound.not_root a ha howns

/-- The chains are the same when no link on them has changed. -/
theorem onChain_keep (hsound : FilesSound v heads dirs) (hchanged : Changed v v' relinked filled)
    (hlinks : ∀ k ∈ heads, ∀ c, OnChain v.follow k c → c ∉ relinked) (hh : h ∈ heads) :
    OnChain v'.follow h c ↔ OnChain v.follow h c :=
  hsound.chains.onChain_congr hh fun b hb =>
    hchanged.follow (hlinks h hh b hb)

theorem dirOn_keep (hsound : FilesSound v heads dirs) (hchanged : Changed v v' relinked filled)
    (hlinks : ∀ k ∈ heads, ∀ c, OnChain v.follow k c → c ∉ relinked) :
    v'.DirOn dirs c ↔ v.DirOn dirs c :=
  exists_congr fun _ => and_congr_right fun hd =>
    hsound.onChain_keep hchanged hlinks (hsound.dirs_heads hd)

theorem reserved_keep (hsound : FilesSound v heads dirs)
    (hchanged : Changed v v' relinked filled) (hclusters : ∀ c ∈ relinked, v.IsCluster c) :
    v'.ReservedEnds := by
  rw [ReservedEnds, hchanged.link 0 fun hmem => absurd (hclusters 0 hmem).1 (by decide),
    hchanged.geometry.fat_length]
  exact hsound.reserved

/-- Links outside the chains and contents outside the directories may change. -/
theorem keep (hsound : FilesSound v heads dirs) (hchanged : Changed v v' relinked filled)
    (hlinks : ∀ k ∈ heads, ∀ c, OnChain v.follow k c → c ∉ relinked)
    (hfilled : ∀ c, v.DirOn dirs c → c ∉ filled)
    (hreserved : v'.ReservedEnds) : FilesSound v' heads dirs := by
  refine hsound.of_slots hchanged.synced hchanged.geometry.bpb
    (hsound.chains.congr fun k hk b hb => hchanged.follow (hlinks k hk b hb))
    (fun k hk c honChain => ?_) hreserved (fun _ hk => hk) fun a ha _ => ?_
  · rw [hsound.onChain_keep hchanged hlinks hk] at honChain
    exact hchanged.geometry.isCluster.mpr (hsound.clusters k hk c honChain)
  · rw [isSlot_congr hchanged.geometry fun c => hsound.dirOn_keep hchanged hlinks] at ha
    obtain ⟨c, i, hc, hi, rfl⟩ := id ha
    exact ⟨ha, hchanged.direntAt hsound.toSynced (hsound.dirOn_isCluster hc) (hfilled c hc) hi⟩

theorem drop (hsound : FilesSound v heads dirs) (hroot : h ≠ v.bpb.rootCluster)
    (hslots : ∀ a, v.IsSlot dirs a → (v.direntAt a).Owns → (v.direntAt a).firstCluster ≠ h) :
    FilesSound v (heads \ {h}) (dirs \ {h}) where
  toSynced := hsound.toSynced
  chains := hsound.chains.mono Set.sdiff_subset
  clusters k hk := hsound.clusters k hk.1
  reserved := hsound.reserved
  dirs_heads d hd := ⟨hsound.dirs_heads hd.1, hd.2⟩
  root := ⟨hsound.root, hroot.symm⟩
  sub a ha hsub := by
    have ha := ha.mono Set.sdiff_subset
    exact ⟨hsound.sub a ha hsub, hslots a ha (.inr hsub)⟩
  file a ha hfile := by
    have ha := ha.mono Set.sdiff_subset
    exact (hsound.file a ha hfile).imp_right fun h =>
      ⟨⟨h.1, hslots a ha (.inl hfile)⟩, fun hmem => h.2 hmem.1⟩
  apart a a' ha ha' := hsound.apart a a' (ha.mono Set.sdiff_subset) (ha'.mono Set.sdiff_subset)
  not_root a ha := hsound.not_root a (ha.mono Set.sdiff_subset)

/-- A free cluster becomes a chain of its own. -/
theorem addHead (hsound : FilesSound v heads dirs) (hfree : v.IsFree g)
    (hchanged : Changed v v' {g} {g}) (hlast : clusterChainEnd ≤ v'.link g) :
    FilesSound v' (insert g heads) dirs := by
  have hlinks : ∀ k ∈ heads, ∀ c, OnChain v.follow k c → c ∉ ({g} : Set Nat) := by
    rintro k hk c honChain rfl
    exact hsound.not_onChain_of_free hfree hk honChain
  have hfilled : ∀ c, v.DirOn dirs c → c ∉ ({g} : Set Nat) := by
    rintro c hc rfl
    exact hsound.not_dirOn_of_free hfree hc
  have hkept := hsound.keep hchanged hlinks hfilled (hsound.reserved_keep hchanged fun c hc =>
    hc ▸ hfree.isCluster)
  have hchain : Chain v'.follow (some g) [g] := ⟨rfl, follow_eq_none hlast⟩
  have hfresh : ∀ k ∈ heads, ¬ OnChain v'.follow k g := fun k hk => by
    rw [hsound.onChain_keep hchanged hlinks hk]
    exact hsound.not_onChain_of_free hfree hk
  refine hkept.of_slots hchanged.synced rfl (hkept.chains.insert hchain fun k hk a ha => ?_)
    (fun k hk c honChain => ?_) hkept.reserved (Set.subset_insert g heads) fun a ha _ => ⟨ha, rfl⟩
  · rw [List.mem_singleton.mp ha]
    exact hfresh k hk
  · rcases hk with rfl | hk
    · rw [hchain.onChain_iff, List.mem_singleton] at honChain
      rw [honChain]
      exact hchanged.geometry.isCluster.mpr hfree.isCluster
    · exact hkept.clusters k hk c honChain

/-- The last cluster of a chain gets a free one behind it, which holds no entries when the
chain is one of a directory: what is on the chains then. -/
theorem onChain_extend (hsound : FilesSound v heads dirs) (hh : h ∈ heads)
    (honChain : OnChain v.follow h p) (hlast : v.follow p = none) (hfree : v.IsFree g)
    (hchanged : Changed v v' {p, g} {g}) (hp : v'.link p = g)
    (hg : clusterChainEnd ≤ v'.link g) {k : Nat} (hk : k ∈ heads) :
    OnChain v'.follow k c ↔ OnChain v.follow k c ∨ k = h ∧ c = g := by
  have hsmall : v'.link p < clusterChainEnd := by
    rw [hp]
    exact hsound.toSynced.lt_clusterChainEnd hfree.isCluster
  refine hsound.chains.onChain_extend hh honChain hlast ((follow_eq_some hsmall).trans
    (congrArg some hp)) (follow_eq_none hg) (fun j hj b hb hne => ?_) hk
  refine hchanged.follow ?_
  rintro (rfl | rfl)
  · exact hne rfl
  · exact hsound.not_onChain_of_free hfree hj hb

theorem extend (hsound : FilesSound v heads dirs) (hh : h ∈ heads)
    (honChain : OnChain v.follow h p) (hlast : v.follow p = none) (hfree : v.IsFree g)
    (hchanged : Changed v v' {p, g} {g}) (hp : v'.link p = g)
    (hg : clusterChainEnd ≤ v'.link g)
    (hempty : h ∈ dirs → ∀ i < v.entryCount, ¬ (v'.direntAt (v.slotPlace g i)).Owns) :
    FilesSound v' heads dirs := by
  have hextend : ∀ {k c}, k ∈ heads →
      (OnChain v'.follow k c ↔ OnChain v.follow k c ∨ k = h ∧ c = g) := fun hk =>
    hsound.onChain_extend hh honChain hlast hfree hchanged hp hg hk
  have hsmall : v'.link p < clusterChainEnd := by
    rw [hp]
    exact hsound.toSynced.lt_clusterChainEnd hfree.isCluster
  have hchains : Chains v'.follow heads := by
    refine hsound.chains.extend hh honChain hlast
      (fun k hk => hsound.not_onChain_of_free hfree hk) ((follow_eq_some hsmall).trans
      (congrArg some hp)) (follow_eq_none hg) fun j hj b hb hne => ?_
    refine hchanged.follow ?_
    rintro (rfl | rfl)
    · exact hne rfl
    · exact hsound.not_onChain_of_free hfree hj hb
  have hreserved : ∀ c ∈ ({p, g} : Set Nat), v.IsCluster c := by
    rintro c (rfl | rfl)
    · exact hsound.clusters h hh c honChain
    · exact hfree.isCluster
  refine hsound.of_slots hchanged.synced hchanged.geometry.bpb hchains (fun k hk c hc => ?_)
    (hsound.reserved_keep hchanged hreserved) (fun _ hk => hk) fun a ha howns => ?_
  · rw [hchanged.geometry.isCluster]
    rcases (hextend hk).mp hc with hc | ⟨-, rfl⟩
    · exact hsound.clusters k hk c hc
    · exact hfree.isCluster
  · obtain ⟨c, i, ⟨d, hd, hc⟩, hi, rfl⟩ := ha
    rw [hchanged.geometry.slotPlace] at howns ⊢
    rw [hchanged.geometry.entryCount] at hi
    rcases (hextend (hsound.dirs_heads hd)).mp hc with hc | ⟨rfl, rfl⟩
    · have hdir : v.DirOn dirs c := ⟨d, hd, hc⟩
      refine ⟨⟨c, i, hdir, hi, rfl⟩, hchanged.direntAt hsound.toSynced
        (hsound.dirOn_isCluster hdir) ?_ hi⟩
      rintro rfl
      exact hsound.not_dirOn_of_free hfree hdir
    · exact absurd howns (hempty hd i hi)

theorem slot_other (hsound : FilesSound v heads dirs) (ha : v.IsSlot dirs a)
    (hwritten : SlotWritten v v' a) :
    (∀ b, v'.IsSlot dirs b ↔ v.IsSlot dirs b) ∧
      ∀ b, v.IsSlot dirs b → b ≠ a → v'.direntAt b = v.direntAt b := by
  refine ⟨fun b => isSlot_congr hwritten.geometry fun c => ?_, fun b hb hne => ?_⟩
  · rw [DirOn, DirOn, hwritten.follow]
  · obtain ⟨c, i, hc, hi, rfl⟩ := id hb
    have hbehind := (hsound.toLayout.cluster_sectors (hsound.dirOn_isCluster hc)).1
    have hseparate := hb.separate ha hne
    refine FatDirent.ofBuffer_congr fun j hj => hwritten.other _ ?_ (by omega)
    rw [slotPlace, clusterPlace]
    omega

/-- An entry is deleted, or becomes the one of a file whose chain no other entry has. -/
theorem setSlot (hsound : FilesSound v heads dirs) (ha : v.IsSlot dirs a)
    (hwritten : SlotWritten v v' a) (hsub : ¬ (v'.direntAt a).IsSub)
    (hfile : (v'.direntAt a).IsFile → (v'.direntAt a).firstCluster = 0 ∨
      ((v'.direntAt a).firstCluster ∈ heads ∧ (v'.direntAt a).firstCluster ∉ dirs ∧
        ∀ b, v.IsSlot dirs b → b ≠ a → (v.direntAt b).Owns →
          (v.direntAt b).firstCluster ≠ (v'.direntAt a).firstCluster)) :
    FilesSound v' heads dirs := by
  obtain ⟨hslot, hother⟩ := hsound.slot_other ha hwritten
  constructor
  · exact hwritten.synced
  · exact hwritten.follow ▸ hsound.chains
  · intro k hk c honChain
    rw [hwritten.follow] at honChain
    exact hwritten.geometry.isCluster.mpr (hsound.clusters k hk c honChain)
  · rw [ReservedEnds, hwritten.link, hwritten.geometry.fat_length]
    exact hsound.reserved
  · exact hsound.dirs_heads
  · exact hwritten.geometry.bpb ▸ hsound.root
  · intro b hb hbsub
    rw [hslot] at hb
    by_cases hba : b = a
    · exact absurd (hba ▸ hbsub) hsub
    · rw [hother b hb hba] at hbsub ⊢
      exact hsound.sub b hb hbsub
  · intro b hb hbfile
    rw [hslot] at hb
    by_cases hba : b = a
    · subst hba
      exact (hfile hbfile).imp_right fun h => ⟨h.1, h.2.1⟩
    · rw [hother b hb hba] at hbfile ⊢
      exact hsound.file b hb hbfile
  · -- of two entries at most one is the new one
    have hnew : ∀ b, v.IsSlot dirs b → b ≠ a → (v.direntAt b).Owns → (v'.direntAt a).Owns →
        (v'.direntAt a).firstCluster ≠ 0 →
          (v.direntAt b).firstCluster ≠ (v'.direntAt a).firstCluster := by
      intro b hb hne howns howns' hzero
      exact ((hfile (howns'.resolve_right hsub)).resolve_left hzero).2.2 b hb hne howns
    intro b b' hb hb' howns howns' hsame hne
    rw [hslot] at hb hb'
    by_cases hba : b = a <;> by_cases hba' : b' = a
    · exact hba.trans hba'.symm
    · subst hba
      rw [hother b' hb' hba'] at howns' hsame
      exact absurd hsame.symm (hnew b' hb' hba' howns' howns hne)
    · subst hba'
      rw [hother b hb hba] at howns hsame hne
      exact absurd hsame (hnew b hb hba howns howns' (hsame ▸ hne))
    · rw [hother b hb hba] at howns hsame hne
      rw [hother b' hb' hba'] at howns' hsame
      exact hsound.apart b b' hb hb' howns howns' hsame hne
  · intro b hb howns
    rw [hslot] at hb
    rw [hwritten.geometry.bpb]
    by_cases hba : b = a
    · subst hba
      rintro hroot
      rcases hfile (howns.resolve_right hsub) with hzero | ⟨-, hdir, -⟩
      · have hcluster := hsound.dirOn_isCluster ⟨_, hsound.root,
          hsound.chains.onChain_head (hsound.dirs_heads hsound.root)⟩
        rw [← hroot, hzero] at hcluster
        exact absurd hcluster.1 (by decide)
      · exact hdir (hroot ▸ hsound.root)
    · rw [hother b hb hba] at howns ⊢
      exact hsound.not_root b hb howns

end FilesSound

end FatData

end GlitchedOS
