/-
Creating files and directories.  An entry that cannot be added leaves the volume alone:
a new cluster of a directory is empty, so nothing fails behind its allocation.  The
cluster of a new directory is taken before its entry is added, and stays taken.
-/
import GlitchedOS.Fs.FatVolume

namespace GlitchedOS

inductive FatCreate
  | file
  | directory
deriving DecidableEq

namespace FatData

/-- `fat_create_file` or `fat_create_directory` -/
def create (v : FatData) (env : FatEnv) (path : List Char) :
    FatCreate → Option (Int × FatData)
  | .file => v.createFile env path
  | .directory => v.createDirectory env path

/-- The path names an entry. -/
def Exists (v : FatData) (env : FatEnv) (path : List Char) : Prop :=
  ∃ npath handle, normalizeInto 512 path = some npath ∧
    v.lookupPath env.fuel env.junk npath = some (.ok handle)

/-- The same clusters are free, and each directory has the same entries and each cluster
the same content. -/
structure SameState (v v' : FatData) : Prop where
  free : ∀ cluster, v'.IsFree cluster ↔ v.IsFree cluster
  listing : ∀ fuel entry junk handle index,
    v'.readdir fuel entry junk handle index = v.readdir fuel entry junk handle index
  entry : ∀ fuel junk path, v'.getDirentRef fuel junk path = v.getDirentRef fuel junk path
  content : ∀ cluster junk, v'.readCluster cluster junk = v.readCluster cluster junk

/-- One round of the loop of `fat_add_dirent`. -/
inductive AddRound (env : FatEnv) (dirent : FatDirent) (v : FatData) (cluster : Nat) :
    (FatData × Nat) ⊕ (Int × FatData) → Prop
  | slot (offset : Nat)
      (hslot : v.freeOffset (v.readCluster cluster (env.junk cluster)) 0 = some offset) :
      AddRound env dirent v cluster (.inr (0, v.writeSectors (v.getFirstClusterSector cluster)
        (Buffer.copy (v.readCluster cluster (env.junk cluster)) offset dirent.toBytes)
        v.bpb.sectorsPerCluster))
  | next (next : Nat)
      (hfull : v.freeOffset (v.readCluster cluster (env.junk cluster)) 0 = none)
      (hnext : v.nextCluster cluster = some next) (hlink : next < clusterChainEnd) :
      AddRound env dirent v cluster (.inl (v, next))
  | noSpace (next : Nat)
      (hfull : v.freeOffset (v.readCluster cluster (env.junk cluster)) 0 = none)
      (hnext : v.nextCluster cluster = some next) (hlast : clusterChainEnd ≤ next)
      (hfree : v.computeFreeCluster.1 = 0) :
      AddRound env dirent v cluster (.inr (eNospc, v))
  | grow (next : Nat) (linked ended : FatData)
      (hfull : v.freeOffset (v.readCluster cluster (env.junk cluster)) 0 = none)
      (hnext : v.nextCluster cluster = some next) (hlast : clusterChainEnd ≤ next)
      (hfree : v.computeFreeCluster.1 ≠ 0)
      (hlinked : v.computeFreeCluster.2.writeFat env cluster
        (v.computeFreeCluster.1 % 2 ^ 28) = some linked)
      (hended : linked.writeFat env v.computeFreeCluster.1 clusterChainEnd = some ended) :
      AddRound env dirent v cluster
        (.inl (ended.clearCluster v.computeFreeCluster.1, v.computeFreeCluster.1))

variable {v v' : FatData} {env : FatEnv} {dirent : FatDirent} {cluster offset fuel : Nat}
  {buffer : Buffer} {path : List Char} {res : Int}

theorem addRound_of_eq {out : (FatData × Nat) ⊕ (Int × FatData)}
    (h : addDirentRound env dirent (v, cluster) = some out) :
    AddRound env dirent v cluster out := by
  rw [addDirentRound] at h
  dsimp only at h
  split at h
  next offset hslot =>
    obtain rfl := Option.some.inj h
    exact .slot offset hslot
  next hfull =>
    obtain ⟨next, hnext, h⟩ := Option.bind_eq_some_iff.mp h
    split at h
    next hlink =>
      obtain rfl := Option.some.inj h
      exact .next next hfull hnext hlink
    next hlast =>
      split at h
      next hfree =>
        obtain rfl := Option.some.inj h
        rw [computeFreeCluster_of_zero hfree]
        exact .noSpace next hfull hnext (Nat.le_of_not_lt hlast) hfree
      next hfree =>
        obtain ⟨linked, hlinked, h⟩ := Option.bind_eq_some_iff.mp h
        obtain ⟨ended, hended, h⟩ := Option.bind_eq_some_iff.mp h
        obtain rfl := Option.some.inj (Option.ite_none_left_eq_some.mp h).2
        exact .grow next linked ended hfull hnext (Nat.le_of_not_lt hlast) hfree hlinked hended

theorem computeFreeCluster_geometry (v : FatData) :
    SameGeometry v v.computeFreeCluster.2 := by
  rw [computeFreeCluster_snd]
  exact setLastFree_geometry v _

theorem AddRound.geometry {out : (FatData × Nat) ⊕ (Int × FatData)}
    (h : AddRound env dirent v cluster out) :
    SameGeometry v (out.elim (fun s => s.1) fun r => r.2) := by
  cases h with
  | slot offset hslot => exact writeSectors_geometry ..
  | next next hfull hnext hlink => exact .refl v
  | noSpace next hfull hnext hlast hfree => exact .refl v
  | grow next linked ended hfull hnext hlast hfree hlinked hended =>
      exact (((computeFreeCluster_geometry v).trans (writeFat_geometry hlinked)).trans
        (writeFat_geometry hended)).trans (clearCluster_geometry ..)

/-- The loop changes no more than the contents of a volume. -/
theorem addDirent_loop_geometry
    (h : runLoop (addDirentRound env dirent) fuel (v, cluster) = some (res, v')) :
    SameGeometry v v' := by
  induction fuel generalizing v cluster with
  | zero => cases h
  | succ fuel ih =>
      rw [runLoop] at h
      cases hround : addDirentRound env dirent (v, cluster) with
      | none => rw [hround] at h; cases h
      | some out =>
          have hgeo := (addRound_of_eq hround).geometry
          rw [hround] at h
          cases out with
          | inl s => exact hgeo.trans (ih h)
          | inr r =>
              obtain rfl := Option.some.inj h
              exact hgeo

theorem firstByte_ofBuffer (buffer : Buffer) (start : Nat) :
    (FatDirent.ofBuffer buffer start).firstByte = Char.ofUInt8 (buffer start) := rfl

theorem freeOffset_of_end (hsize : 0 < v.bytesPerCluster) (hzero : buffer 0 = 0) :
    v.freeOffset buffer 0 = some 0 := by
  have hend : (FatDirent.ofBuffer buffer 0).firstByte = direntEnd := by
    rw [firstByte_ofBuffer, hzero]
    rfl
  rw [freeOffset, if_pos hsize]
  exact if_pos (.inl hend)

theorem Layout.bytesPerCluster_eq_sectors (hv : v.Layout) :
    v.bytesPerCluster = 512 * v.bpb.sectorsPerCluster := by
  rw [bytesPerCluster, hv.bytesPerSector, Nat.mul_comm]

theorem Layout.bytesPerCluster_pos (hv : v.Layout) : 0 < v.bytesPerCluster := by
  have hpos := hv.sectorsPerCluster
  rw [hv.bytesPerCluster_eq_sectors]
  omega

theorem Layout.freeOffset_cleared (hv : v.Layout) (h : v.IsCluster cluster) (junk : Buffer) :
    (v.clearCluster cluster).freeOffset ((v.clearCluster cluster).readCluster cluster junk) 0 =
      some 0 := by
  have hpos := hv.sectorsPerCluster
  refine freeOffset_of_end ?_ (hv.writeCluster_read h _ junk (by omega))
  rw [(clearCluster_geometry v cluster).bytesPerCluster]
  exact hv.bytesPerCluster_pos

theorem Layout.addDirentRound_cleared (hv : v.Layout) (h : v.IsCluster cluster) (env : FatEnv)
    (dirent : FatDirent) :
    addDirentRound env dirent (v.clearCluster cluster, cluster) =
      some (.inr (0, (v.clearCluster cluster).writeSectors
        ((v.clearCluster cluster).getFirstClusterSector cluster)
        (Buffer.copy ((v.clearCluster cluster).readCluster cluster (env.junk cluster)) 0
          dirent.toBytes)
        v.bpb.sectorsPerCluster)) := by
  rw [addDirentRound]
  dsimp only
  rw [hv.freeOffset_cleared h]
  rfl

theorem IsFree.isCluster (h : v.IsFree cluster) : v.IsCluster cluster := ⟨h.1, h.2.1⟩

theorem Layout.addDirent_loop_fails (hv : v.Layout)
    (h : runLoop (addDirentRound env dirent) fuel (v, cluster) = some (res, v'))
    (hres : res < 0) : v' = v ∧ res = eNospc := by
  induction fuel generalizing cluster with
  | zero => cases h
  | succ fuel ih =>
      rw [runLoop] at h
      cases hround : addDirentRound env dirent (v, cluster) with
      | none => rw [hround] at h; cases h
      | some out =>
          rw [hround] at h
          cases addRound_of_eq hround with
          | slot offset hslot =>
              obtain ⟨rfl, -⟩ := Prod.mk.inj (Option.some.inj h)
              exact absurd hres (Int.lt_irrefl 0)
          | next next hfull hnext hlink => exact ih h
          | noSpace next hfull hnext hlast hfree =>
              obtain ⟨rfl, rfl⟩ := Prod.mk.inj (Option.some.inj h)
              exact ⟨rfl, rfl⟩
          | grow next linked ended hfull hnext hlast hfree hlinked hended =>
              -- the new cluster is empty, so the next round ends the loop
              have hgeo := ((computeFreeCluster_geometry v).trans
                (writeFat_geometry hlinked)).trans (writeFat_geometry hended)
              have hcluster : ended.IsCluster v.computeFreeCluster.1 :=
                hgeo.isCluster.mpr (hv.computeFreeCluster_isFree hfree).isCluster
              have hround' := (hgeo.layout hv).addDirentRound_cleared hcluster env dirent
              cases fuel with
              | zero => cases h
              | succ fuel =>
                  have hdone := (Loop.run_done hround').symm.trans h
                  obtain ⟨rfl, -⟩ := Prod.mk.inj (Option.some.inj hdone)
                  exact absurd hres (Int.lt_irrefl 0)

theorem Layout.addDirent_fails (hv : v.Layout)
    (h : v.addDirent env path dirent = some (res, v')) (hres : res < 0) : v' = v := by
  rw [addDirent] at h
  split at h
  · exact (Prod.mk.inj (Option.some.inj h)).2.symm
  · obtain ⟨npath, -, h⟩ := Option.bind_eq_some_iff.mp h
    obtain ⟨found, -, h⟩ := Option.bind_eq_some_iff.mp h
    cases found with
    | none => exact (Prod.mk.inj (Option.some.inj h)).2.symm
    | some parent =>
        dsimp only at h
        split at h
        · exact (Prod.mk.inj (Option.some.inj h)).2.symm
        · exact (hv.addDirent_loop_fails h hres).1

theorem addDirent_geometry (h : v.addDirent env path dirent = some (res, v')) :
    SameGeometry v v' := by
  rw [addDirent] at h
  split at h
  · exact (Prod.mk.inj (Option.some.inj h)).2 ▸ .refl v
  · obtain ⟨npath, -, h⟩ := Option.bind_eq_some_iff.mp h
    obtain ⟨found, -, h⟩ := Option.bind_eq_some_iff.mp h
    cases found with
    | none => exact (Prod.mk.inj (Option.some.inj h)).2 ▸ .refl v
    | some parent =>
        dsimp only at h
        split at h
        · exact (Prod.mk.inj (Option.some.inj h)).2 ▸ .refl v
        · exact addDirent_loop_geometry h

theorem SameState.refl (v : FatData) : SameState v v :=
  ⟨fun _ => .rfl, fun _ _ _ _ _ => rfl, fun _ _ _ => rfl, fun _ _ => rfl⟩

theorem Layout.createFile_fails (hv : v.Layout)
    (h : v.createFile env path = some (res, v')) (hres : res < 0) : v' = v := by
  obtain ⟨npath, -, h⟩ := Option.bind_eq_some_iff.mp h
  split at h
  · exact (Prod.mk.inj (Option.some.inj h)).2.symm
  · obtain ⟨found, -, h⟩ := Option.bind_eq_some_iff.mp h
    cases found with
    | ok handle => exact (Prod.mk.inj (Option.some.inj h)).2.symm
    | error err =>
        obtain ⟨names, -, h⟩ := Option.bind_eq_some_iff.mp h
        exact hv.addDirent_fails h hres

theorem Layout.not_isFree_taken (hv : v.Layout) (h : v.IsCluster cluster)
    (hended : v.writeFat env cluster clusterChainEnd = some v') :
    ¬ (v'.clearCluster cluster).IsFree cluster := by
  have hwritten := hv.writeFat_written (Nat.lt_of_lt_of_le h.2 hv.table)
    (Nat.lt_trans h.2 hv.numbers) hended
  have hv' := hwritten.geometry.layout hv
  have hcluster := hwritten.geometry.isCluster.mpr h
  rintro ⟨-, -, hfree⟩
  have hentry := hwritten.entry
  rw [clearCluster, hv'.writeCluster_entryOnDisk hcluster _
    (Nat.lt_of_lt_of_le hcluster.2 hv'.table), hentry] at hfree
  revert hfree
  decide

/-- A directory fails to be created before a cluster is taken, or keeps it. -/
theorem Layout.createDirectory_fails (hv : v.Layout)
    (h : v.createDirectory env path = some (res, v')) (hres : res < 0) :
    (v' = v ∧ (v.readOnly = true ∨ v.Exists env path ∨ v.computeFreeCluster.1 = 0)) ∨
      (v.readOnly ≠ true ∧ ¬ v.Exists env path ∧ v.computeFreeCluster.1 ≠ 0 ∧
        ¬ v'.IsFree v.computeFreeCluster.1) := by
  obtain ⟨npath, hnpath, h⟩ := Option.bind_eq_some_iff.mp h
  split at h
  next hread => exact .inl ⟨(Prod.mk.inj (Option.some.inj h)).2.symm, .inl hread⟩
  next hread =>
    obtain ⟨found, hfound, h⟩ := Option.bind_eq_some_iff.mp h
    cases found with
    | ok handle =>
        exact .inl ⟨(Prod.mk.inj (Option.some.inj h)).2.symm,
          .inr (.inl ⟨npath, handle, hnpath, hfound⟩)⟩
    | error err =>
        have hmissing : ¬ v.Exists env path := by
          rintro ⟨npath', handle, hnpath', hfound'⟩
          obtain rfl := Option.some.inj (hnpath.symm.trans hnpath')
          cases hfound.symm.trans hfound'
        dsimp only at h
        split at h
        next hfree =>
          rw [computeFreeCluster_of_zero hfree] at h
          exact .inl ⟨(Prod.mk.inj (Option.some.inj h)).2.symm, .inr (.inr hfree)⟩
        next hfree =>
          refine .inr ⟨hread, hmissing, hfree, ?_⟩
          obtain ⟨ended, hended, h⟩ := Option.bind_eq_some_iff.mp h
          obtain ⟨names, -, h⟩ := Option.bind_eq_some_iff.mp h
          obtain ⟨⟨added, w⟩, hadd, h⟩ := Option.bind_eq_some_iff.mp h
          have hgeo := computeFreeCluster_geometry v
          have hcluster := hgeo.isCluster.mpr (hv.computeFreeCluster_isFree hfree).isCluster
          have hended' := writeFat_geometry hended
          have hcleared := hended'.trans
            (clearCluster_geometry ended v.computeFreeCluster.1)
          have hv' := hcleared.layout (hgeo.layout hv)
          dsimp only at h
          split at h
          next hfails =>
            obtain ⟨-, rfl⟩ := Prod.mk.inj (Option.some.inj h)
            rw [hv'.addDirent_fails hadd hfails]
            exact (hgeo.layout hv).not_isFree_taken hcluster hended
          next =>
            -- the entry was added, and the cluster is on the device
            obtain ⟨parent, -, h⟩ := Option.bind_eq_some_iff.mp h
            obtain ⟨rfl, -⟩ := Prod.mk.inj (Option.some.inj h)
            have hgeo' := hcleared.trans (addDirent_geometry hadd)
            have hw := hgeo'.layout (hgeo.layout hv)
            have hfits : w.getFirstClusterSector v.computeFreeCluster.1 + 1 ≤
                w.backing.sectors :=
              Nat.le_trans (Nat.add_le_add_left hw.sectorsPerCluster _)
                (hw.cluster_sectors (hgeo'.isCluster.mpr hcluster)).2
            rw [Disk.writeSectors, if_pos hfits] at hres
            exact absurd hres (Int.lt_irrefl 0)

end FatData

open FatData

/-- A call that fails to create an entry leaves the volume as it was exactly when it is
for a file, or fails before a cluster is taken: the volume is read-only, the entry
exists, or the search finds no cluster. -/
theorem create_fails_unchanged_iff (v : FatData) (hv : v.Layout) (env : FatEnv)
    (path : List Char) (call : FatCreate) (res : Int) (v' : FatData)
    (h : v.create env path call = some (res, v')) (hres : res < 0) :
    SameState v v' ↔
      call = .file ∨ v.readOnly = true ∨ v.Exists env path ∨
        ¬ ∃ cluster, v.IsFree cluster ∧ v.Searched cluster := by
  rw [← hv.computeFreeCluster_eq_zero_iff]
  cases call with
  | file =>
      have hsame := hv.createFile_fails h hres
      subst hsame
      exact iff_of_true (.refl v') (.inl rfl)
  | directory =>
      rw [or_iff_right (by decide)]
      rcases hv.createDirectory_fails h hres with ⟨rfl, hearly⟩ | ⟨hread, hmissing, hfree, hused⟩
      · exact iff_of_true (.refl v') hearly
      · refine iff_of_false (fun hsame => hused ?_) ?_
        · exact (hsame.free _).mpr (hv.computeFreeCluster_isFree hfree)
        · rintro (hread' | hexists | hzero)
          · exact hread hread'
          · exact hmissing hexists
          · exact hfree hzero

/-- A volume of 100 clusters of one sector whose root directory is cluster 2, without
entries. -/
def emptyRootVolume : FatData where
  backing :=
    { byte := fun i => if 520 ≤ i ∧ i < 524 then (bytes32 0x0FFFFFFF).getD (i - 520) 0 else 0
      sectors := 102 }
  bpb :=
    { bytesPerSector := 512, sectorsPerCluster := 1, reservedSectors := 1, numFats := 1,
      totalSectors16 := 102, fatSize16 := 1, totalSectors32 := 0, fatSize32 := 0,
      rootCluster := 2, fsInfo := 0 }
  fat := (List.replicate 128 0).set 2 0x0FFFFFFF
  readOnly := false
  fatSize := 1
  lastFree := 2

def zeroEnv (fuel : Nat) : FatEnv where
  fuel := fuel
  junk := fun _ _ => 0
  sector := fun _ => 0
  name := fun _ => 0
  fatDate := 0
  fatTime := 0
  stack := 2 ^ 16
  room := Nat.le_refl _

theorem emptyRootVolume_layout : emptyRootVolume.Layout where
  bytesPerSector := rfl
  sectorsPerCluster := Nat.one_pos
  fat_length := by
    change ((List.replicate 128 (0 : UInt32)).set 2 0x0FFFFFFF).length = 1 * 512 / 4
    rw [List.length_set, List.length_replicate]
  numFats := Nat.one_pos
  table := by decide
  numbers := by decide
  device := by decide
  sectors := by decide

theorem rootRef_isDirectory (v : FatData) : v.rootRef.dirent.isDirectory = true :=
  decide_eq_true (by decide : direntDirectory &&& direntDirectory ≠ 0)

theorem getDirentRef_of_empty {v : FatData} {c : Char} {chars path : List Char}
    {junk : Nat → Buffer} {fuel : Nat} (hsize : 0 < v.bytesPerCluster)
    (hroot : v.readCluster v.bpb.rootCluster (junk v.bpb.rootCluster) 0 = 0)
    (hpath : normalizeInto 512 path = some (c :: chars)) :
    v.getDirentRef (fuel + 1) junk path = some none := by
  have hround : v.searchRound (componentName (nextComponent (c :: chars)))
      (v.openCluster (junk v.bpb.rootCluster) v.bpb.rootCluster) = some (.inr none) := by
    have hrefill : v.refill (v.openCluster (junk v.bpb.rootCluster) v.bpb.rootCluster) =
        some (some (v.openCluster (junk v.bpb.rootCluster) v.bpb.rootCluster)) :=
      if_neg (Nat.not_le.mpr hsize)
    rw [searchRound, hrefill]
    have hend : (FatDirent.ofBuffer (v.readCluster v.bpb.rootCluster
        (junk v.bpb.rootCluster)) 0).firstByte = direntEnd := by
      rw [firstByte_ofBuffer, hroot]
      rfl
    exact if_pos hend
  have hsearch : v.search (fuel + 1) (componentName (nextComponent (c :: chars)))
      (v.openCluster (junk v.rootRef.cluster) v.rootRef.cluster) = some none :=
    Loop.run_done hround
  rw [getDirentRef, hpath, Option.bind_eq_bind, Option.bind_some,
    walkPath_cons (rootRef_isDirectory v), hsearch]

theorem addDirent_of_empty {v : FatData} {env : FatEnv} {dirent : FatDirent} {c : Char}
    {chars npath path : List Char} (hread : v.readOnly = false) (hsize : 0 < v.bytesPerCluster)
    (hroot : v.readCluster v.bpb.rootCluster (env.junk v.bpb.rootCluster) 0 = 0)
    (hfuel : env.fuel ≠ 0) (hpath : normalizeInto 512 path = some npath)
    (hnpath : normalizeInto 512 npath = some (c :: chars)) :
    v.addDirent env path dirent = some (eNoent, v) := by
  obtain ⟨fuel, hfuel⟩ := Nat.exists_eq_succ_of_ne_zero hfuel
  rw [addDirent, hread, if_neg Bool.false_ne_true, hpath, Option.bind_eq_bind, Option.bind_some,
    hfuel, getDirentRef_of_empty hsize hroot hnpath]
  rfl

theorem emptyRootVolume_size : 0 < emptyRootVolume.bytesPerCluster := by decide

theorem normalizeInto_nested : normalizeInto 512 ['A', '/', 'B'] = some ['A', '/', 'B'] := by
  decide

theorem separate_nested :
    separateDirnameFilename ['A', '/', 'B'] = some (['A', '/'], ['B']) := by
  decide

theorem emptyRootVolume_lookupPath :
    emptyRootVolume.lookupPath (zeroEnv 1).fuel (zeroEnv 1).junk ['A', '/', 'B'] =
      some (.error eNoent) := by
  have hnone : emptyRootVolume.getDirentRef (zeroEnv 1).fuel (zeroEnv 1).junk ['A', '/', 'B'] =
      some none :=
    getDirentRef_of_empty emptyRootVolume_size rfl normalizeInto_nested
  rw [lookupPath, hnone]
  rfl

/-- Neither is `A/B` created where `A` is not there. -/
theorem addDirent_nested {v : FatData} {env : FatEnv} (dirent : FatDirent)
    (hread : v.readOnly = false) (hsize : 0 < v.bytesPerCluster)
    (hroot : v.readCluster v.bpb.rootCluster (env.junk v.bpb.rootCluster) 0 = 0)
    (hfuel : env.fuel ≠ 0) : v.addDirent env ['A', '/'] dirent = some (eNoent, v) := by
  have hpath : normalizeInto 512 ['A', '/'] = some ['A'] := by decide
  have hnpath : normalizeInto 512 ['A'] = some ['A'] := by decide
  exact addDirent_of_empty hread hsize hroot hfuel hpath hnpath

/-- A file is not created without its directory, and nothing changes. -/
theorem emptyRootVolume_createFile :
    emptyRootVolume.createFile (zeroEnv 1) ['A', '/', 'B'] =
      some (eNoent, emptyRootVolume) := by
  rw [createFile, normalizeInto_nested, Option.bind_eq_bind, Option.bind_some,
    if_neg (by decide), emptyRootVolume_lookupPath, Option.bind_eq_bind, Option.bind_some,
    separate_nested]
  exact addDirent_nested _ rfl emptyRootVolume_size rfl Nat.one_ne_zero

theorem create_fails_unchanged_missing :
    SameState emptyRootVolume emptyRootVolume ↔
      FatCreate.file = .file ∨ emptyRootVolume.readOnly = true ∨
        emptyRootVolume.Exists (zeroEnv 1) ['A', '/', 'B'] ∨
          ¬ ∃ cluster, emptyRootVolume.IsFree cluster ∧ emptyRootVolume.Searched cluster :=
  create_fails_unchanged_iff emptyRootVolume emptyRootVolume_layout (zeroEnv 1)
    ['A', '/', 'B'] .file eNoent emptyRootVolume emptyRootVolume_createFile (by decide)

/-- A directory is not created without its parent, and its cluster is taken. -/
theorem create_fails_leaks :
    emptyRootVolume.Layout ∧ ∃ v',
      emptyRootVolume.create (zeroEnv 1) ['A', '/', 'B'] .directory = some (eNoent, v') ∧
        ¬ SameState emptyRootVolume v' := by
  let found := { emptyRootVolume with lastFree := 3 }
  have hfree : emptyRootVolume.computeFreeCluster = (3, found) := rfl
  have hisFree : emptyRootVolume.IsFree 3 := by decide
  have hgeo : SameGeometry emptyRootVolume found := setLastFree_geometry _ 3
  have hfound : found.Layout := hgeo.layout emptyRootVolume_layout
  have hcluster : found.IsCluster 3 := hgeo.isCluster.mpr hisFree.isCluster
  obtain ⟨ended, hended, hwritten⟩ := hfound.writeFat_eq (show 3 < found.fatSize * 128 by decide)
    (by decide) (zeroEnv 1) clusterChainEnd
  have hendedCluster := hwritten.geometry.isCluster.mpr hcluster
  have hgeo' := hwritten.geometry.trans (clearCluster_geometry ended 3)
  have hv' := hgeo'.layout hfound
  have hroot : (ended.clearCluster 3).readCluster 2 (fun _ => 0) 0 = 0 := by
    have hfirst : found.IsCluster 2 := by decide
    rw [clearCluster, (hwritten.geometry.layout hfound).writeCluster_other hendedCluster
      (hwritten.geometry.isCluster.mpr hfirst) (by decide), hwritten.readCluster hfound hfirst]
    exact (by decide : emptyRootVolume.readCluster 2 (fun _ => 0) 0 = 0)
  have hbpb : (ended.clearCluster 3).bpb.rootCluster = 2 := congrArg Bpb.rootCluster hgeo'.bpb
  refine ⟨emptyRootVolume_layout, ended.clearCluster 3, ?_, fun hsame => ?_⟩
  · rw [create, createDirectory, normalizeInto_nested, Option.bind_eq_bind, Option.bind_some,
      if_neg (by decide), emptyRootVolume_lookupPath, Option.bind_eq_bind, Option.bind_some, hfree]
    dsimp only
    rw [if_neg (by decide), hended, Option.bind_eq_bind, Option.bind_some, separate_nested,
      Option.bind_eq_bind, Option.bind_some]
    dsimp only
    rw [addDirent_nested _ hgeo'.readOnly hv'.bytesPerCluster_pos (by rw [hbpb]; exact hroot)
      Nat.one_ne_zero]
    rfl
  · exact hfound.not_isFree_taken hcluster hended ((hsame.free 3).mpr hisFree)

end GlitchedOS
