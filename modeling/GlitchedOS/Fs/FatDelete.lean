/-
Deleting on a volume in use.  A call of `fat_delete` follows the chain of its entry and
releases each link on the way.  An empty file has no chain but the first cluster zero, so
the first such call releases the reserved entry of the table, and the next one follows it
for ever.
-/
import GlitchedOS.Lib.Run
import GlitchedOS.Fs.FatContents

namespace GlitchedOS

inductive VolumeCall
  | create (path : List Char)
  | write (handle : Nat) (bytes : List UInt8) (offset : Nat)
  | delete (path : List Char)

namespace FatData

def call (v : FatData) (env : FatEnv) : VolumeCall → Option (Int × FatData)
  | .create path => v.createFile env path
  | .write handle bytes offset => v.writeToFile env handle bytes offset
  | .delete path => v.delete env path

/-- The clusters of the directories that the root leads to. -/
inductive DirCluster (v : FatData) : Nat → Prop
  | root : DirCluster v v.bpb.rootCluster
  | next {c : Nat} (hc : DirCluster v c) (hlink : v.link c < clusterChainEnd) :
      DirCluster v (v.link c)
  | sub {c i : Nat} (hc : DirCluster v c) (hi : i < v.entryCount)
      (hsub : (v.direntAt (v.slotPlace c i)).IsSub) :
      DirCluster v (v.direntAt (v.slotPlace c i)).firstCluster

/-- A volume as it is meant to be: no cluster is larger than FAT allows, the reserved entry
of the table is not released, and each file and directory has a chain of its own. -/
structure WellFormed (v : FatData) : Prop where
  cluster : v.bytesPerCluster ≤ 2 ^ 16
  media : v.link 0 ≠ 0
  sound : ∃ heads dirs, FilesSound v heads dirs

/-- The handle is the one of a file, or of an entry that was deleted.  A file that has no
cluster yet gets one. -/
def WriteAllowed (v : FatData) (handle : Nat) : Prop :=
  ∃ c i, v.DirCluster c ∧ i < v.entryCount ∧ handle = v.slotHandle c i ∧
    ((v.direntAt (v.slotPlace c i)).firstByte = direntDeleted ∨
      (v.direntAt (v.slotPlace c i)).firstByte = direntEnd ∨
      (v.direntAt (v.slotPlace c i)).IsFile ∧
        ((v.direntAt (v.slotPlace c i)).firstClusterLow = 0 → v.computeFreeCluster.1 ≠ 0))

/-- The path fits into its buffer, and is not the one of the root. -/
def NamesEntry (v : FatData) (env : FatEnv) (path : List Char) : Prop :=
  ∃ npath, normalizeInto 512 path = some npath ∧
    ∀ fuel, v.getDirentRef fuel env.junk npath ≠ some (some v.rootRef)

/-- The path names no entry without a chain, or the reserved entry of the table still ends
one. -/
def EmptyAllowed (v : FatData) (env : FatEnv) (path : List Char) : Prop :=
  ∀ npath fuel ref, normalizeInto 512 path = some npath →
    v.getDirentRef fuel env.junk npath = some (some ref) → ref.dirent.firstCluster = 0 →
      clusterChainEnd ≤ v.link 0

/-- What a call has to meet.  Two clusters fit on the stack when an entry is added. -/
def Allowed (v : FatData) (env : FatEnv) : VolumeCall → Prop
  | .create _ => 2 * v.bytesPerCluster ≤ env.stack
  | .write handle _ _ => v.WriteAllowed handle
  | .delete path => v.NamesEntry env path ∧ (v.readOnly = true ∨ v.EmptyAllowed env path)

def FatStep (v : FatData) (action : FatEnv × VolumeCall) (v' : FatData) : Prop :=
  v.Allowed action.1 action.2 ∧ ∃ res, v.call action.1 action.2 = some (res, v')

variable {v v' : FatData} {env : FatEnv} {heads dirs : Set Nat} {path npath : List Char}
  {ref : DirentRef} {c fuel : Nat} {res : Int}

/-- The clusters that the root leads to are among those of the directories. -/
theorem FilesSound.dirOn_of_dirCluster (hsound : FilesSound v heads dirs)
    (hc : v.DirCluster c) : v.DirOn dirs c := by
  have hhead : ∀ d ∈ dirs, v.DirOn dirs d := fun d hd =>
    ⟨d, hd, hsound.chains.onChain_head (hsound.dirs_heads hd)⟩
  induction hc with
  | root => exact hhead _ hsound.root
  | next hc hlink ih => exact ih.step hlink
  | sub hc hi hsub ih => exact hhead _ (hsound.sub _ ⟨_, _, ih, hi, rfl⟩ hsub)

theorem delete_readOnly (hread : v.readOnly = true) : v.delete env path = some (eRofs, v) :=
  if_pos hread

theorem delete_missing (hread : ¬ v.readOnly = true) (hpath : normalizeInto 512 path = some npath)
    (hfound : v.getDirentRef env.fuel env.junk npath = some none) :
    v.delete env path = some (eNoent, v) := by
  rw [delete, if_neg hread, hpath, Option.bind_eq_bind, Option.bind_some, hfound]
  rfl

theorem delete_found (hread : ¬ v.readOnly = true) (hpath : normalizeInto 512 path = some npath)
    (hfound : v.getDirentRef env.fuel env.junk npath = some (some ref)) :
    v.delete env path = (runLoop (freeRound env) env.fuel
      (v.markDeleted env ref, ref.dirent.firstCluster)).bind fun v' => some (0, v') := by
  rw [delete, if_neg hread, hpath, Option.bind_eq_bind, Option.bind_some, hfound]
  rfl

theorem FilesSound.entry_of_found (hsound : FilesSound v heads dirs)
    (hroot : v.getDirentRef fuel env.junk npath ≠ some (some v.rootRef))
    (hfound : v.getDirentRef fuel env.junk npath = some (some ref)) :
    ∃ a, v.IsSlot dirs a ∧ v.RefersTo ref a ∧ ref.dirent.Owns := by
  refine (hsound.getDirentRef_named hfound).resolve_left ?_
  rintro rfl
  exact hroot hfound

/-- `fat_delete` leaves the other files sound. -/
theorem FilesSound.delete_keeps (hsound : FilesSound v heads dirs)
    (hnames : v.NamesEntry env path) (hempty : v.readOnly = true ∨ v.EmptyAllowed env path)
    (hcall : v.delete env path = some (res, v')) : ∃ heads dirs, FilesSound v' heads dirs := by
  by_cases hread : v.readOnly = true
  · rw [delete_readOnly hread] at hcall
    exact ⟨heads, dirs, (Prod.mk.inj (Option.some.inj hcall)).2 ▸ hsound⟩
  · obtain ⟨npath, hpath, hroot⟩ := hnames
    have hallowed := hempty.resolve_left hread
    cases hfound : v.getDirentRef env.fuel env.junk npath with
    | none =>
        rw [delete, if_neg hread, hpath, Option.bind_eq_bind, Option.bind_some, hfound] at hcall
        cases hcall
    | some found =>
        cases found with
        | none =>
            rw [delete_missing hread hpath hfound] at hcall
            exact ⟨heads, dirs, (Prod.mk.inj (Option.some.inj hcall)).2 ▸ hsound⟩
        | some ref =>
            obtain ⟨a, ha, hrefers, howns⟩ := hsound.entry_of_found (hroot _) hfound
            obtain ⟨clusters, hclusters⟩ := hsound.fileClusters ha (hrefers.dirent ▸ howns)
            rw [← hrefers.dirent] at hclusters
            obtain ⟨w, hrun, -, hsound'⟩ := hsound.release ha hrefers howns
              (hallowed npath _ ref hpath hfound) hclusters env
            rw [delete_found hread hpath hfound] at hcall
            obtain ⟨w', hloop, hcall⟩ := Option.bind_eq_some_iff.mp hcall
            obtain ⟨-, rfl⟩ := Prod.mk.inj (Option.some.inj hcall)
            have hsame := Loop.Ends.unique ⟨_, hrun _ (Nat.le_refl _)⟩ ⟨_, hloop⟩
            exact hsame ▸ hsound'

/-- A step keeps the files sound. -/
theorem FatStep.sound {action : FatEnv × VolumeCall} (hstep : FatStep v action v')
    (hsound : ∃ heads dirs, FilesSound v heads dirs) :
    ∃ heads dirs, FilesSound v' heads dirs := by
  obtain ⟨env, request⟩ := action
  obtain ⟨hallowed, res, hcall⟩ := hstep
  obtain ⟨heads, dirs, hsound⟩ := hsound
  cases request with
  | create path => exact ⟨heads, dirs, hsound.createFile hcall⟩
  | write handle bytes offset =>
      obtain ⟨c, i, hc, hi, rfl, hready⟩ := hallowed
      obtain ⟨heads', hsound'⟩ := hsound.writeToFile (hsound.dirOn_of_dirCluster hc) hi hready hcall
      exact ⟨heads', dirs, hsound'⟩
  | delete path => exact hsound.delete_keeps hallowed.1 hallowed.2 hcall

end FatData

open FatData

/-- A volume of four clusters of one sector.  Its root directory is cluster 2, with two empty
files and a file of 514 bytes in the clusters 3 and 4. -/
def threeFilesVolume : FatData where
  backing :=
    { byte := fun i =>
        if 512 ≤ i ∧ i < 532 then
          (bytes32 0x0FFFFFF8 ++ bytes32 0x0FFFFFFF ++ bytes32 0x0FFFFFFF ++ bytes32 4 ++
            bytes32 0x0FFFFFFF).getD (i - 512) 0
        else if i = 1024 then 0x41
        else if i = 1056 then 0x42
        else if i = 1088 then 0x43
        else if 1025 ≤ i ∧ i < 1035 ∨ 1057 ≤ i ∧ i < 1067 ∨ 1089 ≤ i ∧ i < 1099 then 0x20
        else if i = 1114 then 3
        else if i = 1116 ∨ i = 1117 then 2
        else if 2047 ≤ i ∧ i < 2050 then ([7, 8, 9] : List UInt8).getD (i - 2047) 0
        else 0
      sectors := 6 }
  bpb :=
    { bytesPerSector := 512, sectorsPerCluster := 1, reservedSectors := 1, numFats := 1,
      totalSectors16 := 6, fatSize16 := 1, totalSectors32 := 0, fatSize32 := 0,
      rootCluster := 2, fsInfo := 0 }
  fat := [0x0FFFFFF8, 0x0FFFFFFF, 0x0FFFFFFF, 4, 0x0FFFFFFF] ++ List.replicate 123 0
  readOnly := false
  fatSize := 1
  lastFree := 2

/-- A file at a place of the root directory. -/
def fileRef (offset : Nat) (first : Char) (cluster size : Nat) : DirentRef where
  dirent :=
    { name := first :: List.replicate 10 ' ', attributes := 0, reserved := 0,
      creationTimeTenth := 0, creationTime := 0, creationDate := 0, lastAccessDate := 0,
      firstClusterHigh := 0, lastModificationTime := 0, lastModificationDate := 0,
      firstClusterLow := cluster, fileSize := size }
  cluster := cluster
  sector := 2
  offset := offset

theorem threeFilesVolume_sectors :
    (∀ c < 6, threeFilesVolume.link c = threeFilesVolume.entryOnDisk c % 2 ^ 28) ∧
      (∀ i < 16, ¬ (threeFilesVolume.direntAt (threeFilesVolume.slotPlace 2 i)).IsSub ∧
        ((threeFilesVolume.direntAt (threeFilesVolume.slotPlace 2 i)).firstCluster = 0 ∨
          i = 2 ∧
            (threeFilesVolume.direntAt (threeFilesVolume.slotPlace 2 i)).firstCluster = 3)) ∧
      (threeFilesVolume.direntAt (threeFilesVolume.slotPlace 2 2)).IsFile ∧
      (threeFilesVolume.direntAt (threeFilesVolume.slotPlace 2 2)).firstCluster = 3 ∧
      (threeFilesVolume.direntAt (threeFilesVolume.slotPlace 2 2)).fileSize = 514 := by
  decide

theorem threeFilesVolume_synced : threeFilesVolume.Synced where
  bytesPerSector := rfl
  sectorsPerCluster := Nat.one_pos
  fat_length := by
    change (_ ++ List.replicate 123 (0 : UInt32)).length = 1 * 512 / 4
    rw [List.length_append, List.length_replicate]
    rfl
  numFats := Nat.one_pos
  table := by decide
  numbers := by decide
  device := by decide
  sectors := by decide
  sync c hc := threeFilesVolume_sectors.1 c hc.2

theorem threeFilesVolume_root : Chain threeFilesVolume.follow (some 2) [2] :=
  ⟨rfl, follow_eq_none (by decide)⟩

theorem threeFilesVolume_file : Chain threeFilesVolume.follow (some 3) [3, 4] :=
  ⟨rfl, follow_eq_some (show threeFilesVolume.link 3 < clusterChainEnd by decide),
    follow_eq_none (show clusterChainEnd ≤ threeFilesVolume.link 4 by decide)⟩

theorem threeFilesVolume_wellFormed : threeFilesVolume.WellFormed := by
  have hroot : ∀ c, OnChain threeFilesVolume.follow 2 c → c = 2 := fun c honChain =>
    List.mem_singleton.mp (threeFilesVolume_root.onChain_iff.mp honChain)
  have hfile : ∀ c, OnChain threeFilesVolume.follow 3 c → c = 3 ∨ c = 4 := fun c honChain => by
    simpa using threeFilesVolume_file.onChain_iff.mp honChain
  have hslot : ∀ a, threeFilesVolume.IsSlot {2} a → ¬ (threeFilesVolume.direntAt a).IsSub ∧
      ((threeFilesVolume.direntAt a).firstCluster = 0 ∨
        a = threeFilesVolume.slotPlace 2 2 ∧ (threeFilesVolume.direntAt a).firstCluster = 3) := by
    rintro a ⟨c, i, ⟨d, rfl, honChain⟩, hi, rfl⟩
    obtain rfl := hroot c honChain
    obtain ⟨hsub, hfirst⟩ := threeFilesVolume_sectors.2.1 i hi
    exact ⟨hsub, hfirst.imp_right fun ⟨hplace, hthree⟩ => ⟨by rw [hplace], hthree⟩⟩
  refine ⟨by decide, by decide, {2, 3}, {2}, threeFilesVolume_synced, ⟨?_, ?_⟩, ?_,
    .inr (.inl (by decide)), Set.singleton_subset_iff.mpr (.inl rfl), rfl, ?_, ?_, ?_, ?_⟩
  · rintro h (rfl | rfl)
    · exact ⟨[2], threeFilesVolume_root⟩
    · exact ⟨[3, 4], threeFilesVolume_file⟩
  · rintro h (rfl | rfl) k (rfl | rfl) a ha ha'
    · rfl
    · rcases hfile a ha' with rfl | rfl <;> exact absurd (hroot _ ha) (by decide)
    · rcases hfile a ha with rfl | rfl <;> exact absurd (hroot _ ha') (by decide)
    · rfl
  · rintro h (rfl | rfl) c honChain
    · rw [hroot c honChain]
      decide
    · rcases hfile c honChain with rfl | rfl <;> decide
  · exact fun a ha hsub => absurd hsub (hslot a ha).1
  · intro a ha _
    rcases (hslot a ha).2 with hzero | ⟨-, hfirst⟩
    · exact .inl hzero
    · rw [hfirst]
      exact .inr ⟨.inr rfl, by decide⟩
  · intro a a' ha ha' _ _ hsame hne
    exact ((hslot a ha).2.resolve_left hne).1.trans
      ((hslot a' ha').2.resolve_left (hsame ▸ hne)).1.symm
  · intro a ha _ hroot
    rcases (hslot a ha).2 with hzero | ⟨-, hfirst⟩
    · exact absurd (hzero.symm.trans hroot) (by decide)
    · exact absurd (hfirst.symm.trans hroot) (by decide)

end GlitchedOS
