/-
Writes to a file.  The loops of `fat_write_to_file` are on the chain of the file, or
behind its last cluster, and link free clusters to it; so the other files and the
directories stay as they are.
-/
import GlitchedOS.Fs.FatSteps

namespace GlitchedOS

namespace FatData

/-- A file that is written, with the place of its entry and its first cluster, which may
not be in the entry yet. -/
structure Writes (v : FatData) (heads dirs : Set Nat) (a h : Nat) : Prop where
  sound : FilesSound v heads dirs
  head : h ∈ heads
  file : h ∉ dirs
  slot : v.IsSlot dirs a
  others : ∀ b, v.IsSlot dirs b → b ≠ a → (v.direntAt b).Owns →
    (v.direntAt b).firstCluster ≠ h

/-- A loop over the chain of a file is at one of its clusters, or behind the last one. -/
def Tail.Follows (tail : Tail) (h : Nat) : Prop :=
  OnChain tail.fs.follow h tail.currentCluster ∨
    clusterChainEnd ≤ tail.currentCluster ∧ OnChain tail.fs.follow h tail.previousCluster ∧
      tail.fs.follow tail.previousCluster = none

/-- What holds in the loops of `fat_write_to_file`. -/
def Tail.Writes (tail : Tail) (heads dirs : Set Nat) (a h : Nat) : Prop :=
  tail.fs.Writes heads dirs a h ∧ tail.Follows h

variable {v v' : FatData} {env : FatEnv} {heads dirs relinked filled : Set Nat}
  {tail tail' : Tail} {buffer : Buffer} {dirent : FatDirent} {a c g h i p : Nat}

theorem Writes.isCluster (hw : v.Writes heads dirs a h) (honChain : OnChain v.follow h c) :
    v.IsCluster c :=
  hw.sound.clusters h hw.head c honChain

theorem Writes.of_changed (hw : v.Writes heads dirs a h) (hsound : FilesSound v' heads dirs)
    (hchanged : Changed v v' relinked filled) (hdir : ∀ c, v'.DirOn dirs c ↔ v.DirOn dirs c)
    (hfilled : ∀ c, v.DirOn dirs c → c ∉ filled) : v'.Writes heads dirs a h where
  sound := hsound
  head := hw.head
  file := hw.file
  slot := (isSlot_congr hchanged.geometry hdir).mpr hw.slot
  others b hb hne howns := by
    rw [isSlot_congr hchanged.geometry hdir] at hb
    obtain ⟨c, i, hc, hi, rfl⟩ := id hb
    rw [hchanged.direntAt hw.sound.toSynced (hw.sound.dirOn_isCluster hc) (hfilled c hc) hi]
      at howns ⊢
    exact hw.others _ hb hne howns

theorem Writes.fill (hw : v.Writes heads dirs a h) (honChain : OnChain v.follow h c)
    (buffer : Buffer) :
    (v.writeSectors (v.getFirstClusterSector c) buffer v.bpb.sectorsPerCluster).Writes
      heads dirs a h := by
  have hchanged := hw.sound.toSynced.writeCluster (hw.isCluster honChain) buffer
  have hfilled : ∀ d, v.DirOn dirs d → d ∉ ({c} : Set Nat) := by
    rintro d hd rfl
    exact hw.sound.not_dirOn_of_file hw.head hw.file honChain hd
  exact hw.of_changed (hw.sound.keep hchanged (fun _ _ d _ => Set.notMem_empty d) hfilled
    hw.sound.reserved) hchanged (fun _ => .rfl) hfilled

theorem Writes.grow (hw : v.Writes heads dirs a h) (honChain : OnChain v.follow h p)
    (hlast : v.follow p = none) (hfree : v.IsFree g) (hchanged : Changed v v' {p, g} {g})
    (hp : v'.link p = g) (hg : clusterChainEnd ≤ v'.link g) :
    v'.Writes heads dirs a h ∧ OnChain v'.follow h g := by
  have hextend : ∀ {k c}, k ∈ heads →
      (OnChain v'.follow k c ↔ OnChain v.follow k c ∨ k = h ∧ c = g) := fun hk =>
    hw.sound.onChain_extend hw.head honChain hlast hfree hchanged hp hg hk
  refine ⟨hw.of_changed (hw.sound.extend hw.head honChain hlast hfree hchanged hp hg
    fun hd => absurd hd hw.file) hchanged (fun c => ?_) ?_, (hextend hw.head).mpr
    (.inr ⟨rfl, rfl⟩)⟩
  · refine exists_congr fun d => and_congr_right fun hd => ?_
    rw [hextend (hw.sound.dirs_heads hd)]
    exact or_iff_left fun hdh => hw.file (hdh.1 ▸ hd)
  · rintro d hd rfl
    exact hw.sound.not_dirOn_of_free hfree hd

theorem Tail.Writes.followChain (hw : tail.fs.Writes heads dirs a h)
    (honChain : OnChain tail.fs.follow h tail.currentCluster)
    (hfollow : FatData.followChain tail = some tail') : tail'.Writes heads dirs a h := by
  obtain ⟨next, hnext, hfollow⟩ := Option.bind_eq_some_iff.mp hfollow
  rw [hw.sound.toSynced.nextCluster_eq (hw.sound.toSynced.inTable (hw.isCluster honChain))] at hnext
  obtain rfl := Option.some.inj hnext
  obtain rfl := Option.some.inj hfollow
  refine ⟨hw, ?_⟩
  by_cases hlink : tail.fs.link tail.currentCluster < clusterChainEnd
  · exact .inl (honChain.step (follow_eq_some hlink))
  · exact .inr ⟨Nat.le_of_not_lt hlink, honChain, follow_eq_none (Nat.le_of_not_lt hlink)⟩

theorem Tail.Writes.last (hw : tail.Writes heads dirs a h)
    (hend : clusterChainEnd ≤ tail.currentCluster) :
    OnChain tail.fs.follow h tail.previousCluster ∧
      tail.fs.follow tail.previousCluster = none := by
  rcases hw.2 with honChain | ⟨-, hlast⟩
  · have hsmall := hw.1.sound.toSynced.lt_clusterChainEnd (hw.1.isCluster honChain)
    exact absurd hend (Nat.not_le.mpr hsmall)
  · exact hlast

theorem Tail.Writes.current (hw : tail.Writes heads dirs a h)
    (hin : ¬ clusterChainEnd ≤ tail.currentCluster) :
    OnChain tail.fs.follow h tail.currentCluster :=
  hw.2.resolve_right fun hlast => hin hlast.1

def Grown (heads dirs : Set Nat) (a h : Nat) : Except (Int × FatData) Tail → Prop
  | .error failed => FilesSound failed.2 heads dirs
  | .ok tail => tail.fs.Writes heads dirs a h ∧ OnChain tail.fs.follow h tail.currentCluster

theorem Tail.Writes.growChain (hw : tail.Writes heads dirs a h)
    (hend : clusterChainEnd ≤ tail.currentCluster) {out : Except (Int × FatData) Tail}
    (hgrow : FatData.growChain env tail = some out) : Grown heads dirs a h out := by
  obtain ⟨honChain, hlast⟩ := hw.last hend
  have hsynced := hw.1.sound.toSynced
  rw [FatData.growChain] at hgrow
  dsimp only at hgrow
  split at hgrow
  next hzero =>
    obtain rfl := Option.some.inj hgrow
    rw [computeFreeCluster_of_zero hzero]
    exact hw.1.sound
  next hne =>
    obtain ⟨linked, hlinked, hgrow⟩ := Option.bind_eq_some_iff.mp hgrow
    obtain ⟨ended, hended, hgrow⟩ := Option.bind_eq_some_iff.mp hgrow
    obtain rfl := Option.some.inj hgrow
    have hfree := hsynced.isFree_computeFreeCluster hne
    have hfound := hsynced.computeFreeCluster
    obtain ⟨hchanged, hp, hg⟩ := hfound.synced.linkFree
      (hfound.geometry.isCluster.mpr (hw.1.isCluster honChain))
      (hfound.geometry.isCluster.mpr hfree.isCluster)
      (hw.1.sound.ne_of_free hw.1.head honChain hfree) hlinked hended
    exact hw.1.grow honChain hlast hfree ((hfound.trans hchanged).mono (by simp) (by simp)) hp hg

theorem Tail.Writes.growChainCleared (hw : tail.Writes heads dirs a h)
    (hend : clusterChainEnd ≤ tail.currentCluster) {out : Except (Int × FatData) Tail}
    (hgrow : FatData.growChainCleared env tail = some out) : Grown heads dirs a h out := by
  obtain ⟨honChain, hlast⟩ := hw.last hend
  have hsynced := hw.1.sound.toSynced
  rw [FatData.growChainCleared] at hgrow
  dsimp only at hgrow
  split at hgrow
  next hzero =>
    obtain rfl := Option.some.inj hgrow
    rw [computeFreeCluster_of_zero hzero]
    exact hw.1.sound
  next hne =>
    have hfree := hsynced.isFree_computeFreeCluster hne
    have hfound := hsynced.computeFreeCluster
    have hg := hfound.geometry.isCluster.mpr hfree.isCluster
    have hcleared := hfound.synced.writeCluster hg fun _ => 0
    have hfits := (hfound.synced.toLayout.cluster_sectors hg).2
    rw [Disk.writeSectors, if_pos hfits] at hgrow
    dsimp only at hgrow
    rw [if_neg (by decide)] at hgrow
    obtain ⟨linked, hlinked, hgrow⟩ := Option.bind_eq_some_iff.mp hgrow
    obtain ⟨ended, hended, hgrow⟩ := Option.bind_eq_some_iff.mp hgrow
    obtain rfl := Option.some.inj hgrow
    rw [writeSectors, Disk.writeSectors, if_pos hfits] at hcleared
    obtain ⟨hchanged, hp, hg⟩ := hcleared.synced.linkFree
      (hcleared.geometry.isCluster.mpr (hfound.geometry.isCluster.mpr (hw.1.isCluster honChain)))
      (hcleared.geometry.isCluster.mpr hg)
      (hw.1.sound.ne_of_free hw.1.head honChain hfree) hlinked hended
    exact hw.1.grow honChain hlast hfree
      (((hfound.trans hcleared).trans hchanged).mono (by simp) (by simp)) hp hg

theorem Tail.Writes.of_grown (hw : tail.fs.Writes heads dirs a h)
    (honChain : OnChain tail.fs.follow h tail.currentCluster) : tail.Writes heads dirs a h :=
  ⟨hw, .inl honChain⟩

def Skipped (heads dirs : Set Nat) (a h : Nat) : Except (Int × FatData) (Tail × Nat) → Prop
  | .error failed => FilesSound failed.2 heads dirs
  | .ok at_ => at_.1.Writes heads dirs a h

def Written (heads dirs : Set Nat) (a h : Nat) : Except (Int × FatData) FatData → Prop
  | .error failed => FilesSound failed.2 heads dirs
  | .ok v => v.Writes heads dirs a h

theorem Tail.Writes.skipRound (hw : tail.Writes heads dirs a h) {offset : Nat}
    {out : (Tail × Nat) ⊕ Except (Int × FatData) (Tail × Nat)}
    (hround : FatData.skipRound env (tail, offset) = some out) :
    (∀ s, out = .inl s → s.1.Writes heads dirs a h) ∧
      ∀ r, out = .inr r → Skipped heads dirs a h r := by
  rw [FatData.skipRound] at hround
  split at hround
  · obtain rfl := Option.some.inj hround
    refine ⟨nofun, fun r hr => ?_⟩
    obtain rfl := Sum.inr.inj hr
    exact hw
  · split at hround
    next hend =>
      obtain ⟨grown, hgrow, hround⟩ := Option.bind_eq_some_iff.mp hround
      have hgrown := hw.growChainCleared hend hgrow
      cases grown with
      | error failed =>
          obtain rfl := Option.some.inj hround
          refine ⟨nofun, fun r hr => ?_⟩
          obtain rfl := Sum.inr.inj hr
          exact hgrown
      | ok next =>
          obtain rfl := Option.some.inj hround
          refine ⟨fun s hs => ?_, nofun⟩
          obtain rfl := Sum.inl.inj hs
          exact .of_grown hgrown.1 hgrown.2
    next hin =>
      obtain ⟨next, hfollow, hround⟩ := Option.bind_eq_some_iff.mp hround
      obtain rfl := Option.some.inj hround
      refine ⟨fun s hs => ?_, nofun⟩
      obtain rfl := Sum.inl.inj hs
      exact Tail.Writes.followChain hw.1 (hw.current hin) hfollow

/-- The rest of a round of the writing loop, for the cluster that it fills. -/
def fillRound (env : FatEnv) (clusterOffset : Nat) (left : List UInt8) :
    Except (Int × FatData) Tail →
      Option ((Tail × Nat × List UInt8) ⊕ Except (Int × FatData) FatData)
  | .error failed => some (.inr (.error failed))
  | .ok tail =>
    match clusterToFill env tail clusterOffset left.length with
    | .error res => some (.inr (.error (res, tail.fs)))
    | .ok buffer =>
      let count := min (tail.fs.bytesPerCluster - clusterOffset) left.length
      let fs := tail.fs.writeSectors (tail.fs.getFirstClusterSector tail.currentCluster)
        (buffer.copy clusterOffset (left.take count)) tail.fs.bpb.sectorsPerCluster
      let tail := { tail with fs := fs }
      let left := left.drop count
      if left = [] then some (.inl (tail, clusterOffset + count, left))
      else (FatData.followChain tail).bind fun tail => some (.inl (tail, 0, left))

theorem writeRound_eq {clusterOffset : Nat} {left : List UInt8} (hleft : left ≠ []) :
    FatData.writeRound env (tail, clusterOffset, left) =
      (if clusterChainEnd ≤ tail.currentCluster then FatData.growChain env tail
        else some (.ok tail)).bind (fillRound env clusterOffset left) := by
  rw [FatData.writeRound, if_neg hleft]
  split <;> rfl

/-- The cluster that a round of the writing loop fills is one of the file. -/
theorem Tail.Writes.ready (hw : tail.Writes heads dirs a h)
    {out : Except (Int × FatData) Tail}
    (hready : (if clusterChainEnd ≤ tail.currentCluster then FatData.growChain env tail
      else some (.ok tail)) = some out) : Grown heads dirs a h out := by
  split at hready
  next hend => exact hw.growChain hend hready
  next hin =>
    obtain rfl := Option.some.inj hready
    exact ⟨hw.1, hw.current hin⟩

theorem Tail.Writes.writeRound (hw : tail.Writes heads dirs a h) {clusterOffset : Nat}
    {left : List UInt8} {out : (Tail × Nat × List UInt8) ⊕ Except (Int × FatData) FatData}
    (hround : FatData.writeRound env (tail, clusterOffset, left) = some out) :
    (∀ s, out = .inl s → s.1.Writes heads dirs a h) ∧
      ∀ r, out = .inr r → Written heads dirs a h r := by
  by_cases hleft : left = []
  · rw [FatData.writeRound, if_pos hleft] at hround
    obtain rfl := Option.some.inj hround
    refine ⟨nofun, fun r hr => ?_⟩
    obtain rfl := Sum.inr.inj hr
    exact hw.1
  · rw [writeRound_eq hleft] at hround
    obtain ⟨ready, hready, hround⟩ := Option.bind_eq_some_iff.mp hround
    have hgrown := hw.ready hready
    cases ready with
    | error failed =>
        obtain rfl := Option.some.inj hround
        refine ⟨nofun, fun r hr => ?_⟩
        obtain rfl := Sum.inr.inj hr
        exact hgrown
    | ok tail =>
        obtain ⟨hwrites, honChain⟩ := hgrown
        rw [fillRound] at hround
        split at hround
        · obtain rfl := Option.some.inj hround
          refine ⟨nofun, fun r hr => ?_⟩
          obtain rfl := Sum.inr.inj hr
          exact hwrites.sound
        next filled hfilled =>
          have hfill := hwrites.fill honChain (filled.copy clusterOffset
            (left.take (min (tail.fs.bytesPerCluster - clusterOffset) left.length)))
          dsimp only at hround
          split at hround
          · obtain rfl := Option.some.inj hround
            refine ⟨fun s hs => ?_, nofun⟩
            obtain rfl := Sum.inl.inj hs
            exact .of_grown hfill honChain
          · obtain ⟨next, hfollow, hround⟩ := Option.bind_eq_some_iff.mp hround
            obtain rfl := Option.some.inj hround
            refine ⟨fun s hs => ?_, nofun⟩
            obtain rfl := Sum.inl.inj hs
            refine Tail.Writes.followChain ?_ ?_ hfollow
            · exact hfill
            · exact honChain

def slotHandle (v : FatData) (c i : Nat) : Nat :=
  (v.getFirstClusterSector c + 32 * i / 512) * 2 ^ 32 + 32 * i % 512

theorem FilesSound.slotHandle (hsound : FilesSound v heads dirs) (hc : v.DirOn dirs c)
    (hi : i < v.entryCount) :
    512 * (v.slotHandle c i / 2 ^ 32 % 2 ^ 32) + v.slotHandle c i % 2 ^ 32 = v.slotPlace c i ∧
      v.slotHandle c i % 2 ^ 32 + 32 ≤ 512 ∧ v.slotHandle c i ≠ 0 := by
  have hlt := hsound.slot_lt hc hi
  have hbehind := (hsound.toLayout.cluster_sectors (hsound.dirOn_isCluster hc)).1
  have htable := hsound.table
  have hnumFats : v.fatSize ≤ v.bpb.numFats * v.fatSize :=
    Nat.le_mul_of_pos_left _ hsound.numFats
  have hdivision : v.slotHandle c i / 2 ^ 32 = v.getFirstClusterSector c + 32 * i / 512 := by
    rw [FatData.slotHandle]
    omega
  have hrest : v.slotHandle c i % 2 ^ 32 = 32 * i % 512 := by
    rw [FatData.slotHandle]
    omega
  rw [hdivision, Nat.mod_eq_of_lt hlt, hrest, slotPlace, clusterPlace]
  refine ⟨by omega, by omega, fun hzero => ?_⟩
  rw [hzero] at hdivision
  rw [firstDataSector] at hbehind
  omega

theorem FilesSound.readDirent (hsound : FilesSound v heads dirs) (hc : v.DirOn dirs c)
    (hi : i < v.entryCount) (junk : Buffer) :
    v.readDirent junk (v.slotHandle c i) = v.direntAt (v.slotPlace c i) := by
  obtain ⟨hplace, hoffset, hne⟩ := hsound.slotHandle hc hi
  obtain ⟨-, hfits⟩ := hsound.slot_sector ⟨c, i, hc, hi, rfl⟩ hplace hoffset
  rw [FatData.readDirent, if_neg hne]
  refine FatDirent.ofBuffer_congr fun j hj => ?_
  rw [readSectors_byte junk hfits (by omega), ← Nat.add_assoc, hplace]

/-- The entry of a file, with its first cluster. -/
structure Starts (dirent : FatDirent) (h : Nat) : Prop where
  name : dirent.name.length = 11
  file : dirent.isDirectory = false
  first : 2 ^ 16 * (dirent.firstClusterHigh % 2 ^ 16) + dirent.firstClusterLow % 2 ^ 16 = h

/-- The entry of a file is written back with the first cluster of its chain. -/
theorem Writes.writeBack {handle : Nat} (hw : v.Writes heads dirs a h)
    (hplace : 512 * (handle / 2 ^ 32 % 2 ^ 32) + handle % 2 ^ 32 = a)
    (hoffset : handle % 2 ^ 32 + 32 ≤ 512) (hstarts : Starts dirent h)
    (hback : v.writeBack env handle dirent = some v') : FilesSound v' heads dirs := by
  have hlength := FatDirent.length_toBytes hstarts.name
  rw [FatData.writeBack, if_pos hoffset] at hback
  obtain rfl := Option.some.inj hback
  obtain ⟨hwritten, hbytes⟩ := hw.sound.patchSlot hw.slot hplace hoffset hlength.le env
  rw [hlength] at hbytes
  obtain ⟨hattributes, hhigh, hlow⟩ := FatDirent.ofBuffer_toBytes hstarts.name hbytes
  generalize v.patchSector env (handle / 2 ^ 32 % 2 ^ 32) (handle % 2 ^ 32)
    dirent.toBytes = v' at *
  have hdir : (v'.direntAt a).isDirectory = false := by
    rw [FatDirent.isDirectory, direntAt, hattributes]
    exact hstarts.file
  have hcluster : (v'.direntAt a).firstCluster = h := by
    rw [FatDirent.firstCluster, direntAt, hhigh, hlow]
    exact hstarts.first
  refine hw.sound.setSlot hw.slot hwritten (FatDirent.not_isSub hdir) fun _ => .inr ?_
  rw [hcluster]
  exact ⟨hw.head, hw.file, hw.others⟩

theorem firstCluster_mod (v : FatData) (a : Nat) :
    2 ^ 16 * ((v.direntAt a).firstClusterHigh % 2 ^ 16) +
      (v.direntAt a).firstClusterLow % 2 ^ 16 = (v.direntAt a).firstCluster := by
  have hhigh : (v.direntAt a).firstClusterHigh < 2 ^ 16 := Buffer.u16_lt ..
  have hlow : (v.direntAt a).firstClusterLow < 2 ^ 16 := Buffer.u16_lt ..
  rw [FatDirent.firstCluster, Nat.mod_eq_of_lt hhigh, Nat.mod_eq_of_lt hlow]

/-- A file is written from its first cluster on, which may be a new one. -/
theorem FilesSound.firstTail (hsound : FilesSound v heads dirs) (ha : v.IsSlot dirs a)
    (hfile : (v.direntAt a).IsFile)
    (hfree : (v.direntAt a).firstClusterLow = 0 → v.computeFreeCluster.1 ≠ 0)
    (hfirst : v.firstTail env (v.direntAt a) = some (dirent, tail)) :
    ∃ heads' h, tail.Writes heads' dirs a h ∧ Starts dirent h := by
  rw [FatData.firstTail] at hfirst
  split at hfirst
  next hlow =>
    have hne := hfree hlow
    have hisFree := hsound.toSynced.isFree_computeFreeCluster hne
    have hfound := hsound.toSynced.computeFreeCluster
    have hcluster := hfound.geometry.isCluster.mpr hisFree.isCluster
    dsimp only at hfirst
    obtain ⟨ended, hended, hfirst⟩ := Option.bind_eq_some_iff.mp hfirst
    obtain ⟨rfl, rfl⟩ := Prod.mk.inj (Option.some.inj hfirst)
    have hsmall := hfound.synced.lt_clusterChainEnd hcluster
    obtain ⟨hchanged, hlast⟩ := hfound.synced.writeFat (hfound.synced.inTable hcluster) hsmall
      hended
    have hall : Changed v ended {v.computeFreeCluster.1} {v.computeFreeCluster.1} :=
      (hfound.trans hchanged).mono (by simp) (by simp)
    have hlinks : ∀ k ∈ heads, ∀ c, OnChain v.follow k c →
        c ∉ ({v.computeFreeCluster.1} : Set Nat) := by
      rintro k hk c honChain rfl
      exact hsound.not_onChain_of_free hisFree hk honChain
    have hend : clusterChainEnd ≤ ended.link v.computeFreeCluster.1 := by
      rw [hlast]
      decide
    have hdir : ∀ c, ended.DirOn dirs c ↔ v.DirOn dirs c := fun c =>
      hsound.dirOn_keep hall hlinks
    have hnotHead : v.computeFreeCluster.1 ∉ heads := fun hmem =>
      hsound.not_onChain_of_free hisFree hmem (hsound.chains.onChain_head hmem)
    have hsound' := hsound.addHead hisFree hall hend
    refine ⟨insert v.computeFreeCluster.1 heads, v.computeFreeCluster.1, ⟨?_, .inl ?_⟩,
      FatDirent.length_name_ofBuffer .., hfile.2, ?_⟩
    · refine ⟨hsound', Set.mem_insert _ heads, fun hmem => hnotHead (hsound.dirs_heads hmem),
        (isSlot_congr hall.geometry hdir).mpr ha, fun b hb _ howns heq => ?_⟩
      -- an entry with this first cluster would have had it before
      rw [isSlot_congr hall.geometry hdir] at hb
      obtain ⟨c, i, hc, hi, rfl⟩ := id hb
      have hnot : c ∉ ({v.computeFreeCluster.1} : Set Nat) := by
        rintro rfl
        exact hsound.not_dirOn_of_free hisFree hc
      rw [hall.direntAt hsound.toSynced (hsound.dirOn_isCluster hc) hnot hi] at howns heq
      refine hnotHead ?_
      rw [← heq]
      rcases howns with hbfile | hbsub
      · exact ((hsound.file _ hb hbfile).resolve_left (by rw [heq]; exact hne)).1
      · exact hsound.dirs_heads (hsound.sub _ hb hbsub)
    · exact ⟨[v.computeFreeCluster.1], ⟨rfl, follow_eq_none hend⟩, List.mem_singleton_self _⟩
    · have hnumber : v.computeFreeCluster.1 < 2 ^ 32 := Nat.lt_trans hsmall (by decide)
      dsimp only
      omega
  next hlow =>
    obtain ⟨rfl, rfl⟩ := Prod.mk.inj (Option.some.inj hfirst)
    have hzero : (v.direntAt a).firstCluster ≠ 0 := by
      rw [FatDirent.firstCluster]
      omega
    obtain ⟨hhead, hdir⟩ := (hsound.file a ha hfile).resolve_left hzero
    refine ⟨heads, (v.direntAt a).firstCluster, ⟨⟨hsound, hhead, hdir, ha, ?_⟩, .inl ?_⟩,
      FatDirent.length_name_ofBuffer .., hfile.2, v.firstCluster_mod a⟩
    · intro b hb hba howns heq
      exact hba (hsound.apart b a hb ha howns (.inl hfile) heq (heq ▸ hzero))
    · exact hsound.chains.onChain_head hhead

/-- `fat_write_to_file` keeps the files sound, for the handle of a file, or of an entry
that was deleted.  A file without a cluster has to get one. -/
theorem FilesSound.writeToFile (hsound : FilesSound v heads dirs) (hc : v.DirOn dirs c)
    (hi : i < v.entryCount) {bytes : List UInt8} {offset : Nat} {res : Int}
    (hready : (v.direntAt (v.slotPlace c i)).firstByte = direntDeleted ∨
      (v.direntAt (v.slotPlace c i)).firstByte = direntEnd ∨
      (v.direntAt (v.slotPlace c i)).IsFile ∧
        ((v.direntAt (v.slotPlace c i)).firstClusterLow = 0 → v.computeFreeCluster.1 ≠ 0))
    (hcall : v.writeToFile env (v.slotHandle c i) bytes offset = some (res, v')) :
    ∃ heads', FilesSound v' heads' dirs := by
  obtain ⟨hplace, hoffset, -⟩ := hsound.slotHandle hc hi
  have hslot : v.IsSlot dirs (v.slotPlace c i) := ⟨c, i, hc, hi, rfl⟩
  rw [FatData.writeToFile] at hcall
  split at hcall
  · exact ⟨heads, (Prod.mk.inj (Option.some.inj hcall)).2 ▸ hsound⟩
  · rw [hsound.readDirent hc hi] at hcall
    dsimp only at hcall
    split at hcall
    · exact ⟨heads, (Prod.mk.inj (Option.some.inj hcall)).2 ▸ hsound⟩
    next hused =>
      rw [not_or] at hused
      obtain ⟨hfile, hfree⟩ := (hready.resolve_left hused.1).resolve_left hused.2
      obtain ⟨⟨dirent, tail⟩, hfirst, hcall⟩ := Option.bind_eq_some_iff.mp hcall
      obtain ⟨heads', h, hw, hstarts⟩ := hsound.firstTail hslot hfile hfree hfirst
      obtain ⟨skipped, hskip, hcall⟩ := Option.bind_eq_some_iff.mp hcall
      have hskipped : Skipped heads' dirs (v.slotPlace c i) h skipped :=
        Loop.run_invariant (fun s : Tail × Nat => s.1.Writes heads' dirs (v.slotPlace c i) h)
          (Skipped heads' dirs (v.slotPlace c i) h)
          (fun s s' hs hround => (hs.skipRound hround).1 s' rfl)
          (fun s r hs hround => (hs.skipRound hround).2 r rfl) hw hskip
      refine ⟨heads', ?_⟩
      cases skipped with
      | error failed =>
          obtain rfl := Option.some.inj hcall
          exact hskipped
      | ok at_ =>
          have hat : at_.1.Writes heads' dirs (v.slotPlace c i) h := hskipped
          obtain ⟨written, hwrite, hcall⟩ := Option.bind_eq_some_iff.mp hcall
          have hwritten : Written heads' dirs (v.slotPlace c i) h written :=
            Loop.run_invariant
              (fun s : Tail × Nat × List UInt8 => s.1.Writes heads' dirs (v.slotPlace c i) h)
              (Written heads' dirs (v.slotPlace c i) h)
              (fun s s' hs hround => (hs.writeRound hround).1 s' rfl)
              (fun s r hs hround => (hs.writeRound hround).2 r rfl)
              (s := (at_.1, at_.2, bytes)) hat hwrite
          cases written with
          | error failed =>
              obtain rfl := Option.some.inj hcall
              exact hwritten
          | ok w =>
              obtain ⟨back, hback, hcall⟩ := Option.bind_eq_some_iff.mp hcall
              obtain ⟨-, rfl⟩ := Prod.mk.inj (Option.some.inj hcall)
              refine Writes.writeBack hwritten hplace hoffset ?_ hback
              exact ⟨hstarts.name, hstarts.file, hstarts.first⟩

end FatData

end GlitchedOS
