/-
What the calls that change a volume do to its files: an entry written at its place, a
free cluster linked behind a chain, and a chain released, each keep the files sound.
-/
import GlitchedOS.Fs.FatPaths

namespace GlitchedOS

theorem length_padSpaces (n : Nat) (s : List Char) : (padSpaces n s).length = n := by
  rw [padSpaces, List.length_take, List.length_append, List.length_replicate]
  omega

theorem length_readableTo8d3 (path : List Char) : (readableTo8d3 path).length = 11 := by
  simp only [readableTo8d3, List.length_append, length_padSpaces]

namespace FatDirent

/-- The bytes of an entry behind its name. -/
def fieldBytes (d : FatDirent) : List UInt8 :=
  [d.attributes, d.reserved, d.creationTimeTenth] ++
    bytes16 d.creationTime ++ bytes16 d.creationDate ++ bytes16 d.lastAccessDate ++
    bytes16 d.firstClusterHigh ++ bytes16 d.lastModificationTime ++
    bytes16 d.lastModificationDate ++ bytes16 d.firstClusterLow ++ bytes32 d.fileSize

theorem toBytes_eq (d : FatDirent) : d.toBytes = d.name.map Char.toUInt8 ++ d.fieldBytes := by
  simp only [toBytes, fieldBytes, List.append_assoc]

theorem length_toBytes {d : FatDirent} (hname : d.name.length = 11) : d.toBytes.length = 32 := by
  rw [toBytes_eq, List.length_append, List.length_map, hname]
  rfl

theorem toBytes_getD {d : FatDirent} (hname : d.name.length = 11) (k : Nat) :
    d.toBytes.getD (11 + k) 0 = d.fieldBytes.getD k 0 := by
  rw [toBytes_eq, List.getD_append_right _ _ _ _ (by rw [List.length_map, hname]; omega),
    List.length_map, hname, Nat.add_sub_cancel_left]

/-- An entry that was stored has its attributes and its first cluster. -/
theorem ofBuffer_toBytes {d : FatDirent} (hname : d.name.length = 11) {b : Buffer} {start : Nat}
    (h : ∀ i < 32, b (start + i) = d.toBytes.getD i 0) :
    (ofBuffer b start).attributes = d.attributes ∧
      (ofBuffer b start).firstClusterHigh = d.firstClusterHigh % 2 ^ 16 ∧
      (ofBuffer b start).firstClusterLow = d.firstClusterLow % 2 ^ 16 := by
  refine ⟨?_, ?_, ?_⟩
  · exact (h 11 (by decide)).trans (toBytes_getD hname 0)
  · refine Buffer.u16_of_bytes16 fun i hi => ?_
    rw [Nat.add_assoc, h (20 + i) (by omega), show 20 + i = 11 + (9 + i) by omega,
      toBytes_getD hname]
    obtain rfl | rfl : i = 0 ∨ i = 1 := by omega
    all_goals rfl
  · refine Buffer.u16_of_bytes16 fun i hi => ?_
    rw [Nat.add_assoc, h (26 + i) (by omega), show 26 + i = 11 + (15 + i) by omega,
      toBytes_getD hname]
    obtain rfl | rfl : i = 0 ∨ i = 1 := by omega
    all_goals rfl

theorem length_name_ofBuffer (b : Buffer) (start : Nat) : (ofBuffer b start).name.length = 11 := by
  rw [ofBuffer, List.length_map, List.length_range]

theorem not_isSub {d : FatDirent} (hdir : d.isDirectory = false) : ¬ d.IsSub := fun hsub => by
  rw [hsub.2.1] at hdir
  cases hdir

end FatDirent

namespace FatData

variable {v v' linked ended : FatData} {env : FatEnv} {heads dirs : Set Nat}
  {ref : DirentRef} {bytes : List UInt8} {buffer : Buffer} {dirent : FatDirent}
  {a c g h i p sector offset fuel cluster : Nat} {clusters : List Nat} {res : Int}

/-- The sector of an entry is one of a cluster. -/
theorem FilesSound.slot_sector (hsound : FilesSound v heads dirs) (ha : v.IsSlot dirs a)
    (hplace : 512 * sector + offset = a) (hoffset : offset + 32 ≤ 512) :
    v.firstDataSector ≤ sector ∧ sector < v.backing.sectors := by
  obtain ⟨c, i, hc, hi, rfl⟩ := ha
  have hsectors := hsound.toLayout.cluster_sectors (hsound.dirOn_isCluster hc)
  have hfits := hsound.toLayout.toValid.slot_fits hi
  rw [slotPlace, clusterPlace] at hplace
  omega

/-- Some bytes from the start of an entry on are written. -/
theorem FilesSound.patchSlot (hsound : FilesSound v heads dirs) (ha : v.IsSlot dirs a)
    (hplace : 512 * sector + offset = a) (hoffset : offset + 32 ≤ 512)
    (hlength : bytes.length ≤ 32) (env : FatEnv) :
    SlotWritten v (v.patchSector env sector offset bytes) a ∧
      ∀ i < bytes.length,
        (v.patchSector env sector offset bytes).backing.byte (a + i) = bytes.getD i 0 := by
  obtain ⟨hbehind, hfits⟩ := hsound.slot_sector ha hplace hoffset
  have hbyte : ∀ i, (v.patchSector env sector offset bytes).backing.byte i =
      if a ≤ i ∧ i < a + bytes.length then bytes.getD (i - a) 0 else v.backing.byte i := by
    intro i
    rw [patchSector_byte hfits (by omega), hplace]
  have hgeo := patchSector_geometry v env sector offset bytes
  refine ⟨⟨hgeo, hgeo.synced hsound.toSynced rfl fun j hj => ?_, fun _ => rfl,
    fun j _ hj => ?_⟩, fun i hi => ?_⟩
  · rw [hbyte, if_neg (by omega)]
  · rw [hbyte, if_neg (by omega)]
  · rw [hbyte, if_pos (by omega), Nat.add_sub_cancel_left]

theorem FilesSound.markDeleted (hsound : FilesSound v heads dirs) (ha : v.IsSlot dirs a)
    (hrefers : v.RefersTo ref a) (env : FatEnv) :
    SlotWritten v (v.markDeleted env ref) a ∧
      ¬ ((v.markDeleted env ref).direntAt a).InUse := by
  have hlength : ([0xE5] : List UInt8).length ≤ 32 := by decide
  obtain ⟨hwritten, hbyte⟩ := hsound.patchSlot ha hrefers.place hrefers.offset hlength env
  refine ⟨hwritten, fun huse => ?_⟩
  have hfirst : ((v.markDeleted env ref).direntAt a).firstByte = direntDeleted := by
    rw [direntAt, firstByte_ofBuffer]
    exact congrArg Char.ofUInt8 (hbyte 0 (by decide))
  have hskip := huse.2
  rw [FatDirent.isSkipped, hfirst, decide_eq_true rfl, Bool.true_or] at hskip
  cases hskip

theorem FilesSound.markDeleted_sound (hsound : FilesSound v heads dirs) (ha : v.IsSlot dirs a)
    (hrefers : v.RefersTo ref a) (env : FatEnv) :
    FilesSound (v.markDeleted env ref) heads dirs := by
  obtain ⟨hwritten, hdead⟩ := hsound.markDeleted ha hrefers env
  exact hsound.setSlot ha hwritten (fun hsub => hdead hsub.1) fun hfile => absurd hfile.1 hdead

/-- The clusters that belong to an entry. -/
def FileClusters (v : FatData) (dirent : FatDirent) (clusters : List Nat) : Prop :=
  if dirent.firstCluster = 0 then clusters = []
  else Chain v.follow (some dirent.firstCluster) clusters

/-- The loop of `fat_delete` clears the links of a chain. -/
theorem Synced.freeLoop (hv : v.Synced) (hclusters : ∀ c ∈ clusters, v.IsCluster c)
    (hchain : Chain v.follow (some c) clusters) (env : FatEnv) :
    ∃ v', (∀ fuel, clusters.length + 1 ≤ fuel →
        runLoop (freeRound env) fuel (v, c) = some v') ∧
      Changed v v' {d | d ∈ clusters} ∅ ∧ ∀ d ∈ clusters, v'.link d = 0 := by
  induction clusters generalizing v c with
  | nil => cases hchain
  | cons d rest ih =>
      obtain rfl := Option.some.inj hchain.1
      have hc := hclusters c List.mem_cons_self
      have hin := hv.inTable hc
      have hsmall := hv.lt_clusterChainEnd hc
      obtain ⟨w, hw⟩ := hv.writeFat_eq hin hsmall env 0
      obtain ⟨hchanged, hzero⟩ := hv.writeFat hin hsmall hw
      have hround : freeRound env (v, c) = some (.inl (w, v.link c)) := by
        rw [freeRound, if_pos hsmall, hv.nextCluster_eq hin, Option.bind_eq_bind,
          Option.bind_some, hw]
        rfl
      have hnodup := List.nodup_cons.mp hchain.nodup
      have hrest : Chain w.follow (v.follow c) rest := hchain.2.congr fun b hb =>
        hchanged.follow fun hbc => hnodup.1 (hbc ▸ hb)
      by_cases hlink : v.link c < clusterChainEnd
      · rw [follow_eq_some hlink] at hrest
        obtain ⟨v', hrun, hchanged', hlinks⟩ := ih hchanged.synced (fun b hb =>
          hchanged.geometry.isCluster.mpr (hclusters b (List.mem_cons_of_mem c hb))) hrest
        refine ⟨v', fun fuel hfuel => ?_, ?_, fun d hd => ?_⟩
        · obtain ⟨more, rfl⟩ : ∃ more, fuel = more + 1 := ⟨fuel - 1, by omega⟩
          rw [Loop.run_goes hround]
          exact hrun more (by rw [List.length_cons] at hfuel; omega)
        · refine (hchanged.trans hchanged').mono ?_ (Set.union_subset subset_rfl subset_rfl)
          rintro d (rfl | hd)
          · exact List.mem_cons_self
          · exact List.mem_cons_of_mem c hd
        · by_cases hdc : d = c
          · subst hdc
            exact (hchanged'.link d hnodup.1).trans hzero
          · exact hlinks d ((List.mem_cons.mp hd).resolve_left hdc)
      · rw [follow_eq_none (Nat.le_of_not_lt hlink)] at hrest
        cases rest with
        | cons b rest => cases hrest.1
        | nil =>
            refine ⟨w, fun fuel hfuel => ?_, hchanged.mono (fun d hd => ?_) subset_rfl,
              fun d hd => ?_⟩
            · obtain ⟨more, rfl⟩ : ∃ more, fuel = more + 2 :=
                ⟨fuel - 2, by rw [List.length_singleton] at hfuel; omega⟩
              rw [Loop.run_goes hround]
              refine Loop.run_done ?_
              rw [freeRound, if_neg hlink]
            · exact List.mem_singleton.mpr hd
            · rw [List.mem_singleton.mp hd]
              exact hzero

theorem Synced.isFree_of_changed {relinked filled : Set Nat} (hv : v.Synced)
    (hchanged : Changed v v' relinked filled) (hnot : c ∉ relinked) :
    v'.IsFree c ↔ v.IsFree c := by
  rw [hchanged.synced.isFree_iff, hv.isFree_iff, hchanged.geometry.isCluster]
  exact and_congr_right fun _ => by rw [hchanged.link c hnot]

/-- After `fat_delete` the clusters of its entry are free as well. -/
def Released (v v' : FatData) (clusters : List Nat) : Prop :=
  ∀ c, v'.IsFree c ↔ v.IsFree c ∨ c ∈ clusters

theorem SlotWritten.isFree (hwritten : SlotWritten v v' a) (hv : v.Synced) :
    v'.IsFree c ↔ v.IsFree c := by
  rw [hwritten.synced.isFree_iff, hv.isFree_iff, hwritten.geometry.isCluster, hwritten.link]

theorem FilesSound.fileClusters (hsound : FilesSound v heads dirs) (ha : v.IsSlot dirs a)
    (howns : (v.direntAt a).Owns) : ∃ clusters, v.FileClusters (v.direntAt a) clusters := by
  by_cases hzero : (v.direntAt a).firstCluster = 0
  · exact ⟨[], by rw [FileClusters, if_pos hzero]⟩
  · have hhead : (v.direntAt a).firstCluster ∈ heads := by
      rcases howns with hfile | hsub
      · exact ((hsound.file a ha hfile).resolve_left hzero).1
      · exact hsound.dirs_heads (hsound.sub a ha hsub)
    obtain ⟨l, hchain⟩ := hsound.chains.ends _ hhead
    exact ⟨l, by rwa [FileClusters, if_neg hzero]⟩

/-- An empty file has the reserved entry of the table released, and no cluster. -/
theorem FilesSound.release_empty (hsound : FilesSound v heads dirs)
    (hlink : clusterChainEnd ≤ v.link 0) (env : FatEnv) :
    ∃ v', (∀ fuel, 2 ≤ fuel → runLoop (freeRound env) fuel (v, 0) = some v') ∧
      Released v v' [] ∧ v'.link 0 = 0 ∧ FilesSound v' heads dirs := by
  have hin : 0 < v.fatSize * 128 := by
    have htable := hsound.table
    omega
  obtain ⟨v', hwrite⟩ := hsound.toSynced.writeFat_eq hin (by decide) env 0
  obtain ⟨hchanged, hzero⟩ := hsound.toSynced.writeFat hin (by decide) hwrite
  have hround : freeRound env (v, 0) = some (.inl (v', v.link 0)) := by
    rw [freeRound, if_pos (by decide), hsound.toSynced.nextCluster_eq hin, Option.bind_eq_bind,
      Option.bind_some, hwrite]
    rfl
  have hreserved : ∀ c, v.IsCluster c → c ∉ ({0} : Set Nat) := by
    rintro c hc rfl
    exact absurd hc.1 (by decide)
  refine ⟨v', fun fuel hfuel => ?_, fun c => ?_, hzero, ?_⟩
  · obtain ⟨more, rfl⟩ : ∃ more, fuel = more + 2 := ⟨fuel - 2, by omega⟩
    rw [Loop.run_goes hround]
    refine Loop.run_done ?_
    rw [freeRound, if_neg (Nat.not_lt.mpr hlink)]
  · rw [or_iff_left List.not_mem_nil]
    by_cases hc : v.IsCluster c
    · exact hsound.toSynced.isFree_of_changed hchanged (hreserved c hc)
    · exact iff_of_false (fun hfree => hc (hchanged.geometry.isCluster.mp hfree.isCluster))
        fun hfree => hc hfree.isCluster
  · refine hsound.keep hchanged (fun k hk c honChain => ?_) (fun c hc => Set.notMem_empty c)
      (.inl hzero)
    exact hreserved c (hsound.clusters k hk c honChain)

/-- The chain of an entry that was marked as deleted is released. -/
theorem FilesSound.release (hsound : FilesSound v heads dirs) (ha : v.IsSlot dirs a)
    (hrefers : v.RefersTo ref a) (howns : ref.dirent.Owns)
    (hlink : ref.dirent.firstCluster = 0 → clusterChainEnd ≤ v.link 0)
    (hclusters : v.FileClusters ref.dirent clusters) (env : FatEnv) :
    ∃ v', (∀ fuel, clusters.length + 2 ≤ fuel → runLoop (freeRound env) fuel
        (v.markDeleted env ref, ref.dirent.firstCluster) = some v') ∧
      Released v v' clusters ∧ ∃ heads dirs, FilesSound v' heads dirs := by
  obtain ⟨hwritten, hdead⟩ := hsound.markDeleted ha hrefers env
  have hmarked := hsound.markDeleted_sound ha hrefers env
  by_cases hzero : ref.dirent.firstCluster = 0
  · rw [FileClusters, if_pos hzero] at hclusters
    subst hclusters
    obtain ⟨v', hrun, hreleased, -, hsound'⟩ :=
      hmarked.release_empty (by rw [hwritten.link]; exact hlink hzero) env
    refine ⟨v', by rw [hzero]; exact hrun, fun c => ?_, heads, dirs, hsound'⟩
    rw [hreleased c, hwritten.isFree hsound.toSynced]
  · rw [FileClusters, if_neg hzero] at hclusters
    have hsame := hrefers.dirent
    have hhead : ref.dirent.firstCluster ∈ heads := by
      rw [hsame] at howns hzero ⊢
      rcases howns with hfile | hsub
      · exact ((hsound.file a ha hfile).resolve_left hzero).1
      · exact hsound.dirs_heads (hsound.sub a ha hsub)
    have honChain : ∀ c ∈ clusters, OnChain v.follow ref.dirent.firstCluster c :=
      fun c hc => ⟨clusters, hclusters, hc⟩
    -- no other entry leads to the chain
    have hdrop := hmarked.drop (h := ref.dirent.firstCluster) ?_ ?_
    · have hmembers : ∀ c ∈ clusters, (v.markDeleted env ref).IsCluster c := fun c hc =>
        hwritten.geometry.isCluster.mpr (hsound.clusters _ hhead c (honChain c hc))
      obtain ⟨v', hrun, hchanged, hlinks⟩ := hmarked.toSynced.freeLoop hmembers
        (hwritten.follow ▸ hclusters) env
      refine ⟨v', fun fuel hfuel => hrun fuel (by omega), fun c => ?_, _, _,
        hdrop.keep hchanged (fun k hk c hc hmem => ?_) (fun c hc => Set.notMem_empty c)
          (hdrop.reserved_keep hchanged hmembers)⟩
      · by_cases hmem : c ∈ clusters
        · refine iff_of_true (hchanged.synced.isFree_iff.mpr ⟨?_, hlinks c hmem⟩) (.inr hmem)
          rw [hchanged.geometry.isCluster, hwritten.geometry.isCluster]
          exact hsound.clusters _ hhead c (honChain c hmem)
        · rw [or_iff_left hmem, hmarked.toSynced.isFree_of_changed hchanged hmem,
            hwritten.isFree hsound.toSynced]
      · rw [hwritten.follow] at hc
        exact hk.2 (hsound.chains.apart k hk.1 _ hhead c hc (honChain c hmem))
    · rw [hwritten.geometry.bpb, hsame]
      exact hsound.not_root a ha (hsame ▸ howns)
    · obtain ⟨hslot, hother⟩ := hsound.slot_other ha hwritten
      intro b hb hbowns
      rw [hslot] at hb
      by_cases hba : b = a
      · subst hba
        exact absurd hbowns.inUse hdead
      · rw [hother b hb hba] at hbowns ⊢
        rw [hsame]
        exact fun heq => hba (hsound.apart b a hb ha hbowns (hsame ▸ howns) heq
          (heq ▸ hsame ▸ hzero))

/-- A cluster linked behind another one, and marked as the last. -/
theorem Synced.linkFree (hv : v.Synced) (hp : v.IsCluster p) (hg : v.IsCluster g) (hne : p ≠ g)
    (hlinked : v.writeFat env p (g % 2 ^ 28) = some linked)
    (hended : linked.writeFat env g clusterChainEnd = some ended) :
    Changed v ended {p, g} ∅ ∧ ended.link p = g ∧ clusterChainEnd ≤ ended.link g := by
  have hsmall := hv.lt_clusterChainEnd hg
  obtain ⟨hchanged, hlink⟩ := hv.writeFat (hv.inTable hp) (hv.lt_clusterChainEnd hp) hlinked
  have hg' := hchanged.geometry.isCluster.mpr hg
  obtain ⟨hchanged', hlink'⟩ := hchanged.synced.writeFat (hchanged.synced.inTable hg')
    hsmall hended
  have hbits : g % 2 ^ 28 = g :=
    Nat.mod_eq_of_lt (Nat.lt_trans hsmall (by decide))
  refine ⟨(hchanged.trans hchanged').mono subset_rfl (Set.union_subset subset_rfl subset_rfl),
    ?_, by rw [hlink']; decide⟩
  rw [hchanged'.link p hne, hlink, hbits, hbits]

theorem FilesSound.ne_of_free (hsound : FilesSound v heads dirs) (hh : h ∈ heads)
    (honChain : OnChain v.follow h p) (hfree : v.IsFree g) : p ≠ g := by
  rintro rfl
  exact hsound.not_onChain_of_free hfree hh honChain

theorem Valid.freeOffset_slot (hv : v.Valid) (hi : i ≤ v.entryCount)
    (h : v.freeOffset buffer (32 * i) = some offset) :
    ∃ j < v.entryCount, offset = 32 * j := by
  have hsize := hv.bytesPerCluster_eq
  induction hn : v.entryCount - i generalizing i with
  | zero =>
      rw [freeOffset, if_neg (by omega)] at h
      cases h
  | succ n ih =>
      rw [freeOffset, if_pos (by omega)] at h
      dsimp only at h
      split at h
      · obtain rfl := Option.some.inj h
        exact ⟨i, by omega, rfl⟩
      · exact ih (i := i + 1) (by omega) h (by omega)

theorem FilesSound.writeSlot (hsound : FilesSound v heads dirs) (hc : v.DirOn dirs c)
    (hi : i < v.entryCount) (hname : dirent.name.length = 11) (junk : Buffer) :
    let v' := v.writeSectors (v.getFirstClusterSector c)
      ((v.readCluster c junk).copy (32 * i) dirent.toBytes) v.bpb.sectorsPerCluster
    SlotWritten v v' (v.slotPlace c i) ∧
      ∀ j < 32, v'.backing.byte (v.slotPlace c i + j) = dirent.toBytes.getD j 0 := by
  have hcluster := hsound.dirOn_isCluster hc
  have hfits := hsound.toLayout.toValid.slot_fits hi
  have hlength := FatDirent.length_toBytes hname
  have hbyte := hsound.toLayout.writeCluster_byte hcluster
    ((v.readCluster c junk).copy (32 * i) dirent.toBytes)
  have hchanged := hsound.toSynced.writeCluster hcluster
    ((v.readCluster c junk).copy (32 * i) dirent.toBytes)
  refine ⟨⟨hchanged.geometry, hchanged.synced, fun _ => rfl, fun j _ hj => ?_⟩, fun j hj => ?_⟩
  · rw [slotPlace, clusterPlace] at hj
    rw [hbyte]
    split
    next hin =>
      have hold : v.readCluster c junk (j - 512 * v.getFirstClusterSector c) =
          v.backing.byte j := by
        rw [hsound.readCluster_byte hcluster junk (by omega), clusterPlace,
          Nat.add_sub_cancel' hin.1]
      rw [Buffer.copy]
      split
      · rw [List.getD_eq_default _ _ (by omega), hold]
      · exact hold
    · rfl
  · rw [hbyte, slotPlace, clusterPlace, if_pos (by omega), Buffer.copy, if_pos (by omega),
      show 512 * v.getFirstClusterSector c + 32 * i + j - 512 * v.getFirstClusterSector c -
        32 * i = j by omega, List.getD_eq_getElem _ _ (by omega),
      List.getD_eq_getElem _ _ (by omega)]

/-- The entry of an empty file takes the place of another one. -/
theorem FilesSound.setEmpty (hsound : FilesSound v heads dirs) (ha : v.IsSlot dirs a)
    (hwritten : SlotWritten v v' a) (hname : dirent.name.length = 11)
    (hdir : dirent.isDirectory = false) (hempty : dirent.firstCluster = 0)
    (hbytes : ∀ j < 32, v'.backing.byte (a + j) = dirent.toBytes.getD j 0) :
    FilesSound v' heads dirs := by
  obtain ⟨hattributes, hhigh, hlow⟩ := FatDirent.ofBuffer_toBytes hname hbytes
  have hdir' : (v'.direntAt a).isDirectory = false := by
    rw [FatDirent.isDirectory, direntAt, hattributes]
    exact hdir
  refine hsound.setSlot ha hwritten (FatDirent.not_isSub hdir') fun _ => .inl ?_
  rw [FatDirent.firstCluster] at hempty
  rw [FatDirent.firstCluster, direntAt, hhigh, hlow]
  omega

theorem freeOffset_byte_of_clear (hzero : buffer offset = 0) :
    ¬ (FatDirent.ofBuffer buffer offset).Owns := fun howns => by
  refine howns.inUse.1 ?_
  rw [firstByte_ofBuffer, hzero]
  rfl

/-- A round of `fat_add_dirent` for the entry of an empty file. -/
theorem FilesSound.addRound (hsound : FilesSound v heads dirs) (hc : v.DirOn dirs cluster)
    (hname : dirent.name.length = 11) (hdir : dirent.isDirectory = false)
    (hempty : dirent.firstCluster = 0) {out : (FatData × Nat) ⊕ (Int × FatData)}
    (hround : AddRound env dirent v cluster out) :
    (∀ s, out = .inl s → FilesSound s.1 heads dirs ∧ s.1.DirOn dirs s.2) ∧
      ∀ r, out = .inr r → FilesSound r.2 heads dirs := by
  have hcluster := hsound.dirOn_isCluster hc
  have hin := hsound.toSynced.inTable hcluster
  cases hround with
  | slot offset hslot =>
      refine ⟨nofun, fun r hr => ?_⟩
      obtain rfl := Sum.inr.inj hr
      obtain ⟨i, hi, rfl⟩ := hsound.toLayout.toValid.freeOffset_slot (i := 0)
        (Nat.zero_le _) hslot
      obtain ⟨hwritten, hbytes⟩ := hsound.writeSlot hc hi hname (env.junk cluster)
      exact hsound.setEmpty ⟨cluster, i, hc, hi, rfl⟩ hwritten hname hdir hempty hbytes
  | next next hfull hnext hlink =>
      refine ⟨fun s hs => ?_, nofun⟩
      obtain rfl := Sum.inl.inj hs
      rw [hsound.toSynced.nextCluster_eq hin] at hnext
      obtain rfl := Option.some.inj hnext
      exact ⟨hsound, hc.step hlink⟩
  | noSpace next hfull hnext hlast hfree =>
      refine ⟨nofun, fun r hr => ?_⟩
      obtain rfl := Sum.inr.inj hr
      exact hsound
  | grow next linked ended hfull hnext hlast hfree hlinked hended =>
      refine ⟨fun s hs => ?_, nofun⟩
      obtain rfl := Sum.inl.inj hs
      rw [hsound.toSynced.nextCluster_eq hin] at hnext
      obtain rfl := Option.some.inj hnext
      obtain ⟨d, hd, honChain⟩ := hc
      have hh := hsound.dirs_heads hd
      have hisFree := hsound.toSynced.isFree_computeFreeCluster hfree
      have hfound := hsound.toSynced.computeFreeCluster
      have hg := hisFree.isCluster
      obtain ⟨hchanged, hp, hlastLink⟩ := hfound.synced.linkFree
        (hfound.geometry.isCluster.mpr hcluster) (hfound.geometry.isCluster.mpr hg)
        (hsound.ne_of_free hh honChain hisFree) hlinked hended
      have hended' := hfound.trans hchanged
      have hg' := hended'.geometry.isCluster.mpr hg
      have hclear := hchanged.synced.writeCluster hg' fun _ => 0
      have hall : Changed v (ended.clearCluster v.computeFreeCluster.1)
          {cluster, v.computeFreeCluster.1} {v.computeFreeCluster.1} :=
        (hended'.trans hclear).mono (by simp) (by simp)
      have hfollow : v.follow cluster = none := follow_eq_none hlast
      refine ⟨hsound.extend hh honChain hfollow hisFree hall hp hlastLink fun _ i hi => ?_,
        d, hd, (hsound.onChain_extend hh honChain hfollow hisFree hall hp hlastLink hh).mpr
          (.inr ⟨rfl, rfl⟩)⟩
      have hfits := hsound.toLayout.toValid.slot_fits hi
      refine freeOffset_byte_of_clear ?_
      rw [slotPlace, clusterPlace, ← hended'.geometry.getFirstClusterSector, clearCluster,
        hchanged.synced.toLayout.writeCluster_byte hg', if_pos]
      rw [hended'.geometry.bpb]
      omega

theorem FilesSound.addDirent (hsound : FilesSound v heads dirs) {path : List Char}
    (hname : dirent.name.length = 11) (hdir : dirent.isDirectory = false)
    (hempty : dirent.firstCluster = 0) (hcall : v.addDirent env path dirent = some (res, v')) :
    FilesSound v' heads dirs := by
  rw [FatData.addDirent] at hcall
  split at hcall
  · exact (Prod.mk.inj (Option.some.inj hcall)).2 ▸ hsound
  · obtain ⟨npath, -, hcall⟩ := Option.bind_eq_some_iff.mp hcall
    obtain ⟨found, hfound, hcall⟩ := Option.bind_eq_some_iff.mp hcall
    cases found with
    | none => exact (Prod.mk.inj (Option.some.inj hcall)).2 ▸ hsound
    | some parent =>
        dsimp only at hcall
        split at hcall
        · exact (Prod.mk.inj (Option.some.inj hcall)).2 ▸ hsound
        next hparent =>
          have hc := hsound.dirOn_of_named (hsound.getDirentRef_named hfound)
            (Bool.eq_true_of_not_eq_false hparent)
          exact Loop.run_invariant
            (fun s : FatData × Nat => FilesSound s.1 heads dirs ∧ s.1.DirOn dirs s.2)
            (fun r : Int × FatData => FilesSound r.2 heads dirs)
            (fun s s' hs hround => (hs.1.addRound hs.2 hname hdir hempty
              (addRound_of_eq hround)).1 s' rfl)
            (fun s r hs hround => (hs.1.addRound hs.2 hname hdir hempty
              (addRound_of_eq hround)).2 r rfl) ⟨hsound, hc⟩ hcall

/-- `fat_create_file` keeps the files sound. -/
theorem FilesSound.createFile (hsound : FilesSound v heads dirs) {path : List Char}
    (hcall : v.createFile env path = some (res, v')) : FilesSound v' heads dirs := by
  obtain ⟨npath, -, hcall⟩ := Option.bind_eq_some_iff.mp hcall
  split at hcall
  · exact (Prod.mk.inj (Option.some.inj hcall)).2 ▸ hsound
  · obtain ⟨found, -, hcall⟩ := Option.bind_eq_some_iff.mp hcall
    cases found with
    | ok handle => exact (Prod.mk.inj (Option.some.inj hcall)).2 ▸ hsound
    | error err =>
        obtain ⟨⟨dirname, filename⟩, -, hcall⟩ := Option.bind_eq_some_iff.mp hcall
        have hfile : (0 : UInt8) &&& direntDirectory = 0 := by decide
        exact hsound.addDirent (length_readableTo8d3 _) (decide_eq_false (not_not.mpr hfile)) rfl
          hcall

end FatData

end GlitchedOS
