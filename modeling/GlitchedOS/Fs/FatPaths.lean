/-
Paths on a volume whose files are sound.  The directories have chains that end, so each
walk along a path comes to an end; and what it finds is the root, or an entry of a
directory that owns a chain.
-/
import GlitchedOS.Fs.FatFiles

namespace GlitchedOS

theorem padSpaces_headD {n : Nat} {s : List Char} (hn : n ≠ 0) (hs : s.head? ≠ some '.')
    (more : List Char) : (padSpaces n s ++ more).headD direntEnd ≠ '.' := by
  obtain ⟨n, rfl⟩ := Nat.exists_eq_succ_of_ne_zero hn
  cases s with
  | nil => exact (by decide : ' ' ≠ '.')
  | cons c rest => exact fun heq => hs (congrArg some heq)

theorem componentName_headD (name : List Char) :
    (componentName name).headD direntEnd ≠ '.' := by
  refine padSpaces_headD (by decide) (fun hdot => ?_) _
  have hmem := List.mem_of_mem_head? hdot
  have hnot := List.mem_takeWhile_imp hmem
  exact absurd hnot (by decide)

/-- An entry that has the name of a component is one of a file or of a directory below. -/
theorem FatDirent.owns_of_componentName {d : FatDirent} {name : List Char} (huse : d.InUse)
    (hname : d.name = componentName name) : d.Owns := by
  cases hdir : d.isDirectory with
  | false => exact .inl ⟨huse, hdir⟩
  | true =>
      refine .inr ⟨huse, hdir, ?_⟩
      rw [FatDirent.firstByte, hname]
      exact componentName_headD name

namespace FatData

/-- A reference to the entry at a place. -/
structure RefersTo (v : FatData) (ref : DirentRef) (place : Nat) : Prop where
  dirent : ref.dirent = v.direntAt place
  cluster : ref.cluster = ref.dirent.firstCluster
  place : 512 * ref.sector + ref.offset = place
  offset : ref.offset + 32 ≤ 512

/-- A search is inside a directory, with a cluster of it in its buffer. -/
def SearchAt (v : FatData) (dirs : Set Nat) (at_ : Cursor) : Prop :=
  v.DirOn dirs at_.cluster ∧ (∃ i ≤ v.entryCount, at_.offset = 32 * i) ∧
    ∀ j < 512 * v.bpb.sectorsPerCluster,
      at_.buffer j = v.backing.byte (v.clusterPlace at_.cluster + j)

/-- The reference is the root, or refers to an entry that owns a chain. -/
def Named (v : FatData) (dirs : Set Nat) (ref : DirentRef) : Prop :=
  ref = v.rootRef ∨ ∃ a, v.IsSlot dirs a ∧ v.RefersTo ref a ∧ ref.dirent.Owns

variable {v : FatData} {heads dirs : Set Nat} {component path : List Char}
  {junk : Nat → Buffer} {buffer : Buffer} {at_ at' : Cursor} {ref found : DirentRef}
  {c i fuel : Nat} {l : List Nat}

theorem DirOn.step (hc : v.DirOn dirs c) (hlink : v.link c < clusterChainEnd) :
    v.DirOn dirs (v.link c) := by
  obtain ⟨d, hd, honChain⟩ := hc
  exact ⟨d, hd, honChain.step (follow_eq_some hlink)⟩

/-- Behind a cluster the search is at the next one of the chain. -/
theorem onChain_refill (honChain : OnChain v.follow c at_.cluster)
    (hrefill : v.refill at_ = some (some at')) : OnChain v.follow c at'.cluster := by
  rw [refill] at hrefill
  split at hrefill
  · obtain ⟨next, hnext, hrefill⟩ := Option.bind_eq_some_iff.mp hrefill
    split at hrefill
    · cases hrefill
    next hlink =>
      obtain rfl := Option.some.inj (Option.some.inj hrefill)
      have heq : v.link at_.cluster = next := by rw [link, hnext, Option.getD_some]
      refine honChain.step (heq ▸ follow_eq_some ?_)
      rw [heq]
      exact Nat.lt_of_not_le hlink
  · obtain rfl := Option.some.inj (Option.some.inj hrefill)
    exact honChain

namespace FilesSound

theorem readCluster_byte (hsound : FilesSound v heads dirs) (hc : v.IsCluster c)
    (buffer : Buffer) {j : Nat} (hj : j < 512 * v.bpb.sectorsPerCluster) :
    v.readCluster c buffer j = v.backing.byte (v.clusterPlace c + j) :=
  readCluster_apply buffer (hsound.toLayout.cluster_sectors hc).2 hj

theorem searchAt_openCluster (hsound : FilesSound v heads dirs) (hc : v.DirOn dirs c)
    (buffer : Buffer) : v.SearchAt dirs (v.openCluster buffer c) :=
  ⟨hc, ⟨0, Nat.zero_le _, rfl⟩, fun _ hj =>
    hsound.readCluster_byte (hsound.dirOn_isCluster hc) buffer hj⟩

theorem searchAt_refill (hsound : FilesSound v heads dirs) (hat : v.SearchAt dirs at_)
    (hrefill : v.refill at_ = some (some at')) :
    v.SearchAt dirs at' ∧ at'.offset < v.bytesPerCluster := by
  rw [refill] at hrefill
  split at hrefill
  · obtain ⟨next, hnext, hrefill⟩ := Option.bind_eq_some_iff.mp hrefill
    have hcluster := hsound.dirOn_isCluster hat.1
    rw [hsound.toSynced.nextCluster_eq (hsound.toSynced.inTable hcluster)] at hnext
    obtain rfl := Option.some.inj hnext
    split at hrefill
    · cases hrefill
    next hlink =>
      obtain rfl := Option.some.inj (Option.some.inj hrefill)
      have hdir := hat.1.step (Nat.lt_of_not_le hlink)
      exact ⟨hsound.searchAt_openCluster hdir at_.buffer, hsound.toLayout.bytesPerCluster_pos⟩
  next hoffset =>
    obtain rfl := Option.some.inj (Option.some.inj hrefill)
    exact ⟨hat, Nat.lt_of_not_le hoffset⟩

theorem slot_lt (hsound : FilesSound v heads dirs) (hc : v.DirOn dirs c) (hi : i < v.entryCount) :
    v.getFirstClusterSector c + 32 * i / 512 < 2 ^ 32 := by
  have hfits := hsound.toLayout.toValid.slot_fits hi
  have hcluster := hsound.dirOn_isCluster hc
  have hsectors := hsound.toLayout.sectors
  have hlast : (c - 2 + 1) * v.bpb.sectorsPerCluster ≤
      v.totalClusters * v.bpb.sectorsPerCluster :=
    Nat.mul_le_mul_right _ (by have hlo := hcluster.1; have hhi := hcluster.2; omega)
  rw [Nat.succ_mul] at hlast
  rw [hsound.toLayout.getFirstClusterSector_eq hcluster]
  omega

theorem refersTo_refAt (hsound : FilesSound v heads dirs) (hat : v.SearchAt dirs at_)
    (hoffset : at_.offset < v.bytesPerCluster) :
    ∃ i < v.entryCount, v.RefersTo (v.refAt at_) (v.slotPlace at_.cluster i) := by
  obtain ⟨hdir, ⟨i, hi, hplace⟩, hbuffer⟩ := hat
  have hvalid := hsound.toLayout.toValid
  have hsize := hvalid.bytesPerCluster_eq
  have hi : i < v.entryCount := by omega
  have hfits := hvalid.slot_fits hi
  have hlt := hsound.slot_lt hdir hi
  have hsector : (v.getFirstClusterSector at_.cluster + at_.offset / 512) % 2 ^ 32 =
      v.getFirstClusterSector at_.cluster + at_.offset / 512 :=
    Nat.mod_eq_of_lt (by rw [hplace]; exact hlt)
  refine ⟨i, hi, ?_, rfl, ?_, ?_⟩
  · refine FatDirent.ofBuffer_congr fun j hj => ?_
    rw [hplace, hbuffer _ (by omega), slotPlace, Nat.add_assoc]
  · rw [refAt, hsector, slotPlace, clusterPlace]
    dsimp only
    omega
  · rw [refAt, hplace]
    dsimp only
    omega

/-- What a search of a directory finds is an entry of one of its clusters. -/
theorem search_onChain (hsound : FilesSound v heads dirs) (hc : v.DirOn dirs c)
    (hsearch : v.search fuel component (v.openCluster buffer c) = some (some found)) :
    ∃ d i, OnChain v.follow c d ∧ i < v.entryCount ∧ v.RefersTo found (v.slotPlace d i) ∧
      found.dirent.InUse ∧ found.dirent.name = component := by
  have hstart : OnChain v.follow c c := by
    obtain ⟨d, hd, honChain⟩ := hc
    obtain ⟨before, after, -, hrest⟩ := honChain.rest
    exact ⟨_, hrest, List.mem_cons_self⟩
  refine Loop.run_invariant (fun at_ => v.SearchAt dirs at_ ∧ OnChain v.follow c at_.cluster)
    (fun res => ∀ found, res = some found → ∃ d i, OnChain v.follow c d ∧ i < v.entryCount ∧
      v.RefersTo found (v.slotPlace d i) ∧ found.dirent.InUse ∧ found.dirent.name = component)
    ?_ ?_ ⟨hsound.searchAt_openCluster hc buffer, hstart⟩ hsearch found rfl
  · rintro at_ next ⟨hat, honChain⟩ hround
    obtain ⟨refilled, hrefill, hround⟩ := Option.bind_eq_some_iff.mp hround
    cases refilled with
    | none => cases hround
    | some at' =>
        have hon' := onChain_refill honChain hrefill
        obtain ⟨⟨hdir, ⟨i, hi, hplace⟩, hbuffer⟩, hoffset⟩ := hsound.searchAt_refill hat hrefill
        have hsize := hsound.toLayout.toValid.bytesPerCluster_eq
        have hnext : v.SearchAt dirs { at' with offset := at'.offset + 32 } :=
          ⟨hdir, ⟨i + 1, by omega, by rw [hplace]; rfl⟩, hbuffer⟩
        dsimp only at hround
        split at hround
        · cases hround
        · split at hround
          · cases hround
            exact ⟨hnext, hon'⟩
          · split at hround
            · cases hround
            · cases hround
              exact ⟨hnext, hon'⟩
  · rintro at_ res ⟨hat, honChain⟩ hround found hres
    subst hres
    obtain ⟨refilled, hrefill, hround⟩ := Option.bind_eq_some_iff.mp hround
    cases refilled with
    | none => cases hround
    | some at' =>
        have hon' := onChain_refill honChain hrefill
        obtain ⟨hat', hoffset⟩ := hsound.searchAt_refill hat hrefill
        dsimp only at hround
        split at hround
        · cases hround
        next hend =>
          split at hround
          · cases hround
          next hskip =>
            split at hround
            next hname =>
              cases hround
              obtain ⟨i, hi, hrefers⟩ := hsound.refersTo_refAt hat' hoffset
              exact ⟨at'.cluster, i, hon', hi, hrefers, ⟨hend, Bool.eq_false_iff.mpr hskip⟩, hname⟩
            · cases hround

/-- What a search of a directory finds is one of its entries. -/
theorem search_finds (hsound : FilesSound v heads dirs) (hc : v.DirOn dirs c)
    (hsearch : v.search fuel component (v.openCluster buffer c) = some (some found)) :
    ∃ a, v.IsSlot dirs a ∧ v.RefersTo found a ∧ found.dirent.InUse ∧
      found.dirent.name = component := by
  obtain ⟨d, i, honChain, hi, hrefers, huse, hname⟩ := hsound.search_onChain hc hsearch
  obtain ⟨h, hh, hstart⟩ := hc
  exact ⟨_, ⟨d, i, ⟨h, hh, hstart.trans honChain⟩, hi, rfl⟩, hrefers, huse, hname⟩

theorem searchLeads_chain (hsound : FilesSound v heads dirs)
    (hclusters : ∀ d ∈ c :: l, v.IsCluster d)
    (hchain : Chain v.follow (some c) (c :: l)) (buffer : Buffer) :
    Leads (v.SearchStops component) (fun at_ => v.InTable at_.1) v.nextInBuffer
      (c, buffer) := by
  have hin : v.InTable c := by
    have hlt := hsound.toSynced.inTable (hclusters c List.mem_cons_self)
    rw [InTable]
    omega
  induction l generalizing c buffer with
  | nil =>
      have hlast : v.follow c = none := hchain.2
      exact .now (.inr ⟨hin, link_of_follow hlast⟩)
  | cons d rest ih =>
      have hnext : v.follow c = some d := hchain.2.1
      have hlink : v.link c = d := by
        rw [follow] at hnext
        split at hnext
        · exact Option.some.inj hnext
        · cases hnext
      refine .later hin ?_
      have hd := hclusters d (List.mem_cons_of_mem c List.mem_cons_self)
      have hin' : v.InTable d := by
        have hlt := hsound.toSynced.inTable hd
        rw [InTable]
        omega
      rw [nextInBuffer, hlink]
      exact ih (fun e he => hclusters e (List.mem_cons_of_mem c he)) ⟨rfl, hchain.2.2⟩ _ hin'

theorem searchLeads (hsound : FilesSound v heads dirs) (hc : v.DirOn dirs c)
    (component : List Char) (junk : Nat → Buffer) : v.SearchLeads component junk c := by
  obtain ⟨d, hd, honChain⟩ := hc
  obtain ⟨before, after, hchain, hrest⟩ := honChain.rest
  refine hsound.searchLeads_chain (fun e he => ?_) hrest _
  exact hsound.clusters d (hsound.dirs_heads hd) e
    ⟨_, hchain, List.mem_append_right before he⟩

/-- A directory that is named starts a chain of a directory. -/
theorem mem_dirs_of_named (hsound : FilesSound v heads dirs) (hnamed : v.Named dirs ref)
    (hdir : ref.dirent.isDirectory = true) : ref.cluster ∈ dirs := by
  rcases hnamed with rfl | ⟨a, ha, hrefers, howns⟩
  · exact hsound.root
  · have hsub : ref.dirent.IsSub := howns.resolve_left fun hfile => by
      rw [hfile.2] at hdir
      cases hdir
    rw [hrefers.dirent] at hsub
    rw [hrefers.cluster, hrefers.dirent]
    exact hsound.sub a ha hsub

theorem dirOn_of_named (hsound : FilesSound v heads dirs) (hnamed : v.Named dirs ref)
    (hdir : ref.dirent.isDirectory = true) : v.DirOn dirs ref.cluster := by
  have hd := hsound.mem_dirs_of_named hnamed hdir
  exact ⟨_, hd, hsound.chains.onChain_head (hsound.dirs_heads hd)⟩

theorem named_of_search (hsound : FilesSound v heads dirs) (hc : v.DirOn dirs c)
    {name : List Char} (hsearch : v.search fuel (componentName name)
      (v.openCluster buffer c) = some (some found)) : v.Named dirs found := by
  obtain ⟨a, ha, hrefers, huse, hname⟩ := hsound.search_finds hc hsearch
  exact .inr ⟨a, ha, hrefers, FatDirent.owns_of_componentName huse hname⟩

theorem walkPath_named (hsound : FilesSound v heads dirs) (hnamed : v.Named dirs ref)
    (hwalk : v.walkPath fuel junk path ref = some (some found)) : v.Named dirs found := by
  induction hn : path.length using Nat.strongRecOn generalizing path ref with
  | _ n ih =>
      cases path with
      | nil =>
          rw [walkPath] at hwalk
          obtain rfl := Option.some.inj (Option.some.inj hwalk)
          exact hnamed
      | cons first rest =>
          cases hdir : ref.dirent.isDirectory with
          | false =>
              rw [walkPath, if_pos hdir] at hwalk
              cases hwalk
          | true =>
              have hc := hsound.dirOn_of_named hnamed hdir
              rw [walkPath_cons hdir] at hwalk
              split at hwalk
              · cases hwalk
              · cases hwalk
              next found' hsearch =>
                exact ih _ (hn ▸ restOfPath_lt first rest) (hsound.named_of_search hc hsearch)
                  hwalk rfl

theorem getDirentRef_named (hsound : FilesSound v heads dirs)
    (hfound : v.getDirentRef fuel junk path = some (some found)) : v.Named dirs found := by
  obtain ⟨npath, -, hwalk⟩ := Option.bind_eq_some_iff.mp hfound
  exact hsound.walkPath_named (.inl rfl) hwalk

theorem pathLeads (hsound : FilesSound v heads dirs) (hnamed : v.Named dirs ref) :
    v.PathLeads junk path ref := by
  induction hn : path.length using Nat.strongRecOn generalizing path ref with
  | _ n ih =>
      cases path with
      | nil =>
          rw [PathLeads]
          trivial
      | cons first rest =>
          rw [PathLeads]
          intro hdir
          have hc := hsound.dirOn_of_named hnamed hdir
          refine ⟨hsound.searchLeads hc _ junk, ?_⟩
          rintro found ⟨fuel, hfinds⟩
          exact ih _ (hn ▸ restOfPath_lt first rest) (hsound.named_of_search hc hfinds) rfl

end FilesSound

end FatData

end GlitchedOS
