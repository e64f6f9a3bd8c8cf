/-
The searches and listings of directories on a FAT volume with any contents.  They
follow links of the table with a test for the end of a chain only, so they come to an
end, and stay inside the table, exactly when the links lead to a stop.
-/
import GlitchedOS.Fs.Fat
import Mathlib.Data.Nat.Find

namespace GlitchedOS

namespace FatData

/-- The geometry that the driver is written for, and the table as it was loaded. -/
structure Valid (v : FatData) : Prop where
  bytesPerSector : v.bpb.bytesPerSector = 512
  sectorsPerCluster : 0 < v.bpb.sectorsPerCluster
  fat_length : v.fat.length = v.fatSize * 512 / 4

def entryCount (v : FatData) : Nat := v.bytesPerCluster / 32

def entries (v : FatData) (buffer : Buffer) : List FatDirent :=
  (List.range v.entryCount).map fun i => FatDirent.ofBuffer buffer (32 * i)

/-- The link of a cluster, for clusters in the table. -/
def link (v : FatData) (cluster : Nat) : Nat := (v.nextCluster cluster).getD 0

/-- The table has an entry for the cluster. -/
def InTable (v : FatData) (cluster : Nat) : Prop := cluster < v.fatSize * 512 / 4

/-- An entry at which a search comes to its end. -/
def Decides (component : List Char) (d : FatDirent) : Prop :=
  d.firstByte = direntEnd ∨ d.isSkipped = false ∧ d.name = component

/-- A search ends in a cluster: at one of its entries, or with its chain. -/
def SearchStops (v : FatData) (component : List Char) (at_ : Nat × Buffer) : Prop :=
  (∃ d ∈ v.entries at_.2, Decides component d) ∨
    v.InTable at_.1 ∧ clusterChainEnd ≤ v.link at_.1

/-- The next cluster, in the buffer that holds the last one. -/
def nextInBuffer (v : FatData) (at_ : Nat × Buffer) : Nat × Buffer :=
  (v.link at_.1, v.readCluster (v.link at_.1) at_.2)

def clusterStart (at_ : Nat × Buffer) : Cursor := ⟨at_.1, at_.2, 0⟩

/-- The links from a directory lead to the end of a search, inside the table. -/
def SearchLeads (v : FatData) (component : List Char) (junk : Nat → Buffer) (cluster : Nat) :
    Prop :=
  Leads (v.SearchStops component) (fun at_ => v.InTable at_.1) v.nextInBuffer
    (cluster, v.readCluster cluster (junk cluster))

def Finds (v : FatData) (component : List Char) (junk : Nat → Buffer) (cluster : Nat)
    (found : DirentRef) : Prop :=
  Loop.Ends (v.searchRound component) (v.openCluster (junk cluster) cluster) (some found)

/-- Each directory on a path has links that lead to the end of its search. -/
def PathLeads (v : FatData) (junk : Nat → Buffer) (path : List Char) (ref : DirentRef) : Prop :=
  match path with
  | [] => True
  | c :: more =>
    let component := componentName (nextComponent (c :: more))
    ref.dirent.isDirectory = true →
      v.SearchLeads component junk ref.cluster ∧
        ∀ found, v.Finds component junk ref.cluster found →
          PathLeads v junk (restOfPath (c :: more)) found
termination_by path.length
decreasing_by exact restOfPath_lt c more

/-- An entry that `fat_readdir` counts. -/
def isVisible (d : FatDirent) : Bool := !(d.isSkipped || isDotName d.name)

/-- The entries up to the end of a directory that `fat_readdir` counts. -/
def listed (ds : List FatDirent) : List FatDirent :=
  (ds.takeWhile fun d => decide (d.firstByte ≠ direntEnd)).filter isVisible

/-- The entries that a cluster adds to a listing. -/
def clusterListing (v : FatData) (junk : Nat → Buffer) (cluster : Nat) : List FatDirent :=
  listed (v.entries (v.readCluster cluster (junk cluster)))

/-- A listing ends behind its chain, or in the cluster that holds the index. -/
def ListingStops (v : FatData) (junk : Nat → Buffer) (index : Nat) (at_ : Nat × Nat) : Prop :=
  clusterChainEnd ≤ at_.1 ∨
    at_.2 ≤ index ∧ index < at_.2 + (v.clusterListing junk at_.1).length

/-- The next cluster of a listing, and the index of its first entry. -/
def nextInListing (v : FatData) (junk : Nat → Buffer) (at_ : Nat × Nat) : Nat × Nat :=
  (v.link at_.1, at_.2 + (v.clusterListing junk at_.1).length)

/-- The links from a directory lead to the end of a listing, inside the table. -/
def ListingLeads (v : FatData) (junk : Nat → Buffer) (index cluster : Nat) : Prop :=
  Leads (v.ListingStops junk index) (fun at_ => v.InTable at_.1) (v.nextInListing junk)
    (cluster, 0)

variable {v : FatData} {component path : List Char} {junk : Nat → Buffer} {buffer : Buffer}
  {ref found : DirentRef} {cluster offset index i k fuel more : Nat}

/-! ### Links and entries -/

theorem Valid.nextCluster_eq (hv : v.Valid) (h : v.InTable cluster) :
    v.nextCluster cluster = some (v.link cluster) := by
  unfold InTable at h
  rw [← hv.fat_length] at h
  simp [link, nextCluster, readFat, List.getElem?_eq_getElem h]

theorem Valid.nextCluster_none (hv : v.Valid) (h : ¬ v.InTable cluster) :
    v.nextCluster cluster = none := by
  unfold InTable at h
  rw [← hv.fat_length] at h
  simp [nextCluster, readFat, List.getElem?_eq_none (Nat.le_of_not_lt h)]

theorem Valid.bytesPerCluster_eq (hv : v.Valid) : v.bytesPerCluster = 32 * v.entryCount := by
  unfold entryCount bytesPerCluster
  rw [hv.bytesPerSector]
  omega

theorem Valid.entryCount_pos (hv : v.Valid) : 0 < v.entryCount := by
  have hsectors := hv.sectorsPerCluster
  unfold entryCount bytesPerCluster
  rw [hv.bytesPerSector]
  omega

theorem mem_entries {d : FatDirent} :
    d ∈ v.entries buffer ↔ ∃ i < v.entryCount, FatDirent.ofBuffer buffer (32 * i) = d := by
  simp [entries]

theorem readCluster_apply {j : Nat} (buffer : Buffer)
    (hfits : v.getFirstClusterSector cluster + v.bpb.sectorsPerCluster ≤ v.backing.sectors)
    (hj : j < 512 * v.bpb.sectorsPerCluster) :
    v.readCluster cluster buffer j =
      v.backing.byte (512 * v.getFirstClusterSector cluster + j) := by
  unfold readCluster Disk.readSectors
  rw [if_pos hfits]
  exact if_pos hj

/-! ### Searches -/

theorem Valid.refill_entry (hv : v.Valid) (cluster : Nat) (buffer : Buffer)
    (hi : i < v.entryCount) :
    v.refill ⟨cluster, buffer, 32 * i⟩ = some (some ⟨cluster, buffer, 32 * i⟩) := by
  have hsize := hv.bytesPerCluster_eq
  rw [refill, if_neg (by dsimp only; omega)]

theorem Valid.searchRound_entry (hv : v.Valid) (cluster : Nat) (hi : i < v.entryCount)
    (hdecides : Decides component (.ofBuffer buffer (32 * i))) :
    v.searchRound component ⟨cluster, buffer, 32 * i⟩ = some (.inr
      (if (FatDirent.ofBuffer buffer (32 * i)).firstByte = direntEnd then none
        else some (v.refAt ⟨cluster, buffer, 32 * i⟩))) := by
  simp only [searchRound, hv.refill_entry cluster buffer hi, Option.bind_eq_bind, Option.bind_some]
  split
  · rfl
  · rename_i hend
    obtain ⟨hskip, hname⟩ := hdecides.resolve_left hend
    rw [if_neg (by rw [hskip]; exact Bool.false_ne_true), if_pos hname]

theorem Valid.search_goes_entry (hv : v.Valid) (hi : i < v.entryCount)
    (h : ¬ Decides component (.ofBuffer buffer (32 * i))) :
    Loop.Goes (v.searchRound component) ⟨cluster, buffer, 32 * i⟩
      ⟨cluster, buffer, 32 * (i + 1)⟩ := by
  unfold Decides at h
  rw [not_or] at h
  simp only [Loop.Goes, searchRound, hv.refill_entry cluster buffer hi, Option.bind_eq_bind,
    Option.bind_some, if_neg h.1]
  by_cases hskip : (FatDirent.ofBuffer buffer (32 * i)).isSkipped = true
  · rw [if_pos hskip]
    rfl
  · rw [if_neg hskip, if_neg fun hname => h.2 ⟨Bool.eq_false_iff.mpr hskip, hname⟩]
    rfl

/-- A search passes the entries of a cluster that do not decide it. -/
theorem Valid.search_passes (hv : v.Valid) (hi : i ≤ v.entryCount)
    (h : ∀ j < i, ¬ Decides component (.ofBuffer buffer (32 * j))) :
    Relation.ReflTransGen (Loop.Goes (v.searchRound component)) ⟨cluster, buffer, 0⟩
      ⟨cluster, buffer, 32 * i⟩ := by
  induction i with
  | zero => exact .refl
  | succ i ih =>
      refine (ih (Nat.le_of_succ_le hi) fun j hj => h j (Nat.lt_succ_of_lt hj)).tail ?_
      exact hv.search_goes_entry hi (h i (Nat.lt_succ_self i))

/-- A search comes to the first entry of a cluster that decides it. -/
theorem Valid.search_decided (hv : v.Valid) (h : ∃ d ∈ v.entries buffer, Decides component d) :
    ∃ i < v.entryCount, Decides component (.ofBuffer buffer (32 * i)) ∧
      (∀ k < i, ¬ Decides component (.ofBuffer buffer (32 * k))) ∧
      ∀ cluster res, v.searchRound component ⟨cluster, buffer, 32 * i⟩ = some (.inr res) →
        Loop.Ends (v.searchRound component) ⟨cluster, buffer, 0⟩ res := by
  have hex : ∃ i, i < v.entryCount ∧ Decides component (.ofBuffer buffer (32 * i)) := by
    obtain ⟨d, hd, hdecides⟩ := h
    obtain ⟨i, hi, rfl⟩ := mem_entries.mp hd
    exact ⟨i, hi, hdecides⟩
  classical
  obtain ⟨hi, hdecides⟩ := Nat.find_spec hex
  have hbefore : ∀ k < Nat.find hex, ¬ Decides component (.ofBuffer buffer (32 * k)) :=
    fun k hk hk' => Nat.find_min hex hk ⟨hk.trans hi, hk'⟩
  refine ⟨Nat.find hex, hi, hdecides, hbefore, fun cluster res hres => ?_⟩
  exact (Loop.Ends.now hres).of_reflTransGen (hv.search_passes hi.le hbefore)

/-- A search ends in a cluster with an entry that decides it. -/
theorem Valid.search_ends_cluster (hv : v.Valid)
    (h : ∃ d ∈ v.entries buffer, Decides component d) :
    ∃ res, Loop.Ends (v.searchRound component) ⟨cluster, buffer, 0⟩ res := by
  obtain ⟨i, hi, hdecides, -, hends⟩ := hv.search_decided h
  exact ⟨_, hends cluster _ (hv.searchRound_entry cluster hi hdecides)⟩

/-- Without such an entry it comes to the end of the cluster. -/
theorem Valid.search_passes_cluster (hv : v.Valid)
    (h : ¬ ∃ d ∈ v.entries buffer, Decides component d) :
    Relation.TransGen (Loop.Goes (v.searchRound component)) ⟨cluster, buffer, 0⟩
      ⟨cluster, buffer, v.bytesPerCluster⟩ := by
  have hnone : ∀ j < v.entryCount, ¬ Decides component (.ofBuffer buffer (32 * j)) :=
    fun j hj hdecides => h ⟨_, mem_entries.mpr ⟨j, hj, rfl⟩, hdecides⟩
  obtain ⟨n, hn⟩ := Nat.exists_eq_succ_of_ne_zero hv.entryCount_pos.ne'
  have hlast : n < v.entryCount := by omega
  rw [hv.bytesPerCluster_eq, hn]
  refine .tail' (hv.search_passes hlast.le fun j hj => hnone j (hj.trans hlast)) ?_
  exact hv.search_goes_entry hlast (hnone n hlast)

/-- Behind a cluster the first entry of the next one is looked at. -/
theorem Valid.searchRound_link (hv : v.Valid) (hin : v.InTable cluster)
    (hlink : v.link cluster < clusterChainEnd) :
    v.searchRound component ⟨cluster, buffer, v.bytesPerCluster⟩ =
      v.searchRound component
        ⟨v.link cluster, v.readCluster (v.link cluster) buffer, 0⟩ := by
  have hfirst := hv.refill_entry (v.link cluster) (v.readCluster (v.link cluster) buffer)
    hv.entryCount_pos
  have hrefill : v.refill ⟨cluster, buffer, v.bytesPerCluster⟩ =
      some (some ⟨v.link cluster, v.readCluster (v.link cluster) buffer, 0⟩) := by
    rw [refill, if_pos (Nat.le_refl _), hv.nextCluster_eq hin]
    simp [Nat.not_le.mpr hlink]
  rw [searchRound, searchRound, hrefill, hfirst]

theorem Valid.searchRound_last (hv : v.Valid) (component : List Char) (buffer : Buffer)
    (hin : v.InTable cluster)
    (hlink : clusterChainEnd ≤ v.link cluster) :
    v.searchRound component ⟨cluster, buffer, v.bytesPerCluster⟩ = some (.inr none) := by
  rw [searchRound, refill, if_pos (Nat.le_refl _), hv.nextCluster_eq hin]
  simp [hlink]

theorem Valid.searchRound_outside (hv : v.Valid) (hin : ¬ v.InTable cluster) :
    v.searchRound component ⟨cluster, buffer, v.bytesPerCluster⟩ = none := by
  rw [searchRound, refill, if_pos (Nat.le_refl _), hv.nextCluster_none hin]
  rfl

/-- The search of a directory ends exactly when its links lead to an end. -/
theorem Valid.search_ends_iff (hv : v.Valid) :
    (∃ res, Loop.Ends (v.searchRound component) (v.openCluster (junk cluster) cluster) res) ↔
      v.SearchLeads component junk cluster := by
  change (∃ res, Loop.Ends _ (clusterStart (cluster, v.readCluster cluster (junk cluster))) res) ↔
    Leads _ _ _ _
  apply Leads.exists_ends_iff
  · rintro ⟨cluster, buffer⟩ hstops
    by_cases hdecides : ∃ d ∈ v.entries buffer, Decides component d
    · exact hv.search_ends_cluster hdecides
    · obtain hentry | ⟨hin, hlink⟩ := hstops
      · exact absurd hentry hdecides
      · have hlast := hv.searchRound_last component buffer hin hlink
        exact ⟨none, (Loop.Ends.now hlast).of_transGen (hv.search_passes_cluster hdecides)⟩
  · rintro ⟨cluster, buffer⟩ hstops hin res
    unfold SearchStops at hstops
    rw [not_or] at hstops
    exact Loop.not_ends_of_reflTransGen_fault (hv.search_passes_cluster hstops.1).to_reflTransGen
      (hv.searchRound_outside hin)
  · rintro ⟨cluster, buffer⟩ hstops hin
    unfold SearchStops at hstops
    rw [not_or] at hstops
    have hlink : v.link cluster < clusterChainEnd :=
      Nat.lt_of_not_le fun hlink => hstops.2 ⟨hin, hlink⟩
    exact ⟨_, hv.search_passes_cluster hstops.1, hv.searchRound_link hin hlink⟩

/-! ### Walks along a path -/

theorem search_mono {res : Option DirentRef} {at_ : Cursor}
    (h : v.search fuel component at_ = some res) (hle : fuel ≤ more) :
    v.search more component at_ = some res :=
  Loop.run_mono h hle

/-- One component of a walk. -/
theorem walkPath_cons {c : Char} {chars : List Char} (hdir : ref.dirent.isDirectory = true) :
    v.walkPath fuel junk (c :: chars) ref =
      match v.search fuel (componentName (nextComponent (c :: chars)))
        (v.openCluster (junk ref.cluster) ref.cluster) with
      | none => none
      | some none => some none
      | some (some found) => v.walkPath fuel junk (restOfPath (c :: chars)) found := by
  rw [walkPath]
  exact if_neg (by rw [hdir]; exact Bool.noConfusion)

theorem walkPath_mono {res : Option DirentRef} (h : v.walkPath fuel junk path ref = some res)
    (hle : fuel ≤ more) : v.walkPath more junk path ref = some res := by
  induction hn : path.length using Nat.strongRecOn generalizing path ref with
  | _ n ih =>
      cases path with
      | nil => rw [walkPath] at h ⊢; exact h
      | cons c chars =>
          cases hdir : ref.dirent.isDirectory with
          | false =>
              rw [walkPath, if_pos hdir] at h ⊢
              exact h
          | true =>
              rw [walkPath_cons hdir] at h ⊢
              cases hsearch : v.search fuel (componentName (nextComponent (c :: chars)))
                  (v.openCluster (junk ref.cluster) ref.cluster) with
              | none => rw [hsearch] at h; cases h
              | some found =>
                  rw [hsearch] at h
                  rw [search_mono hsearch hle]
                  cases found with
                  | none => exact h
                  | some found => exact ih _ (hn ▸ restOfPath_lt c chars) h rfl

/-- A walk ends exactly when each directory on the path can be searched. -/
theorem Valid.walkPath_ends_iff (hv : v.Valid) :
    (∃ fuel res, v.walkPath fuel junk path ref = some res) ↔ v.PathLeads junk path ref := by
  induction hn : path.length using Nat.strongRecOn generalizing path ref with
  | _ n ih =>
      cases path with
      | nil =>
          rw [PathLeads]
          exact ⟨fun _ => trivial, fun _ => ⟨0, some ref, by rw [walkPath]⟩⟩
      | cons c chars =>
          have hrest : ∀ found, (∃ fuel res,
              v.walkPath fuel junk (restOfPath (c :: chars)) found = some res) ↔
                v.PathLeads junk (restOfPath (c :: chars)) found :=
            fun found => ih _ (hn ▸ restOfPath_lt c chars) rfl
          rw [PathLeads]
          cases hdir : ref.dirent.isDirectory with
          | false =>
              refine ⟨fun _ h => absurd h Bool.false_ne_true, fun _ => ⟨0, none, ?_⟩⟩
              rw [walkPath, if_pos hdir]
          | true =>
              simp only [walkPath_cons hdir, true_implies]
              constructor
              · rintro ⟨fuel, res, h⟩
                cases hsearch : v.search fuel (componentName (nextComponent (c :: chars)))
                    (v.openCluster (junk ref.cluster) ref.cluster) with
                | none => rw [hsearch] at h; cases h
                | some first =>
                    refine ⟨hv.search_ends_iff.mp ⟨first, fuel, hsearch⟩, fun found hfound => ?_⟩
                    obtain rfl := Loop.Ends.unique ⟨fuel, hsearch⟩ hfound
                    rw [hsearch] at h
                    exact (hrest found).mp ⟨fuel, res, h⟩
              · rintro ⟨hleads, hfinds⟩
                obtain ⟨first, fuel, hsearch⟩ := hv.search_ends_iff.mpr hleads
                have hsearch : v.search fuel _ _ = some first := hsearch
                cases first with
                | none => exact ⟨fuel, none, by rw [hsearch]⟩
                | some found =>
                    obtain ⟨fuel', res, hwalk⟩ := (hrest found).mpr (hfinds found ⟨fuel, hsearch⟩)
                    refine ⟨max fuel fuel', res, ?_⟩
                    rw [search_mono hsearch (Nat.le_max_left fuel fuel')]
                    exact walkPath_mono hwalk (Nat.le_max_right fuel fuel')

/-! ### Listings -/

/-- The inner loop of `fat_readdir` over a list of entries. -/
def listFrom (index : Nat) : List FatDirent → Nat → FatDirent ⊕ Nat
  | [], currentIndex => .inr currentIndex
  | d :: rest, currentIndex =>
    if d.firstByte = direntEnd then .inr currentIndex
    else if isVisible d = false then listFrom index rest currentIndex
    else if currentIndex = index then .inl d
    else listFrom index rest (currentIndex + 1)

theorem Valid.readdirCluster_eq (hv : v.Valid) (buffer : Buffer) (index k : Nat)
    (hi : i ≤ v.entryCount) :
    v.readdirCluster buffer index (32 * i) k = listFrom index ((v.entries buffer).drop i) k := by
  have hsize := hv.bytesPerCluster_eq
  have hlength : (v.entries buffer).length = v.entryCount := by simp [entries]
  induction hn : v.entryCount - i generalizing i k with
  | zero =>
      rw [readdirCluster, if_neg (by omega), List.drop_of_length_le (by omega), listFrom]
  | succ n ih =>
      have hlt : i < (v.entries buffer).length := by omega
      have hentry : (v.entries buffer)[i] = .ofBuffer buffer (32 * i) := by
        simp [entries]
      have hnext := fun k => ih k (i := i + 1) (by omega) (by omega)
      rw [readdirCluster, if_pos (by omega), List.drop_eq_getElem_cons hlt, hentry,
        listFrom]
      have hvisible : (isVisible (.ofBuffer buffer (32 * i)) = false) =
          (((FatDirent.ofBuffer buffer (32 * i)).isSkipped ||
            isDotName (FatDirent.ofBuffer buffer (32 * i)).name) = true) := by
        rw [isVisible, Bool.not_eq_eq_eq_not, Bool.not_false]
      have hoffset : 32 * i + 32 = 32 * (i + 1) := rfl
      simp only [hvisible, hoffset, hnext]

/-- The entry that a part of a listing has for an index, from the index `k` on. -/
def entryAt (ds : List FatDirent) (k index : Nat) : Option FatDirent :=
  if k ≤ index then ds[index - k]? else none

theorem entryAt_none {ds : List FatDirent} (h : ¬ (k ≤ index ∧ index < k + ds.length)) :
    entryAt ds k index = none := by
  unfold entryAt
  split
  · exact List.getElem?_eq_none (by omega)
  · rfl

theorem entryAt_some {ds : List FatDirent} (h : k ≤ index ∧ index < k + ds.length) :
    ∃ d, entryAt ds k index = some d := by
  have hlt : index - k < ds.length := by omega
  exact ⟨ds[index - k], (if_pos h.1).trans (List.getElem?_eq_getElem hlt)⟩

theorem entryAt_cons {d : FatDirent} {ds : List FatDirent} (h : k ≠ index) :
    entryAt (d :: ds) k index = entryAt ds (k + 1) index := by
  unfold entryAt
  by_cases hle : k + 1 ≤ index
  · have hsub : index - k = (index - (k + 1)) + 1 := by omega
    rw [if_pos hle, if_pos (by omega), hsub, List.getElem?_cons_succ]
  · rw [if_neg hle, if_neg (by omega)]

theorem listFrom_eq (ds : List FatDirent) (k : Nat) :
    listFrom index ds k =
      match entryAt (listed ds) k index with
      | some d => .inl d
      | none => .inr (k + (listed ds).length) := by
  induction ds generalizing k with
  | nil => simp [listFrom, listed, entryAt]
  | cons d rest ih =>
      rw [listFrom]
      by_cases hend : d.firstByte = direntEnd
      · have hnone : listed (d :: rest) = [] := by simp [listed, hend]
        rw [if_pos hend, hnone, entryAt_none (by simp)]
        rfl
      · rw [if_neg hend]
        cases hvisible : isVisible d with
        | false =>
            have hsame : listed (d :: rest) = listed rest := by simp [listed, hend, hvisible]
            rw [if_pos rfl, hsame, ih]
        | true =>
            have hmore : listed (d :: rest) = d :: listed rest := by
              simp [listed, hend, hvisible]
            rw [if_neg Bool.noConfusion, hmore]
            by_cases hindex : k = index
            · subst hindex
              simp [entryAt]
            · rw [if_neg hindex, ih, entryAt_cons hindex, List.length_cons,
                Nat.add_assoc, Nat.add_comm 1]

/-- One cluster of a listing. -/
theorem Valid.readdirRound_eq (hv : v.Valid) (h : cluster < clusterChainEnd) :
    v.readdirRound junk index (cluster, k) =
      match entryAt (v.clusterListing junk cluster) k index with
      | some d => some (.inr (some d))
      | none => (v.nextCluster cluster).map fun next =>
        .inl (next, k + (v.clusterListing junk cluster).length) := by
  have hcluster := hv.readdirCluster_eq (v.readCluster cluster (junk cluster)) index k
    (Nat.zero_le _)
  rw [Nat.mul_zero, List.drop_zero, listFrom_eq] at hcluster
  rw [readdirRound, if_pos h]
  dsimp only
  rw [hcluster]
  unfold clusterListing
  cases entryAt (listed (v.entries (v.readCluster cluster (junk cluster)))) k index with
  | some d => rfl
  | none => cases v.nextCluster cluster <;> rfl

/-- The listing of a directory ends exactly when its links lead to an end. -/
theorem Valid.listing_ends_iff (hv : v.Valid) :
    (∃ res, Loop.Ends (v.readdirRound junk index) (cluster, 0) res) ↔
      v.ListingLeads junk index cluster := by
  change (∃ res, Loop.Ends _ (id (cluster, 0)) res) ↔ Leads _ _ _ _
  have hpass : ∀ cluster k, ¬ v.ListingStops junk index (cluster, k) →
      v.readdirRound junk index (cluster, k) = (v.nextCluster cluster).map fun next =>
        .inl (next, k + (v.clusterListing junk cluster).length) := by
    intro cluster k hstops
    unfold ListingStops at hstops
    rw [not_or] at hstops
    rw [hv.readdirRound_eq (Nat.lt_of_not_le hstops.1), entryAt_none hstops.2]
  apply Leads.exists_ends_iff
  · rintro ⟨cluster, k⟩ hstops
    by_cases hlast : clusterChainEnd ≤ cluster
    · refine ⟨none, .now ?_⟩
      rw [id, readdirRound, if_neg (Nat.not_lt.mpr hlast)]
    · obtain hend | hfound := hstops
      · exact absurd hend hlast
      · obtain ⟨d, hd⟩ := entryAt_some hfound
        refine ⟨some d, .now ?_⟩
        rw [id, hv.readdirRound_eq (Nat.lt_of_not_le hlast), hd]
  · rintro ⟨cluster, k⟩ hstops hin res
    refine Loop.not_ends_of_reflTransGen_fault .refl ?_
    rw [id, hpass cluster k hstops, hv.nextCluster_none hin]
    rfl
  · rintro ⟨cluster, k⟩ hstops hin
    refine ⟨_, .single ?_, rfl⟩
    change v.readdirRound junk index (cluster, k) = _
    rw [hpass cluster k hstops, hv.nextCluster_eq hin]
    rfl

/-! ### The three calls -/

/-- The condition of `fat_lookup`: for a directory, the name fits its buffer and the
links lead to the end of the search. -/
def LookupLeads (v : FatData) (entry : Buffer) (junk : Nat → Buffer) (name : List Char)
    (parent : Nat) : Prop :=
  (v.readDirent entry parent).isDirectory = true →
    (normalizeFatPath name).length < 512 ∧
      v.SearchLeads (componentName ((normalizeFatPath name).take 12)) junk
        (v.readDirent entry parent).firstCluster

/-- The condition of `fat_readdir`: for an entry in use, the links lead to the end of
the listing. -/
def ReaddirLeads (v : FatData) (entry : Buffer) (junk : Nat → Buffer) (handle index : Nat) :
    Prop :=
  (v.readDirent entry handle).firstByte ≠ direntDeleted →
    (v.readDirent entry handle).firstByte ≠ direntEnd →
      v.ListingLeads junk index (v.readDirent entry handle).firstCluster

theorem lookup_directory (entry : Buffer) (name : List Char) (parent : Nat)
    (hdir : (v.readDirent entry parent).isDirectory = true)
    (hfits : (normalizeFatPath name).length < 512) :
    v.lookup fuel entry junk name parent =
      (v.search fuel (componentName ((normalizeFatPath name).take 12))
        (v.openCluster (junk (v.readDirent entry parent).firstCluster)
          (v.readDirent entry parent).firstCluster)).map fun found =>
            match found with
            | none => .error eNoent
            | some found => .ok found.handle := by
  unfold lookup normalizeInto
  simp only [hdir, Bool.true_eq_false, if_false, if_pos hfits, Option.bind_eq_bind,
    Option.bind_some]
  cases v.search fuel (componentName ((normalizeFatPath name).take 12))
      (v.openCluster (junk (v.readDirent entry parent).firstCluster)
        (v.readDirent entry parent).firstCluster) with
  | none => rfl
  | some found => cases found <;> rfl

theorem Valid.lookup_ends_iff (hv : v.Valid) (entry : Buffer) (name : List Char)
    (parent : Nat) :
    (∃ fuel res, v.lookup fuel entry junk name parent = some res) ↔
      v.LookupLeads entry junk name parent := by
  unfold LookupLeads
  by_cases hdir : (v.readDirent entry parent).isDirectory = true
  · by_cases hfits : (normalizeFatPath name).length < 512
    · simp only [hdir, hfits, true_implies, true_and, ← hv.search_ends_iff,
        lookup_directory entry name parent hdir hfits, Option.map_eq_some_iff]
      constructor
      · rintro ⟨fuel, -, found, hsearch, -⟩
        exact ⟨found, fuel, hsearch⟩
      · rintro ⟨found, fuel, hsearch⟩
        exact ⟨fuel, _, found, hsearch, rfl⟩
    · simp [lookup, hdir, normalizeInto, hfits]
  · refine ⟨fun _ h => absurd h hdir, fun _ => ⟨0, .error eNotdir, ?_⟩⟩
    rw [Bool.not_eq_true] at hdir
    simp [lookup, hdir]

theorem Valid.getDirentRef_ends_iff (hv : v.Valid) (path : List Char) :
    (∃ fuel res, v.getDirentRef fuel junk path = some res) ↔
      (normalizeFatPath path).length < 512 ∧
        v.PathLeads junk (normalizeFatPath path) v.rootRef := by
  unfold getDirentRef normalizeInto
  by_cases hfits : (normalizeFatPath path).length < 512
  · rw [if_pos hfits, ← hv.walkPath_ends_iff]
    simp only [Option.bind_eq_bind, Option.bind_some, hfits, true_and]
  · simp [hfits]

theorem Valid.readdir_ends_iff (hv : v.Valid) (entry : Buffer) (handle index : Nat) :
    (∃ fuel res, v.readdir fuel entry junk handle index = some res) ↔
      v.ReaddirLeads entry junk handle index := by
  unfold ReaddirLeads
  by_cases hdeleted : (v.readDirent entry handle).firstByte = direntDeleted
  · refine ⟨fun _ h => absurd hdeleted h, fun _ => ⟨0, .error eNoent, ?_⟩⟩
    simp [readdir, hdeleted]
  · by_cases hend : (v.readDirent entry handle).firstByte = direntEnd
    · refine ⟨fun _ _ h => absurd hend h, fun _ => ⟨0, .error eNoent, ?_⟩⟩
      simp [readdir, hend]
    · simp only [readdir, hdeleted, hend, or_self, if_false, ne_eq, not_false_eq_true,
        true_implies, Option.bind_eq_bind, ← hv.listing_ends_iff, Option.bind_eq_some_iff]
      constructor
      · rintro ⟨fuel, -, found, hlist, -⟩
        exact ⟨found, fuel, hlist⟩
      · rintro ⟨found, fuel, hlist⟩
        cases found with
        | none => exact ⟨fuel, _, none, hlist, rfl⟩
        | some found => exact ⟨fuel, _, some found, hlist, rfl⟩

end FatData

open FatData

/-- On a volume with any table and any contents, each search and each listing of a
directory comes to an end inside the table exactly when the links of the directories
lead there. -/
theorem directory_scans_end_iff (v : FatData) (hv : v.Valid) (entry : Buffer)
    (junk : Nat → Buffer) :
    (∀ name parent, (∃ fuel res, v.lookup fuel entry junk name parent = some res) ↔
      v.LookupLeads entry junk name parent) ∧
    (∀ path, (∃ fuel res, v.getDirentRef fuel junk path = some res) ↔
      (normalizeFatPath path).length < 512 ∧
        v.PathLeads junk (normalizeFatPath path) v.rootRef) ∧
    ∀ handle index, (∃ fuel res, v.readdir fuel entry junk handle index = some res) ↔
      v.ReaddirLeads entry junk handle index :=
  ⟨hv.lookup_ends_iff entry, hv.getDirentRef_ends_iff, hv.readdir_ends_iff entry⟩

/-- A volume of 128 clusters of one sector, with the same byte everywhere on the device
and the same link in each entry of the table. -/
def uniformVolume (byte : UInt8) (link : UInt32) : FatData where
  backing := { byte := fun _ => byte, sectors := 2 ^ 32 }
  bpb :=
    { bytesPerSector := 512, sectorsPerCluster := 1, reservedSectors := 1, numFats := 1,
      totalSectors16 := 130, fatSize16 := 1, totalSectors32 := 0, fatSize32 := 0,
      rootCluster := 2, fsInfo := 0 }
  fat := List.replicate 128 link
  readOnly := false
  fatSize := 1
  lastFree := 2

theorem uniformVolume_valid (byte : UInt8) (link : UInt32) :
    (uniformVolume byte link).Valid :=
  ⟨rfl, Nat.one_pos, by simp [uniformVolume]⟩

/-- A root directory that is a ring of two clusters, the first full of files and the
second with the file `B`. -/
def ringVolume : FatData :=
  { uniformVolume 0 0 with
    backing :=
      { byte := fun i =>
          if i < 1536 then 0x41 else if i = 1536 then 0x42 else if i < 1547 then 0x20 else 0
        sectors := 4 }
    fat := [0, 0, 3, 2] ++ List.replicate 124 0 }

theorem ringVolume_valid : ringVolume.Valid :=
  ⟨rfl, Nat.one_pos, by
    change (_ ++ List.replicate 124 (0 : UInt32)).length = 1 * 512 / 4
    rw [List.length_append, List.length_replicate]
    rfl⟩

/-- The file in the second cluster is found by each call, so the links lead there. -/
theorem directory_scans_end_ring :
    (ringVolume.lookup 18 (fun _ => 0) (fun _ _ => 0) ['B'] 0 = some (.ok (3 * 2 ^ 32)) ∧
      ringVolume.LookupLeads (fun _ => 0) (fun _ _ => 0) ['B'] 0) ∧
    ((ringVolume.getDirentRef 18 (fun _ _ => 0) ['B']).isSome ∧
      ringVolume.PathLeads (fun _ _ => 0) (normalizeFatPath ['B']) ringVolume.rootRef) ∧
    ringVolume.readdir 2 (fun _ => 0) (fun _ _ => 0) 0 16 = some (.ok (['B'], .file)) ∧
      ringVolume.ReaddirLeads (fun _ => 0) (fun _ _ => 0) 0 16 := by
  have hlookup : ringVolume.lookup 18 (fun _ => 0) (fun _ _ => 0) ['B'] 0 =
      some (.ok (3 * 2 ^ 32)) := by decide
  have hpath : (ringVolume.getDirentRef 18 (fun _ _ => 0) ['B']).isSome := by decide +kernel
  have hreaddir : ringVolume.readdir 2 (fun _ => 0) (fun _ _ => 0) 0 16 =
      some (.ok (['B'], .file)) := by decide +kernel
  obtain ⟨hlookups, hpaths, hreaddirs⟩ :=
    directory_scans_end_iff ringVolume ringVolume_valid (fun _ => 0) fun _ _ => 0
  obtain ⟨found, hfound⟩ := Option.isSome_iff_exists.mp hpath
  exact ⟨⟨hlookup, (hlookups _ _).mp ⟨_, _, hlookup⟩⟩,
    ⟨hpath, ((hpaths _).mp ⟨_, _, hfound⟩).2⟩, hreaddir, (hreaddirs _ _).mp ⟨_, _, hreaddir⟩⟩

theorem not_decides_of_uniform {buffer : Buffer} {i : Nat}
    (hbuffer : ∀ j < 512, buffer j = 66) (hi : i < 16) :
    ¬ Decides (componentName ['A']) (.ofBuffer buffer (32 * i)) := by
  have hname : (FatDirent.ofBuffer buffer (32 * i)).name = List.replicate 11 'B' := by
    have hbyte : ∀ j < 11, Char.ofUInt8 (buffer (32 * i + j)) = 'B' := fun j hj => by
      rw [hbuffer _ (by omega)]
      decide
    exact (List.map_congr_left fun j hj => hbyte j (List.mem_range.mp hj)).trans (by decide)
  rintro (hend | ⟨-, hcomponent⟩)
  · rw [FatDirent.firstByte, hname] at hend
    revert hend
    decide
  · rw [hname] at hcomponent
    revert hcomponent
    decide

theorem uniformVolume_readCluster (byte : UInt8) (link : UInt32) (cluster : Nat)
    (buffer : Buffer) {j : Nat} (hj : j < 512) :
    (uniformVolume byte link).readCluster cluster buffer j = byte := by
  have hfits : (uniformVolume byte link).getFirstClusterSector cluster +
      (uniformVolume byte link).bpb.sectorsPerCluster ≤
        (uniformVolume byte link).backing.sectors := by
    simp only [uniformVolume, getFirstClusterSector]
    omega
  rw [readCluster_apply buffer hfits hj]
  rfl

theorem uniformVolume_clusterListing (link : UInt32) (junk : Nat → Buffer) (cluster : Nat) :
    (uniformVolume 0 link).clusterListing junk cluster = [] := by
  have hend : ∀ d ∈ (uniformVolume 0 link).entries
      ((uniformVolume 0 link).readCluster cluster (junk cluster)), d.firstByte = direntEnd := by
    intro d hd
    obtain ⟨i, hi, rfl⟩ := mem_entries.mp hd
    have hcount : (uniformVolume 0 link).entryCount = 16 := by
      simp [FatData.entryCount, FatData.bytesPerCluster, uniformVolume]
    rw [hcount] at hi
    change Char.ofUInt8 ((uniformVolume 0 link).readCluster cluster (junk cluster)
      (32 * i + 0)) = direntEnd
    rw [uniformVolume_readCluster 0 link cluster _ (by omega)]
    rfl
  unfold clusterListing listed
  cases hentries : (uniformVolume 0 link).entries
      ((uniformVolume 0 link).readCluster cluster (junk cluster)) with
  | nil => rfl
  | cons d rest =>
      have hfirst := hend d (hentries ▸ List.mem_cons_self)
      simp [hfirst]

/-- The search for a name in a directory that is a ring of clusters goes on forever, and
a listing of an empty directory follows a link behind the table. -/
theorem directory_scans_fail :
    ((uniformVolume 66 2).Valid ∧ ∀ fuel,
      (uniformVolume 66 2).lookup fuel (fun _ => 0) (fun _ _ => 0) ['A'] 0 = none) ∧
    ((uniformVolume 0 1000).Valid ∧ ∀ fuel,
      (uniformVolume 0 1000).readdir fuel (fun _ => 0) (fun _ _ => 0) 0 0 = none) := by
  refine ⟨⟨uniformVolume_valid _ _, fun fuel => ?_⟩, uniformVolume_valid _ _, fun fuel => ?_⟩
  · refine Option.eq_none_iff_forall_ne_some.mpr fun res hres => ?_
    obtain ⟨-, hleads⟩ :=
      ((uniformVolume_valid 66 2).lookup_ends_iff _ _ _).mp ⟨fuel, res, hres⟩ rfl
    have hlink : (uniformVolume 66 2).link 2 = 2 := by decide
    revert hleads
    apply Leads.not_of_trap fun at_ => at_.1 = 2 ∧ ∀ j < 512, at_.2 j = 66
    · rintro ⟨cluster, buffer⟩ ⟨rfl, -⟩
      refine ⟨hlink, fun j hj => ?_⟩
      dsimp only [nextInBuffer]
      exact uniformVolume_readCluster 66 2 _ buffer hj
    · rintro ⟨cluster, buffer⟩ ⟨rfl, hbuffer⟩ (⟨d, hd, hdecides⟩ | ⟨-, hlast⟩)
      · obtain ⟨i, hi, rfl⟩ := mem_entries.mp hd
        exact not_decides_of_uniform hbuffer hi hdecides
      · rw [hlink] at hlast
        revert hlast
        decide
    · refine ⟨by decide, fun j hj => ?_⟩
      dsimp only
      exact uniformVolume_readCluster 66 2 _ _ hj
  · refine Option.eq_none_iff_forall_ne_some.mpr fun res hres => ?_
    have hleads :=
      ((uniformVolume_valid 0 1000).readdir_ends_iff _ _ _).mp ⟨fuel, res, hres⟩
        (by decide) (by decide)
    have hstops : ∀ cluster < clusterChainEnd,
        ¬ (uniformVolume 0 1000).ListingStops (fun _ _ => 0) 0 (cluster, 0) := by
      rintro cluster hcluster (hlast | ⟨-, hfound⟩)
      · exact absurd hcluster (Nat.not_lt.mpr hlast)
      · rw [uniformVolume_clusterListing] at hfound
        exact absurd hfound (Nat.lt_irrefl 0)
    have hnext : (uniformVolume 0 1000).nextInListing (fun _ _ => 0) (2, 0) = (1000, 0) := by
      rw [nextInListing, uniformVolume_clusterListing]
      decide
    obtain hstop | ⟨-, hleads⟩ := hleads.cases
    · exact hstops 2 (by decide) hstop
    · change Leads _ _ _ ((uniformVolume 0 1000).nextInListing (fun _ _ => 0) (2, 0)) at hleads
      rw [hnext] at hleads
      obtain hstop | ⟨hin, -⟩ := hleads.cases
      · exact hstops 1000 (by decide) hstop
      · revert hin
        unfold InTable
        decide

end GlitchedOS
