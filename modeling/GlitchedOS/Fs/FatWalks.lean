/-
The walks of `fat_truncate`.  They read whole entries of the table, where the other
functions take the reserved bits off, so an entry with a reserved bit set ends them.
-/
import GlitchedOS.Lib.Recent
import GlitchedOS.Fs.FatFiles

namespace GlitchedOS

namespace FatData

/-- The entry of a cluster, with its reserved bits. -/
def wholeLink (v : FatData) (cluster : Nat) : Nat := (v.readFat cluster).getD 0

/-- The clusters of a chain up to the first whole entry that ends a walk. -/
def walked (v : FatData) : List Nat → List Nat
  | [] => []
  | c :: rest => if v.wholeLink c < clusterChainEnd then c :: walked v rest else [c]

/-- Each cluster of a chain but the last has an entry without reserved bits. -/
def PlainLinks (v : FatData) (clusters : List Nat) : Prop :=
  ∀ c ∈ clusters.dropLast, v.wholeLink c < 2 ^ 28

instance (v : FatData) (clusters : List Nat) : Decidable (v.PlainLinks clusters) :=
  inferInstanceAs (Decidable (∀ c ∈ clusters.dropLast, _))

/-- The cluster where the walk is that keeps the last clusters in a ring. -/
def ringView (at_ : (Nat → Nat) × Nat) : Nat := at_.1 at_.2

variable {v : FatData} {c size : Nat} {clusters : List Nat}

theorem readFat_eq (hin : c < v.fat.length) : v.readFat c = some (v.wholeLink c) := by
  rw [wholeLink, readFat, List.getElem?_eq_getElem hin]
  rfl

theorem link_eq_wholeLink (v : FatData) (c : Nat) : v.link c = v.wholeLink c % 2 ^ 28 := by
  rw [link_eq, wholeLink, readFat]
  cases v.fat[c]? with
  | none => rfl
  | some entry => rfl

/-- A whole entry that does not end a walk is the next cluster. -/
theorem link_of_wholeLink (hlink : v.wholeLink c < clusterChainEnd) :
    v.link c = v.wholeLink c := by
  rw [link_eq_wholeLink]
  exact Nat.mod_eq_of_lt (Nat.lt_trans hlink (by decide))

theorem follow_of_wholeLink (hlink : v.wholeLink c < clusterChainEnd) :
    v.follow c = some (v.wholeLink c) := by
  have heq := link_of_wholeLink hlink
  rw [follow_eq_some (by rw [heq]; exact hlink), heq]

/-- It comes to the end of the chain exactly when no link has a reserved bit. -/
theorem walked_eq_self_iff (hchain : Chain v.follow (some c) clusters) :
    v.walked clusters = clusters ↔ v.PlainLinks clusters := by
  induction clusters generalizing c with
  | nil => cases hchain
  | cons d rest ih =>
      obtain rfl := Option.some.inj hchain.1
      have hrest := hchain.2
      rw [walked]
      cases rest with
      | nil =>
          refine iff_of_true ?_ fun a ha => absurd ha List.not_mem_nil
          split <;> rfl
      | cons e rest =>
          obtain ⟨hnext, -⟩ := chain_next ⟨rfl, hrest⟩ (List.cons_ne_nil e rest)
          have hplain : v.PlainLinks (c :: e :: rest) ↔
              v.wholeLink c < 2 ^ 28 ∧ v.PlainLinks (e :: rest) := List.forall_mem_cons
          rw [hplain]
          split
          next hlink =>
            rw [follow_of_wholeLink hlink] at hrest
            rw [and_iff_right (Nat.lt_trans hlink (by decide)), ← ih hrest]
            exact List.cons_inj_right c
          next hlink =>
            refine iff_of_false (fun heq => ?_) fun hboth => hlink ?_
            · cases (List.cons.inj heq).2
            · rw [link_eq_wholeLink, Nat.mod_eq_of_lt hboth.1] at hnext
              exact hnext

theorem lastRound_eq (hin : c < v.fat.length) :
    v.lastRound c =
      some (if clusterChainEnd ≤ v.wholeLink c then .inr c else .inl (v.wholeLink c)) := by
  rw [lastRound, readFat_eq hin]
  rfl

theorem visits_lastRound (hchain : Chain v.follow (some c) clusters)
    (hin : ∀ a ∈ clusters, a < v.fat.length) :
    Loop.Visits v.lastRound id c (v.walked clusters) := by
  induction clusters generalizing c with
  | nil => cases hchain
  | cons d rest ih =>
      obtain rfl := Option.some.inj hchain.1
      have hround := lastRound_eq (hin c List.mem_cons_self)
      have hrest := hchain.2
      rw [walked]
      split
      next hlink =>
        rw [if_neg (Nat.not_le.mpr hlink)] at hround
        rw [follow_of_wholeLink hlink] at hrest
        exact ⟨rfl, .inr ⟨_, hround, ih hrest fun a ha => hin a (List.mem_cons_of_mem c ha)⟩⟩
      next hlink =>
        rw [if_pos (Nat.le_of_not_lt hlink)] at hround
        exact ⟨rfl, .inl ⟨rfl, c, hround⟩⟩

theorem ringRound_eq {at_ : (Nat → Nat) × Nat} (hview : ringView at_ = c)
    (hin : c < v.fat.length) :
    v.ringRound size at_ = some (if clusterChainEnd ≤ v.wholeLink c then .inr at_
      else .inl (fun i => if i = (at_.2 + 1) % size then v.wholeLink c else at_.1 i,
        (at_.2 + 1) % size)) := by
  obtain ⟨ring, head⟩ := at_
  have hread : v.readFat (ring head) = some (v.wholeLink c) := by
    rw [← readFat_eq hin, ← hview]
    rfl
  rw [ringRound, hread, Option.bind_eq_bind, Option.bind_some]
  by_cases hend : clusterChainEnd ≤ v.wholeLink c
  · rw [if_pos hend, if_pos hend]
  · rw [if_neg hend, if_neg hend]

theorem visits_ringRound {at_ : (Nat → Nat) × Nat} (hview : ringView at_ = c)
    (hchain : Chain v.follow (some c) clusters) (hin : ∀ a ∈ clusters, a < v.fat.length) :
    Loop.Visits (v.ringRound size) ringView at_ (v.walked clusters) := by
  induction clusters generalizing c at_ with
  | nil => cases hchain
  | cons d rest ih =>
      obtain rfl := Option.some.inj hchain.1
      have hround : v.ringRound size at_ = _ := ringRound_eq hview (hin c List.mem_cons_self)
      have hrest := hchain.2
      rw [walked]
      split
      next hlink =>
        rw [if_neg (Nat.not_le.mpr hlink)] at hround
        rw [follow_of_wholeLink hlink] at hrest
        exact ⟨hview, .inr ⟨_, hround, ih (if_pos rfl) hrest fun a ha =>
          hin a (List.mem_cons_of_mem c ha)⟩⟩
      next hlink =>
        rw [if_pos (Nat.le_of_not_lt hlink)] at hround
        exact ⟨hview, .inl ⟨rfl, at_, hround⟩⟩

theorem ringStart_eq_some_iff {stack : Nat} {at_ : (Nat → Nat) × Nat} :
    ringStart stack size c = some at_ ↔
      4 * size ≤ stack ∧ (fun i => if i = 0 then c else 0, 0) = at_ := by
  rw [ringStart, Option.ite_none_left_eq_some, Nat.not_lt, Option.some.injEq]

end FatData

open FatData

/-- Both walks of `fat_truncate` follow the chain of a file as `next_cluster` does exactly
when no entry of the chain but the last has a reserved bit set, and the array for the last
clusters fits on the stack. -/
theorem truncate_walks_agree_iff (v : FatData) (c : Nat) (clusters : List Nat)
    (hchain : Chain v.follow (some c) clusters) (hin : ∀ a ∈ clusters, a < v.fat.length)
    (difference stack : Nat) :
    (Loop.Visits v.lastRound id c clusters ∧
      ∃ start, ringStart stack (difference + 1) c = some start ∧
        Loop.Visits (v.ringRound (difference + 1)) ringView start clusters) ↔
      v.PlainLinks clusters ∧ 4 * (difference + 1) ≤ stack := by
  have hlast := visits_lastRound hchain hin
  have hring : Loop.Visits (v.ringRound (difference + 1)) ringView
      (fun i => if i = 0 then c else 0, 0) _ := visits_ringRound rfl hchain hin
  rw [← walked_eq_self_iff hchain]
  constructor
  · rintro ⟨hvisits, start, hstart, -⟩
    exact ⟨hlast.unique hvisits, (ringStart_eq_some_iff.mp hstart).1⟩
  · rintro ⟨heq, hfits⟩
    rw [heq] at hlast hring
    exact ⟨hlast, _, ringStart_eq_some_iff.mpr ⟨hfits, rfl⟩, hring⟩

/-- A volume with a file in the clusters 3 and 4, whose first entry in the table is
given. -/
def twoClusterVolume (entry : UInt32) : FatData where
  backing := { byte := fun _ => 0, sectors := 8 }
  bpb :=
    { bytesPerSector := 512, sectorsPerCluster := 1, reservedSectors := 1, numFats := 1,
      totalSectors16 := 8, fatSize16 := 1, totalSectors32 := 0, fatSize32 := 0,
      rootCluster := 2, fsInfo := 0 }
  fat := [0x0FFFFFF8, 0x0FFFFFFF, 0x0FFFFFFF, entry, 0x0FFFFFFF] ++ List.replicate 123 0
  readOnly := false
  fatSize := 1
  lastFree := 2

theorem twoClusterVolume_chain {entry : UInt32} (hentry : entry.toNat % 2 ^ 28 = 4) :
    Chain (twoClusterVolume entry).follow (some 3) [3, 4] := by
  have hlink : (twoClusterVolume entry).link 3 = 4 := hentry
  have hnext : (twoClusterVolume entry).follow 3 = some 4 := by
    rw [follow_eq_some (by rw [hlink]; decide), hlink]
  exact ⟨rfl, hnext, follow_eq_none (show clusterChainEnd ≤ 0x0FFFFFFF by decide)⟩

theorem twoClusterVolume_inTable (entry : UInt32) :
    ∀ a ∈ [3, 4], a < (twoClusterVolume entry).fat.length := by
  have hlength : (twoClusterVolume entry).fat.length = 128 := by
    rw [twoClusterVolume, List.length_append, List.length_replicate]
    rfl
  have hsmall : ∀ a ∈ [3, 4], a < 128 := by decide
  rwa [hlength]

/-- One of two clusters is freed on the stack of a task, which has no room for the array of
a file that gives up 32768 clusters. -/
theorem truncate_walks_agree_plain :
    (Loop.Visits (twoClusterVolume 4).lastRound id 3 [3, 4] ∧
      ∃ start, ringStart (4096 * 32) (1 + 1) 3 = some start ∧
        Loop.Visits ((twoClusterVolume 4).ringRound (1 + 1)) ringView start [3, 4]) ∧
    ¬ (Loop.Visits (twoClusterVolume 4).lastRound id 3 [3, 4] ∧
      ∃ start, ringStart (4096 * 32) (32768 + 1) 3 = some start ∧
        Loop.Visits ((twoClusterVolume 4).ringRound (32768 + 1)) ringView start [3, 4]) := by
  have hiff := truncate_walks_agree_iff (twoClusterVolume 4) 3 [3, 4]
    (twoClusterVolume_chain (by decide)) (twoClusterVolume_inTable 4)
  exact ⟨(hiff 1 (4096 * 32)).mpr ⟨by decide, by decide⟩,
    fun h => absurd ((hiff 32768 (4096 * 32)).mp h).2 (by decide)⟩

/-- With a reserved bit in the first entry the walks end there. -/
theorem truncate_walks_cut :
    Chain (twoClusterVolume 0x10000004).follow (some 3) [3, 4] ∧
      Loop.Visits (twoClusterVolume 0x10000004).lastRound id 3 [3] ∧
      ¬ Loop.Visits (twoClusterVolume 0x10000004).lastRound id 3 [3, 4] := by
  have hchain : Chain (twoClusterVolume 0x10000004).follow (some 3) [3, 4] :=
    twoClusterVolume_chain (by decide)
  have hvisits := visits_lastRound hchain (twoClusterVolume_inTable 0x10000004)
  have hwalked : (twoClusterVolume 0x10000004).walked [3, 4] = [3] := by decide
  rw [hwalked] at hvisits
  refine ⟨hchain, hvisits, fun hall => ?_⟩
  cases hvisits.unique hall

end GlitchedOS
