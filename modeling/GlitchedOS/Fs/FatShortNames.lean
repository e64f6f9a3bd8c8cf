/-
8.3 names, from the eleven characters of an entry to a readable name and back.  Names
without spaces and points inside come back as they were; `fat_readdir` lists others
too, under names that `fat_lookup` does not find.
-/
import GlitchedOS.Fs.FatResolve

namespace GlitchedOS

/-- A character of an 8.3 name. -/
def IsNameChar (c : Char) : Prop :=
  c ≠ ' ' ∧ c ≠ '.' ∧ c ≠ '/' ∧ c ≠ '\x00' ∧ ¬ ('a' ≤ c ∧ c ≤ 'z')

instance (c : Char) : Decidable (IsNameChar c) :=
  inferInstanceAs (Decidable (_ ∧ _ ∧ _ ∧ _ ∧ _))

/-- A base of one to eight characters and an extension of at most three. -/
structure ShortName where
  base : List Char
  ext : List Char
  base_ne_nil : base ≠ []
  base_length : base.length ≤ 8
  ext_length : ext.length ≤ 3
  base_chars : ∀ c ∈ base, IsNameChar c
  ext_chars : ∀ c ∈ ext, IsNameChar c

namespace ShortName

def readable (n : ShortName) : List Char := if n.ext = [] then n.base else n.base ++ '.' :: n.ext

/-- The eleven characters of an entry with the name. -/
def padded (n : ShortName) : List Char := padSpaces 8 n.base ++ padSpaces 3 n.ext

end ShortName

/-! ### The converters -/

/-- One round of the loops of `f8d3_to_readable`, with `temp` as far as it is written. -/
def copyNonSpace (temp : List Char) (c : Char) : List Char :=
  if c ≠ ' ' ∧ temp.length < 12 then temp ++ [c] else temp

/-- `f8d3_to_readable` on its buffer of twelve characters. -/
def f8d3Buffer (path : List Char) : List Char :=
  let ext := (path.drop 8).take 3
  let temp := (path.take 8).foldl copyNonSpace []
  let temp :=
    if 0 < ext.countP (· ≠ ' ') ∧ temp.length < 12 then ext.foldl copyNonSpace (temp ++ ['.'])
    else temp
  temp ++ List.replicate (12 - temp.length) '\x00'

def cString (s : List Char) : List Char := s.takeWhile (· ≠ '\x00')

theorem foldl_copyNonSpace {temp s : List Char} (h : temp.length + s.length ≤ 12) :
    s.foldl copyNonSpace temp = temp ++ s.filter (· ≠ ' ') := by
  induction s generalizing temp with
  | nil => exact (List.append_nil temp).symm
  | cons c rest ih =>
      rw [List.length_cons] at h
      rw [List.foldl_cons, copyNonSpace]
      by_cases hc : c = ' '
      · rw [if_neg fun hboth => hboth.1 hc, ih (by omega),
          List.filter_cons_of_neg (by simpa using hc)]
      · rw [if_pos ⟨hc, by omega⟩, ih (by rw [List.length_append, List.length_singleton]; omega),
          List.filter_cons_of_pos (by simpa using hc), List.append_assoc]
        rfl

/-- The twelve characters are the readable name and terminators: a name fills the
buffer at most. -/
theorem f8d3Buffer_eq (path : List Char) :
    f8d3Buffer path = f8d3ToReadable path ++
      List.replicate (12 - (f8d3ToReadable path).length) '\x00' := by
  have hbase : (path.take 8).foldl copyNonSpace [] = (path.take 8).filter (· ≠ ' ') := by
    refine (foldl_copyNonSpace ?_).trans (List.nil_append _)
    rw [List.length_nil, List.length_take]
    omega
  have hlength : ((path.take 8).filter (· ≠ ' ')).length ≤ 8 :=
    (List.length_filter_le _ _).trans (List.length_take_le _ _)
  have hext : ((path.drop 8).take 3).foldl copyNonSpace ((path.take 8).filter (· ≠ ' ') ++ ['.']) =
      (path.take 8).filter (· ≠ ' ') ++ '.' :: ((path.drop 8).take 3).filter (· ≠ ' ') := by
    rw [foldl_copyNonSpace, List.append_assoc]
    · rfl
    · rw [List.length_append, List.length_singleton, List.length_take]
      omega
  rw [f8d3Buffer, f8d3ToReadable, hbase, hext, List.countP_eq_length_filter]
  by_cases hnil : ((path.drop 8).take 3).filter (· ≠ ' ') = []
  · rw [if_neg fun hboth => List.length_pos_iff.mp hboth.1 hnil, if_pos hnil]
  · rw [if_pos ⟨List.length_pos_iff.mpr hnil, by omega⟩, if_neg hnil]

theorem padSpaces_eq {n : Nat} {s : List Char} (h : s.length ≤ n) :
    padSpaces n s = s ++ List.replicate (n - s.length) ' ' := by
  rw [padSpaces, List.take_append, List.take_of_length_le h, List.take_replicate,
    Nat.min_eq_left (Nat.sub_le n _)]

namespace ShortName

variable (n : ShortName)

theorem length_readable : n.readable.length ≤ 12 := by
  have hbase := n.base_length
  have hext := n.ext_length
  rw [readable]
  split
  · omega
  · rw [List.length_append, List.length_cons]
    omega

theorem readable_ne : n.readable ≠ [] := by
  rw [readable]
  split
  · exact n.base_ne_nil
  · exact List.append_ne_nil_of_left_ne_nil n.base_ne_nil _

theorem readable_chars {c : Char} (hc : c ∈ n.readable) : c = '.' ∨ IsNameChar c := by
  rw [readable] at hc
  split at hc
  · exact Or.inr (n.base_chars c hc)
  · rcases List.mem_append.mp hc with hbase | hrest
    · exact Or.inr (n.base_chars c hbase)
    · rcases List.mem_cons.mp hrest with rfl | hext
      · exact Or.inl rfl
      · exact Or.inr (n.ext_chars c hext)

theorem filter_padSpaces {k : Nat} {s : List Char} (hs : ∀ c ∈ s, IsNameChar c)
    (hlength : s.length ≤ k) : (padSpaces k s).filter (· ≠ ' ') = s := by
  have hkeep : ∀ c ∈ s, decide (c ≠ ' ') = true := fun c hc => decide_eq_true (hs c hc).1
  rw [padSpaces_eq hlength, List.filter_append, List.filter_eq_self.mpr hkeep,
    List.filter_replicate_of_neg (by decide), List.append_nil]

theorem f8d3ToReadable_padded (rest : List Char) :
    f8d3ToReadable (n.padded ++ rest) = n.readable := by
  have hbase : (n.padded ++ rest).take 8 = padSpaces 8 n.base := by
    rw [padded, List.append_assoc, List.take_left' (length_padSpaces 8 n.base)]
  have hext : ((n.padded ++ rest).drop 8).take 3 = padSpaces 3 n.ext := by
    rw [padded, List.append_assoc, List.drop_left' (length_padSpaces 8 n.base),
      List.take_left' (length_padSpaces 3 n.ext)]
  rw [f8d3ToReadable, hbase, hext, filter_padSpaces n.base_chars n.base_length,
    filter_padSpaces n.ext_chars n.ext_length, readable]

/-- From a readable name to an entry; behind the name is a character at which the
converter stops. -/
theorem readableTo8d3_readable {stop : Char} (hstop : stop = ' ' ∨ stop = '\x00') (k : Nat) :
    readableTo8d3 (n.readable ++ List.replicate k stop) = n.padded := by
  have hbase : ∀ c ∈ n.base, decide (c ≠ '.' ∧ c ≠ ' ' ∧ c ≠ '\x00') = true := fun c hc =>
    decide_eq_true ⟨(n.base_chars c hc).2.1, (n.base_chars c hc).1, (n.base_chars c hc).2.2.2.1⟩
  have hext : ∀ c ∈ n.ext, decide (c ≠ ' ' ∧ c ≠ '\x00') = true := fun c hc =>
    decide_eq_true ⟨(n.ext_chars c hc).1, (n.ext_chars c hc).2.2.2.1⟩
  have hblank : (List.replicate k stop).takeWhile
      (fun c => decide (c ≠ ' ' ∧ c ≠ '\x00')) = [] := by
    rw [List.takeWhile_replicate]
    rcases hstop with rfl | rfl <;> rfl
  have hblank' : (List.replicate k stop).takeWhile
      (fun c => decide (c ≠ '.' ∧ c ≠ ' ' ∧ c ≠ '\x00')) = [] := by
    rw [List.takeWhile_replicate]
    rcases hstop with rfl | rfl <;> rfl
  by_cases hnil : n.ext = []
  · have hread : n.readable = n.base := if_pos hnil
    rw [readableTo8d3, hread, List.takeWhile_append_of_pos hbase, hblank', List.append_nil,
      List.drop_left]
    split
    · rename_i rest heq
      have hmem : '.' ∈ List.replicate k stop := heq ▸ List.mem_cons_self
      rw [← List.eq_of_mem_replicate hmem] at hstop
      exact absurd hstop (by decide)
    · rw [padded, hnil]
  · have hread : n.readable = n.base ++ '.' :: n.ext := if_neg hnil
    have hdot : ('.' :: (n.ext ++ List.replicate k stop)).takeWhile
        (fun c => decide (c ≠ '.' ∧ c ≠ ' ' ∧ c ≠ '\x00')) = [] := rfl
    rw [readableTo8d3, hread, List.append_assoc, List.cons_append,
      List.takeWhile_append_of_pos hbase, hdot, List.append_nil, List.drop_left]
    change padSpaces 8 n.base ++ padSpaces 3
      ((n.ext ++ List.replicate k stop).takeWhile fun c => decide (c ≠ ' ' ∧ c ≠ '\x00')) = _
    rw [List.takeWhile_append_of_pos hext, hblank, List.append_nil, padded]

theorem componentName_readable : componentName n.readable = n.padded := by
  rw [componentName, padSpaces_eq n.length_readable]
  exact n.readableTo8d3_readable (Or.inl rfl) _

theorem direntName_readable : FatData.direntName n.readable (fun _ => 0) = n.padded := by
  have hbuffer : ((List.range 12).map fun i => n.readable.getD i (Char.ofUInt8 0)) =
      n.readable ++ List.replicate (12 - n.readable.length) '\x00' := by
    have hlength := n.length_readable
    refine List.ext_getElem ?_ fun i hi hi' => ?_
    · rw [List.length_map, List.length_range, List.length_append, List.length_replicate]
      omega
    · rw [List.getElem_map, List.getElem_range, List.getElem_append, List.getD_eq_getElem?_getD]
      split
      · rename_i hlt
        rw [List.getElem?_eq_getElem hlt, Option.getD_some]
      · rename_i hge
        rw [List.getElem?_eq_none (Nat.le_of_not_lt hge), Option.getD_none, List.getElem_replicate]
        rfl
  rw [FatData.direntName, hbuffer]
  exact n.readableTo8d3_readable (Or.inr rfl) _

theorem normalizeFatPath_readable : normalizeFatPath n.readable = n.readable := by
  have hslash : '/' ∉ n.readable := fun hmem => by
    rcases n.readable_chars hmem with heq | hchar
    · revert heq
      decide
    · exact hchar.2.2.1 rfl
  rw [normalizeFatPath_name ⟨n.readable_ne, hslash⟩, upperName]
  refine (List.map_congr_left fun c hc => ?_).trans (List.map_id _)
  delta Char.toUpper
  rw [dif_neg, id]
  rintro ⟨hlo, hhi⟩
  rcases n.readable_chars hc with rfl | hchar
  · revert hlo
    decide
  · exact hchar.2.2.2.2 ⟨hlo, hhi⟩

end ShortName

/-! ### What is listed and what is found -/

namespace FatData

/-- The entries of a directory that its searches look at. -/
def upToEnd (ds : List FatDirent) : List FatDirent :=
  ds.takeWhile fun d => decide (d.firstByte ≠ direntEnd)

def HasNamed (component : List Char) (ds : List FatDirent) : Prop :=
  ∃ d ∈ upToEnd ds, d.isSkipped = false ∧ d.name = component

def NoEnd (ds : List FatDirent) : Prop := ∀ d ∈ ds, d.firstByte ≠ direntEnd

/-- The links lead from a cluster to a `j`-th one, which is not behind the chain. -/
structure Reaches (v : FatData) (first j : Nat) : Prop where
  inTable : ∀ i < j, v.InTable (v.link^[i] first)
  lt : ∀ i ≤ j, v.link^[i] first < clusterChainEnd

def diskEntries (v : FatData) (cluster : Nat) : List FatDirent :=
  v.entries (v.readCluster cluster fun _ => 0)

/-- The handle of a directory in use that starts with the cluster `first`; its clusters
are on the device. -/
structure IsDirectory (v : FatData) (handle first : Nat) : Prop where
  directory : ∀ entry, (v.readDirent entry handle).isDirectory = true
  inUse : ∀ entry, (v.readDirent entry handle).firstByte ≠ direntDeleted ∧
    (v.readDirent entry handle).firstByte ≠ direntEnd
  firstCluster : ∀ entry, (v.readDirent entry handle).firstCluster = first
  device : ∀ j, v.Reaches first j →
    v.getFirstClusterSector (v.link^[j] first) + v.bpb.sectorsPerCluster ≤ v.backing.sectors

/-- `fat_readdir` lists an entry, under its readable name. -/
def Lists (v : FatData) (handle index : Nat) (d : FatDirent) : Prop :=
  ∃ entry junk fuel,
    runLoop (v.readdirRound junk index) fuel ((v.readDirent entry handle).firstCluster, 0) =
      some (some d) ∧
    v.readdir fuel entry junk handle index =
      some (.ok (f8d3ToReadable d.name, if d.isDirectory then .dir else .file))

/-- Each entry that is listed under an 8.3 name is found under this name. -/
def FindsListed (v : FatData) (handle : Nat) : Prop :=
  ∀ index d (n : ShortName), v.Lists handle index d →
    cString (f8d3ToReadable d.name) = n.readable → ∀ entry junk, ∃ fuel found,
      v.lookup fuel entry junk n.readable handle = some (.ok found.handle) ∧
      v.Finds (componentName n.readable) junk (v.readDirent entry handle).firstCluster found ∧
      found.dirent.name = d.name

/-- Each entry that is listed under an 8.3 name is stored in the padded form of this
name, and it, or another with the same characters, is in front of the end of the
directory. -/
def ListedInFront (v : FatData) (first : Nat) : Prop :=
  ∀ j, v.Reaches first j → ∀ d ∈ listed (v.diskEntries (v.link^[j] first)), ∀ n : ShortName,
    cString (f8d3ToReadable d.name) = n.readable → d.name = n.padded ∧
      ∃ i, v.Reaches first i ∧ HasNamed d.name (v.diskEntries (v.link^[i] first)) ∧
        ∀ k < i, NoEnd (v.diskEntries (v.link^[k] first))

variable {v : FatData} {component : List Char} {junk : Nat → Buffer} {buffer : Buffer}
  {found : DirentRef} {d : FatDirent} {handle first cluster index i j k fuel : Nat}

/-! ### Searches -/

theorem upToEnd_of_noEnd {ds : List FatDirent} (h : NoEnd ds) : upToEnd ds = ds :=
  List.takeWhile_eq_self_iff.mpr fun d hd => decide_eq_true (h d hd)

theorem firstByte_of_mem_upToEnd {ds : List FatDirent} (hd : d ∈ upToEnd ds) :
    d.firstByte ≠ direntEnd := by
  rw [upToEnd] at hd
  simpa only [decide_eq_true_eq] using List.mem_takeWhile_imp hd

theorem mem_upToEnd {ds : List FatDirent} : d ∈ upToEnd ds ↔
    ∃ i, ∃ hi : i < ds.length, ds[i] = d ∧ ∀ k, ∀ hk : k < ds.length, k ≤ i →
      ds[k].firstByte ≠ direntEnd := by
  constructor
  · intro hd
    obtain ⟨i, hi, rfl⟩ := List.mem_iff_getElem.mp hd
    have hstart : upToEnd ds <+: ds := List.takeWhile_prefix _
    refine ⟨i, Nat.lt_of_lt_of_le hi hstart.length_le, (hstart.getElem hi).symm, ?_⟩
    intro k hk hle
    rw [← hstart.getElem (Nat.lt_of_le_of_lt hle hi)]
    exact firstByte_of_mem_upToEnd (List.getElem_mem _)
  · rintro ⟨i, hi, rfl, hfront⟩
    have hall : ∀ d ∈ ds.take (i + 1), decide (d.firstByte ≠ direntEnd) = true := by
      intro d hd
      obtain ⟨k, hk, rfl⟩ := List.mem_take_iff_getElem.mp hd
      exact decide_eq_true (hfront k (by omega) (by omega))
    have hsplit : upToEnd ds = ds.take (i + 1) ++ upToEnd (ds.drop (i + 1)) := by
      rw [upToEnd, upToEnd, ← List.takeWhile_append_of_pos hall, List.take_append_drop]
    rw [hsplit]
    exact List.mem_append_left _ (List.mem_take_iff_getElem.mpr ⟨i, by omega, rfl⟩)

theorem hasNamed_iff : HasNamed component (v.entries buffer) ↔
    ∃ i < v.entryCount, (FatDirent.ofBuffer buffer (32 * i)).isSkipped = false ∧
      (FatDirent.ofBuffer buffer (32 * i)).name = component ∧
      ∀ k ≤ i, (FatDirent.ofBuffer buffer (32 * k)).firstByte ≠ direntEnd := by
  have hlength : (v.entries buffer).length = v.entryCount := by
    rw [entries, List.length_map, List.length_range]
  have hget : ∀ i, ∀ hi : i < (v.entries buffer).length,
      (v.entries buffer)[i] = .ofBuffer buffer (32 * i) := fun i hi => by
    simp only [entries, List.getElem_map, List.getElem_range]
  constructor
  · rintro ⟨d, hd, hskip, hname⟩
    obtain ⟨i, hi, rfl, hfront⟩ := mem_upToEnd.mp hd
    rw [hget i hi] at hskip hname
    refine ⟨i, hlength ▸ hi, hskip, hname, fun k hk => ?_⟩
    have hlt := Nat.lt_of_le_of_lt hk hi
    exact hget k hlt ▸ hfront k hlt hk
  · rintro ⟨i, hi, hskip, hname, hfront⟩
    rw [← hlength] at hi
    refine ⟨_, mem_upToEnd.mpr ⟨i, hi, hget i hi, fun k hk hle => ?_⟩, hskip, hname⟩
    rw [hget k hk]
    exact hfront k hle

theorem Valid.search_hasNamed (hv : v.Valid) (cluster : Nat)
    (h : HasNamed component (v.entries buffer)) :
    ∃ found, found.dirent.name = component ∧
      Loop.Ends (v.searchRound component) ⟨cluster, buffer, 0⟩ (some found) := by
  obtain ⟨j, hj, hskip, hname, hfront⟩ := hasNamed_iff.mp h
  have hat : Decides component (.ofBuffer buffer (32 * j)) := Or.inr ⟨hskip, hname⟩
  obtain ⟨i, hi, hdecides, hbefore, hends⟩ :=
    hv.search_decided ⟨_, mem_entries.mpr ⟨j, hj, rfl⟩, hat⟩
  have hend := hfront i (Nat.le_of_not_lt fun hlt => hbefore j hlt hat)
  have hround := hv.searchRound_entry cluster hi hdecides
  rw [if_neg hend] at hround
  exact ⟨_, (hdecides.resolve_left hend).2, hends cluster _ hround⟩

theorem Valid.search_end (hv : v.Valid) (cluster : Nat)
    (h : ¬ HasNamed component (v.entries buffer)) (hend : ¬ NoEnd (v.entries buffer)) :
    Loop.Ends (v.searchRound component) ⟨cluster, buffer, 0⟩ none := by
  have hex : ∃ d ∈ v.entries buffer, Decides component d := by
    simp only [NoEnd, not_forall, not_not] at hend
    obtain ⟨d, hd, hend⟩ := hend
    exact ⟨d, hd, Or.inl hend⟩
  obtain ⟨i, hi, hdecides, hbefore, hends⟩ := hv.search_decided hex
  have hround := hv.searchRound_entry cluster hi hdecides
  by_cases hfirst : (FatDirent.ofBuffer buffer (32 * i)).firstByte = direntEnd
  · rw [if_pos hfirst] at hround
    exact hends cluster _ hround
  · -- the entries in front are no end either, so the search would have its entry
    obtain ⟨hskip, hname⟩ := hdecides.resolve_left hfirst
    refine absurd (hasNamed_iff.mpr ⟨i, hi, hskip, hname, fun k hk hend => ?_⟩) h
    rcases Nat.eq_or_lt_of_le hk with rfl | hlt
    · exact hfirst hend
    · exact hbefore k hlt (Or.inl hend)

theorem Finds.name (h : v.Finds component junk first found) : found.dirent.name = component := by
  obtain ⟨fuel, hrun⟩ := h
  refine Loop.run_invariant (fun _ => True)
    (fun res => ∀ found, res = some found → found.dirent.name = component)
    (fun _ _ _ _ => trivial) ?_ trivial hrun found rfl
  rintro at_ res - hround found rfl
  obtain ⟨refilled, -, hround⟩ := Option.bind_eq_some_iff.mp hround
  cases refilled with
  | none => cases hround
  | some at_ =>
      dsimp only at hround
      split at hround
      · cases hround
      · split at hround
        · cases hround
        · split at hround
          · rename_i hname
            cases hround
            exact hname
          · cases hround

theorem Valid.entries_disk (hv : v.Valid) (buffer : Buffer)
    (hdevice : v.getFirstClusterSector cluster + v.bpb.sectorsPerCluster ≤ v.backing.sectors) :
    v.entries (v.readCluster cluster buffer) = v.diskEntries cluster := by
  have hcount := hv.bytesPerCluster_eq
  rw [bytesPerCluster, hv.bytesPerSector] at hcount
  refine List.map_congr_left fun i hi => FatDirent.ofBuffer_congr fun j hj => ?_
  have hi := List.mem_range.mp hi
  rw [readCluster_apply _ hdevice (by omega), readCluster_apply _ hdevice (by omega)]

/-- A search comes to an entry exactly when the links lead to a cluster with its name, by
clusters without an end. -/
theorem Valid.search_finds_iff (hv : v.Valid) (buffer : Buffer) :
    (∃ found : DirentRef, found.dirent.name = component ∧
      Loop.Ends (v.searchRound component) ⟨cluster, buffer, 0⟩ (some found)) ↔
    Leads (fun at_ => HasNamed component (v.entries at_.2))
      (fun at_ => NoEnd (v.entries at_.2) ∧ v.InTable at_.1 ∧ v.link at_.1 < clusterChainEnd)
      v.nextInBuffer (cluster, buffer) := by
  have hkind : (∃ found : DirentRef, found.dirent.name = component ∧
      Loop.Ends (v.searchRound component) ⟨cluster, buffer, 0⟩ (some found)) ↔
      ∃ r : Option DirentRef, (∃ found, r = some found ∧ found.dirent.name = component) ∧
        Loop.Ends (v.searchRound component) (clusterStart (cluster, buffer)) r := by
    constructor
    · rintro ⟨found, hname, hends⟩
      exact ⟨_, ⟨found, rfl, hname⟩, hends⟩
    · rintro ⟨-, ⟨found, rfl, hname⟩, hends⟩
      exact ⟨found, hname, hends⟩
  rw [hkind]
  have hpass : ∀ at_ : Nat × Buffer, ¬ HasNamed component (v.entries at_.2) →
      NoEnd (v.entries at_.2) → ¬ ∃ d ∈ v.entries at_.2, Decides component d := by
    rintro at_ hnot hnoEnd ⟨d, hd, hend | ⟨hskip, hname⟩⟩
    · exact hnoEnd d hd hend
    · exact hnot ⟨d, (upToEnd_of_noEnd hnoEnd).symm ▸ hd, hskip, hname⟩
  apply Leads.exists_ends_of_kind_iff
  · rintro ⟨cluster, buffer⟩ hnamed
    obtain ⟨found, hname, hends⟩ := hv.search_hasNamed cluster hnamed
    exact ⟨_, ⟨found, rfl, hname⟩, hends⟩
  · rintro ⟨cluster, buffer⟩ hnot hstays r hends ⟨found, rfl, -⟩
    by_cases hnoEnd : NoEnd (v.entries buffer)
    · have hpasses : Relation.TransGen (Loop.Goes (v.searchRound component))
          ⟨cluster, buffer, 0⟩ ⟨cluster, buffer, v.bytesPerCluster⟩ :=
        hv.search_passes_cluster (hpass (cluster, buffer) hnot hnoEnd)
      by_cases hin : v.InTable cluster
      · have hlink : clusterChainEnd ≤ v.link cluster :=
          Nat.le_of_not_lt fun hlink => hstays ⟨hnoEnd, hin, hlink⟩
        have hlast := hv.searchRound_last component buffer hin hlink
        cases hends.unique ((Loop.Ends.now hlast).of_transGen hpasses)
      · exact Loop.not_ends_of_reflTransGen_fault hpasses.to_reflTransGen
          (hv.searchRound_outside hin) hends
    · cases hends.unique (hv.search_end cluster hnot hnoEnd)
  · rintro ⟨cluster, buffer⟩ hnot ⟨hnoEnd, hin, hlink⟩
    exact ⟨_, hv.search_passes_cluster (hpass (cluster, buffer) hnot hnoEnd),
      hv.searchRound_link hin hlink⟩

theorem nextInBuffer_iterate (first : Nat) (buffer : Buffer) (n : Nat) :
    (v.nextInBuffer^[n] (first, buffer)).1 = v.link^[n] first := by
  induction n with
  | zero => rfl
  | succ n ih =>
      rw [Function.iterate_succ_apply', Function.iterate_succ_apply', nextInBuffer, ih]

/-- What a search of a directory on the device comes to. -/
theorem Valid.finds_iff (hv : v.Valid) (hfirst : first < clusterChainEnd)
    (hdevice : ∀ j, v.Reaches first j →
      v.getFirstClusterSector (v.link^[j] first) + v.bpb.sectorsPerCluster ≤ v.backing.sectors) :
    (∃ found, found.dirent.name = component ∧ v.Finds component junk first found) ↔
      ∃ i, v.Reaches first i ∧ HasNamed component (v.diskEntries (v.link^[i] first)) ∧
        ∀ k < i, NoEnd (v.diskEntries (v.link^[k] first)) := by
  have hentries : ∀ k, v.Reaches first k →
      v.entries (v.nextInBuffer^[k] (first, v.readCluster first (junk first))).2 =
        v.diskEntries (v.link^[k] first) := by
    intro k hreach
    cases k with
    | zero => exact hv.entries_disk _ (hdevice 0 hreach)
    | succ k =>
        rw [Function.iterate_succ_apply', nextInBuffer, nextInBuffer_iterate,
          ← Function.iterate_succ_apply' v.link]
        exact hv.entries_disk _ (hdevice _ hreach)
  refine (hv.search_finds_iff (v.readCluster first (junk first))).trans ?_
  constructor
  · rintro ⟨n, hnamed, hway⟩
    simp only [nextInBuffer_iterate] at hway
    have hreach : ∀ k ≤ n, v.Reaches first k := by
      refine fun k hk => ⟨fun i hi => (hway i (by omega)).2.1, fun i hi => ?_⟩
      cases i with
      | zero => exact hfirst
      | succ i =>
          rw [Function.iterate_succ_apply']
          exact (hway i (by omega)).2.2
    rw [hentries n (hreach n (Nat.le_refl n))] at hnamed
    refine ⟨n, hreach n (Nat.le_refl n), hnamed, fun k hk => ?_⟩
    rw [← hentries k (hreach k hk.le)]
    exact (hway k hk).1
  · rintro ⟨n, hreach, hnamed, hway⟩
    have hbefore : ∀ k ≤ n, v.Reaches first k := fun k hk =>
      ⟨fun i hi => hreach.inTable i (by omega), fun i hi => hreach.lt i (by omega)⟩
    refine ⟨n, ?_, fun k hk => ⟨?_, ?_, ?_⟩⟩
    · change HasNamed component (v.entries (v.nextInBuffer^[n] _).2)
      rw [hentries n hreach]
      exact hnamed
    · rw [hentries k (hbefore k hk.le)]
      exact hway k hk
    · rw [nextInBuffer_iterate]
      exact hreach.inTable k hk
    · rw [nextInBuffer_iterate, ← Function.iterate_succ_apply' v.link]
      exact hreach.lt (k + 1) hk

/-! ### Listings -/

/-- A listing gives an entry exactly when the links lead to its cluster, with the index
in it. -/
theorem Valid.listing_iff (hv : v.Valid) (first : Nat) :
    Loop.Ends (v.readdirRound junk index) (first, 0) (some d) ↔
      Leads (fun at_ => at_.1 < clusterChainEnd ∧
          entryAt (v.clusterListing junk at_.1) at_.2 index = some d)
        (fun at_ => at_.1 < clusterChainEnd ∧ v.InTable at_.1 ∧
          entryAt (v.clusterListing junk at_.1) at_.2 index = none)
        (v.nextInListing junk) (first, 0) := by
  have hkind : Loop.Ends (v.readdirRound junk index) (first, 0) (some d) ↔
      ∃ r, r = some d ∧ Loop.Ends (v.readdirRound junk index) (id (first, 0)) r :=
    ⟨fun h => ⟨_, rfl, h⟩, fun ⟨_, heq, h⟩ => heq ▸ h⟩
  rw [hkind]
  apply Leads.exists_ends_of_kind_iff
  · rintro ⟨cluster, k⟩ ⟨hlt, hentry⟩
    refine ⟨_, rfl, .now ?_⟩
    rw [id, hv.readdirRound_eq hlt, hentry]
  · rintro ⟨cluster, k⟩ hnot hstays r hends rfl
    by_cases hlt : cluster < clusterChainEnd
    · cases hentry : entryAt (v.clusterListing junk cluster) k index with
      | some other =>
          have hround : v.readdirRound junk index (cluster, k) = some (.inr (some other)) := by
            rw [hv.readdirRound_eq hlt, hentry]
          obtain rfl := Option.some.inj (hends.unique (.now hround))
          exact hnot ⟨hlt, hentry⟩
      | none =>
          have hout : ¬ v.InTable cluster := fun hin => hstays ⟨hlt, hin, hentry⟩
          refine Loop.not_ends_of_reflTransGen_fault .refl ?_ hends
          rw [id, hv.readdirRound_eq hlt, hentry, hv.nextCluster_none hout]
          rfl
    · have hround : v.readdirRound junk index (cluster, k) = some (.inr none) := by
        rw [readdirRound, if_neg hlt]
      cases hends.unique (.now hround)
  · rintro ⟨cluster, k⟩ hnot ⟨hlt, hin, hentry⟩
    refine ⟨_, .single ?_, rfl⟩
    change v.readdirRound junk index (cluster, k) = _
    rw [hv.readdirRound_eq hlt, hentry, hv.nextCluster_eq hin]
    rfl

theorem nextInListing_iterate (junk : Nat → Buffer) (first n : Nat) :
    ((v.nextInListing junk)^[n] (first, 0)).1 = v.link^[n] first := by
  induction n with
  | zero => rfl
  | succ n ih =>
      rw [Function.iterate_succ_apply', Function.iterate_succ_apply', nextInListing, ih]

/-- The entries counted in front of a cluster. -/
def listedBefore (v : FatData) (junk : Nat → Buffer) (first n : Nat) : Nat :=
  ((v.nextInListing junk)^[n] (first, 0)).2

theorem listedBefore_le (junk : Nat → Buffer) (first : Nat) (hij : i < j) :
    v.listedBefore junk first i + (v.clusterListing junk (v.link^[i] first)).length ≤
      v.listedBefore junk first j := by
  have hsucc : ∀ n, v.listedBefore junk first (n + 1) = v.listedBefore junk first n +
      (v.clusterListing junk (v.link^[n] first)).length := by
    intro n
    rw [listedBefore, Function.iterate_succ_apply', nextInListing, nextInListing_iterate]
    rfl
  induction j with
  | zero => exact absurd hij (Nat.not_lt_zero i)
  | succ j ih =>
      rw [hsucc]
      rcases Nat.eq_or_lt_of_le (Nat.le_of_lt_succ hij) with rfl | hlt
      · exact Nat.le_refl _
      · exact (ih hlt).trans (Nat.le_add_right _ _)

theorem Valid.exists_listing_iff (hv : v.Valid) :
    (∃ index, Loop.Ends (v.readdirRound junk index) (first, 0) (some d)) ↔
      ∃ j, v.Reaches first j ∧ d ∈ v.clusterListing junk (v.link^[j] first) := by
  simp only [hv.listing_iff]
  constructor
  · rintro ⟨index, n, ⟨hlt, hentry⟩, hway⟩
    simp only [nextInListing_iterate] at hlt hentry hway
    refine ⟨n, ⟨fun i hi => (hway i hi).2.1, fun i hi => ?_⟩, ?_⟩
    · rcases Nat.eq_or_lt_of_le hi with rfl | hbefore
      · exact hlt
      · exact (hway i hbefore).1
    · rw [entryAt] at hentry
      split at hentry
      · exact List.mem_of_getElem? hentry
      · cases hentry
  · rintro ⟨j, hreach, hmem⟩
    obtain ⟨p, hp, rfl⟩ := List.mem_iff_getElem.mp hmem
    refine ⟨v.listedBefore junk first j + p, j, ⟨?_, ?_⟩, fun i hi => ⟨?_, ?_, ?_⟩⟩
    · rw [nextInListing_iterate]
      exact hreach.lt j (Nat.le_refl j)
    · rw [nextInListing_iterate]
      change entryAt _ (v.listedBefore junk first j) _ = _
      rw [entryAt, if_pos (Nat.le_add_right _ _), Nat.add_sub_cancel_left,
        List.getElem?_eq_getElem hp]
    · rw [nextInListing_iterate]
      exact hreach.lt i hi.le
    · rw [nextInListing_iterate]
      exact hreach.inTable i hi
    · have hle := listedBefore_le (v := v) junk first hi
      rw [nextInListing_iterate]
      refine entryAt_none ?_
      change ¬ (v.listedBefore junk first i ≤ _ ∧ _ < v.listedBefore junk first i + _)
      omega

namespace IsDirectory

theorem lists_iff (hv : v.Valid) (hdir : v.IsDirectory handle first) :
    (∃ index, v.Lists handle index d) ↔
      ∃ j, v.Reaches first j ∧ d ∈ listed (v.diskEntries (v.link^[j] first)) := by
  have hdisk : ∀ junk j, v.Reaches first j → v.clusterListing junk (v.link^[j] first) =
      listed (v.diskEntries (v.link^[j] first)) := fun junk j hreach => by
    rw [clusterListing, hv.entries_disk _ (hdir.device j hreach)]
  constructor
  · rintro ⟨index, entry, junk, fuel, hrun, -⟩
    rw [hdir.firstCluster] at hrun
    obtain ⟨j, hreach, hmem⟩ := hv.exists_listing_iff.mp ⟨index, fuel, hrun⟩
    rw [hdisk junk j hreach] at hmem
    exact ⟨j, hreach, hmem⟩
  · rintro ⟨j, hreach, hmem⟩
    rw [← hdisk (fun _ _ => 0) j hreach] at hmem
    obtain ⟨index, fuel, hrun⟩ := hv.exists_listing_iff.mpr ⟨j, hreach, hmem⟩
    rw [← hdir.firstCluster fun _ => 0] at hrun
    obtain ⟨hdeleted, hend⟩ := hdir.inUse fun _ => 0
    refine ⟨index, _, _, fuel, hrun, ?_⟩
    rw [readdir, if_neg (not_or.mpr ⟨hdeleted, hend⟩), hrun]
    rfl

/-- A search for an 8.3 name in a directory. -/
theorem lookup_readable (hdir : v.IsDirectory handle first) (n : ShortName) (entry : Buffer) :
    (∃ fuel found, v.lookup fuel entry junk n.readable handle = some (.ok found.handle) ∧
      v.Finds (componentName n.readable) junk (v.readDirent entry handle).firstCluster found ∧
      found.dirent.name = d.name) ↔
    ∃ found, found.dirent.name = d.name ∧ v.Finds n.padded junk first found := by
  have hlength := n.length_readable
  have hlookup : ∀ fuel, v.lookup fuel entry junk n.readable handle =
      (v.search fuel n.padded (v.openCluster (junk first) first)).map lookupAnswer := by
    intro fuel
    rw [lookup_directory entry n.readable handle (hdir.directory entry)
      (by rw [n.normalizeFatPath_readable]; omega), n.normalizeFatPath_readable,
      List.take_of_length_le hlength, n.componentName_readable, hdir.firstCluster]
    refine congrArg (Option.map · _) (funext fun found => ?_)
    cases found <;> rfl
  simp only [hlookup, n.componentName_readable, hdir.firstCluster]
  constructor
  · rintro ⟨-, found, -, hfinds, hname⟩
    exact ⟨found, hname, hfinds⟩
  · rintro ⟨found, hname, fuel, hsearch⟩
    refine ⟨fuel, found, ?_, ⟨fuel, hsearch⟩, hname⟩
    rw [search, hsearch]
    rfl

/-- The listed entries with 8.3 names are found exactly when they are stored padded, in
front of the end of the directory. -/
theorem findsListed_iff (hv : v.Valid) (hdir : v.IsDirectory handle first) :
    v.FindsListed handle ↔ v.ListedInFront first := by
  constructor
  · intro hfinds j hreach d hd n hname
    obtain ⟨index, hlists⟩ := (hdir.lists_iff hv).mpr ⟨j, hreach, hd⟩
    have hfound := hfinds index d n hlists hname (fun _ => 0) fun _ _ => 0
    rw [hdir.lookup_readable] at hfound
    obtain ⟨found, hsame, hfound⟩ := hfound
    have hpadded : found.dirent.name = n.padded := hfound.name
    rw [← hsame, hpadded]
    exact ⟨rfl, (hv.finds_iff (hreach.lt 0 (Nat.zero_le j)) hdir.device).mp
      ⟨found, hpadded, hfound⟩⟩
  · intro hfront index d n hlists hname entry junk
    obtain ⟨j, hreach, hd⟩ := (hdir.lists_iff hv).mp ⟨index, hlists⟩
    obtain ⟨hpadded, hin⟩ := hfront j hreach d hd n hname
    rw [hdir.lookup_readable, hpadded]
    rw [hpadded] at hin
    exact (hv.finds_iff (hreach.lt 0 (Nat.zero_le j)) hdir.device).mpr hin

end IsDirectory

end FatData

open FatData

/-- 8.3 names go through the three converters and come back. -/
def ShortNamesConvert : Prop :=
  ∀ n : ShortName,
    (∀ last, f8d3Buffer (n.padded ++ [last]) =
      n.readable ++ List.replicate (12 - n.readable.length) '\x00') ∧
    componentName n.readable = n.padded ∧ direntName n.readable (fun _ => 0) = n.padded ∧
    normalizeFatPath n.readable = n.readable

theorem shortNamesConvert : ShortNamesConvert := by
  refine fun n => ⟨fun last => ?_, n.componentName_readable, n.direntName_readable,
    n.normalizeFatPath_readable⟩
  rw [f8d3Buffer_eq, n.f8d3ToReadable_padded]

/-- 8.3 names come back, and in a directory each entry that is listed under one is found
under it exactly when these entries are stored padded, in front of the end. -/
theorem short_names_convert_iff {v : FatData} {handle first : Nat} (hv : v.Valid)
    (hdir : v.IsDirectory handle first) :
    ShortNamesConvert ∧ v.FindsListed handle ↔ v.ListedInFront first :=
  (and_iff_right shortNamesConvert).trans (hdir.findsListed_iff hv)

/-- A volume with one file in its root directory, which has one cluster. -/
def listedVolume (name : List UInt8) : FatData :=
  { uniformVolume 0 0x0FFFFFFF with
    backing :=
      { byte := fun i => if 1024 ≤ i then name.getD (i - 1024) 0 else 0, sectors := 2 ^ 32 } }

theorem listedVolume_valid (name : List UInt8) : (listedVolume name).Valid :=
  ⟨rfl, Nat.one_pos, by simp [listedVolume, uniformVolume]⟩

theorem listedVolume_isDirectory (name : List UInt8) : (listedVolume name).IsDirectory 0 2 where
  directory _ := (by decide : decide (direntDirectory &&& direntDirectory ≠ 0) = true)
  inUse _ := ⟨(by decide : 'R' ≠ direntDeleted), (by decide : 'R' ≠ direntEnd)⟩
  firstCluster _ := (by decide : 2 ^ 16 * (2 / 2 ^ 16 % 2 ^ 16) + 2 % 2 ^ 16 = 2)
  device j _ := by
    simp only [listedVolume, uniformVolume, getFirstClusterSector]
    omega

/-- The file `README.TXT`. -/
theorem short_names_convert_readme :
    ShortNamesConvert ∧ (listedVolume ("README  TXT".toList.map Char.toUInt8)).FindsListed 0 ↔
      (listedVolume ("README  TXT".toList.map Char.toUInt8)).ListedInFront 2 :=
  short_names_convert_iff (listedVolume_valid _) (listedVolume_isDirectory _)

/-- A file with a space in its name, `A B`, is listed as `AB`, and there is no `AB`. -/
theorem inner_space_not_found :
    ¬ (ShortNamesConvert ∧
      (listedVolume ("A B        ".toList.map Char.toUInt8)).FindsListed 0) := by
  set v := listedVolume ("A B        ".toList.map Char.toUInt8)
  rintro ⟨-, hfinds⟩
  have hfront := ((listedVolume_isDirectory _).findsListed_iff (listedVolume_valid _)).mp hfinds
  let n : ShortName :=
    ⟨['A', 'B'], [], by decide, by decide, by decide,
      List.forall_mem_cons.mpr ⟨by decide, List.forall_mem_cons.mpr ⟨by decide, nofun⟩⟩, nofun⟩
  have hreach : v.Reaches 2 0 := by
    refine ⟨nofun, fun i hi => ?_⟩
    obtain rfl := Nat.le_zero.mp hi
    exact (by decide : 2 < clusterChainEnd)
  have hlisted : ((listed (v.diskEntries 2)).map FatDirent.name) = ["A B        ".toList] := by
    decide
  obtain ⟨d, hd, hname⟩ := List.mem_map.mp (hlisted ▸ List.mem_singleton_self _)
  obtain ⟨hpadded, -⟩ := hfront 0 hreach d hd n (by rw [hname]; decide)
  rw [hname] at hpadded
  revert hpadded
  decide

end GlitchedOS
