/-
Read-only mounts of a ramfs and of a FAT volume.  The operations of both drivers
refuse to change such a mount, but for `ramfs_truncate`.
-/
import GlitchedOS.Vfs.ReadOnly
import GlitchedOS.Fs.Ramfs
import GlitchedOS.Fs.FatWrite
import GlitchedOS.Fs.FatScans

namespace GlitchedOS

/-- What a call meets besides a ramfs: the address of a new entry and the answer of a
device. -/
structure RamfsEnv where
  new : Nat
  device : Int

/-- `ramfs_register` -/
def ramfsFilesystem : Filesystem Ramfs RamfsEnv where
  walk _ s path := s.lookupPath path
  stat _ s p := (s.get p).map fun d => .ok d.type
  hasEntry _ s p := (s.readdir p 0).map fun res => decide (res ≠ .error 0)
  createFile env s path := s.createFile env.new path
  createDirectory env s path := s.createDirectory env.new path
  mknod := some fun env s path type device => s.mknod env.new path type device
  openFile := some fun _ s p => (s.openDirent p).map fun s => (0, s)
  closeFile := some fun _ s p => s.closeDirent p
  write env s p buffer offset := s.write env.device p buffer offset
  truncate _ s p newSize := s.truncate p newSize
  remove _ s path := s.delete path
  rename _ s oldPath newPath := s.rename oldPath newPath

/-- The walk of `find_mountpoint` on a FAT volume, along the names of a path. -/
def FatData.walkNames (env : FatEnv) (v : FatData) : List (List Char) → Nat →
    Option (Except Int Nat)
  | [], handle => some (.ok handle)
  | name :: rest, handle =>
    if 256 ≤ name.length then none
    else do
      match ← v.lookup env.fuel env.sector env.junk name handle with
      | .error res => some (.error res)
      | .ok handle => FatData.walkNames env v rest handle

/-- `fat_register` -/
def fatFilesystem : Filesystem FatData FatEnv where
  walk env v path := v.walkNames env (pathNames path) 0
  stat env v handle := some ((v.stat env.sector handle).map Prod.fst)
  hasEntry env v handle :=
    (v.readdir env.fuel env.sector env.junk handle 0).map fun res => decide (res ≠ .error 0)
  createFile env v path := v.createFile env path
  createDirectory env v path := v.createDirectory env path
  mknod := none
  openFile := none
  closeFile := none
  write env v handle buffer offset := v.writeToFile env handle buffer offset
  truncate env v handle newSize := v.truncate env handle newSize
  remove env v path := v.delete env path
  rename env v oldPath newPath := v.rename env oldPath newPath

namespace Ramfs

variable {s s' : Ramfs} {p : Nat} {res : Int}

/-- A mount with the flag, and with no entry that waits for its last `close`. -/
structure ReadOnly (s : Ramfs) : Prop where
  readOnly : s.readOnly = true
  toDelete : ∀ p, (s.dirents p).toDelete = false

theorem ramfsMount_readOnly (root : Nat) : (ramfsMount root true).ReadOnly :=
  ⟨rfl, fun _ => rfl⟩

/-- What a mount holds: everything but the counts of openings. -/
def view (s : Ramfs) : Ramfs :=
  { s with dirents := fun p => { s.dirents p with openCount := 0 } }

theorem modify_openCount {f : Nat → Nat}
    (h : s.modify p (fun d => { d with openCount := f d.openCount }) = some s')
    (hro : s.ReadOnly) : s'.ReadOnly ∧ s'.view = s.view := by
  unfold modify at h
  split at h
  · cases h
    refine ⟨⟨hro.readOnly, fun q => ?_⟩, ?_⟩
    · dsimp only [setDirent]
      split <;> exact hro.toDelete q
    · simp only [view, setDirent, mk.injEq, and_self, and_true]
      funext q
      split <;> rfl
  · cases h

theorem ReadOnly.openDirent (hro : s.ReadOnly) (h : s.openDirent p = some s') :
    s'.ReadOnly ∧ s'.view = s.view :=
  modify_openCount (f := (· + 1)) h hro

theorem ReadOnly.closeDirent (hro : s.ReadOnly) (h : s.closeDirent p = some (res, s')) :
    s'.ReadOnly ∧ s'.view = s.view := by
  obtain ⟨s₁, hmodify, h⟩ := Option.bind_eq_some_iff.mp h
  obtain ⟨hro₁, hview⟩ := modify_openCount (f := (· - 1)) hmodify hro
  obtain ⟨d, hget, h⟩ := Option.bind_eq_some_iff.mp h
  have hd : d.toDelete = false := by
    unfold Ramfs.get at hget
    split at hget
    · cases hget
      exact hro₁.toDelete p
    · cases hget
  rw [if_neg (by simp [hd])] at h
  cases h
  exact ⟨hro₁, hview⟩

theorem walkNames_neg {notDir : Int} (hneg : notDir < 0) {names : List (List Char)}
    (h : s.walkNames notDir names p = some (.error res)) : res < 0 := by
  induction names generalizing p with
  | nil => cases h
  | cons name rest ih =>
      unfold walkNames at h
      split at h
      · cases h
      · obtain ⟨d, -, h⟩ := Option.bind_eq_some_iff.mp h
        split at h
        · cases h
          exact hneg
        · obtain ⟨found, -, h⟩ := Option.bind_eq_some_iff.mp h
          cases found with
          | none => cases h; decide
          | some q => exact ih h

end Ramfs

theorem ramfsFilesystem_refuses :
    ramfsFilesystem.Refuses Ramfs.ReadOnly (fun _ => True) Ramfs.view where
  createFile hro _ := ⟨eRofs, by decide, if_pos hro.readOnly⟩
  createDirectory hro _ := ⟨eRofs, by decide, if_pos hro.readOnly⟩
  mknod hmknod hro := by
    cases hmknod
    exact ⟨eRofs, by decide, if_pos hro.readOnly⟩
  write hro := ⟨eRofs, by decide, if_pos hro.readOnly⟩
  remove hro := ⟨eRofs, by decide, if_pos hro.readOnly⟩
  rename hro := ⟨eRofs, by decide, if_pos hro.readOnly⟩
  openFile hro h := by
    obtain ⟨s', hopen, h⟩ := Option.map_eq_some_iff.mp h
    cases h
    exact hro.openDirent hopen
  closeFile hro h := hro.closeDirent h
  walk_neg h := Ramfs.walkNames_neg (by decide) h
  stat_neg h := by
    obtain ⟨d, -, h⟩ := Option.map_eq_some_iff.mp h
    cases h

/-- A path that fits the buffer of `fat_create_file` and `fat_create_directory`. -/
def FatPathFits (path : List Char) : Prop := (normalizeFatPath path).length < 512

namespace FatData

variable {v : FatData} {env : FatEnv} {res : Int}

theorem lookup_neg {fuel : Nat} {entry : Buffer} {junk : Nat → Buffer} {name : List Char}
    {parent : Nat} (h : v.lookup fuel entry junk name parent = some (.error res)) : res < 0 := by
  unfold lookup at h
  dsimp only at h
  split at h
  · cases h
    decide
  · obtain ⟨npath, -, h⟩ := Option.bind_eq_some_iff.mp h
    obtain ⟨found, -, h⟩ := Option.bind_eq_some_iff.mp h
    cases found with
    | none => cases h; decide
    | some ref => cases h

theorem walkNames_neg {names : List (List Char)} {handle : Nat}
    (h : v.walkNames env names handle = some (.error res)) : res < 0 := by
  induction names generalizing handle with
  | nil => cases h
  | cons name rest ih =>
      unfold walkNames at h
      split at h
      · cases h
      · obtain ⟨found, hlookup, h⟩ := Option.bind_eq_some_iff.mp h
        cases found with
        | error res' => cases h; exact lookup_neg hlookup
        | ok handle => exact ih h

theorem createFile_readOnly {path : List Char} (hro : v.readOnly = true)
    (hfits : FatPathFits path) : v.createFile env path = some (eRofs, v) := by
  unfold FatPathFits at hfits
  simp [createFile, normalizeInto, hfits, hro]

theorem createDirectory_readOnly {path : List Char} (hro : v.readOnly = true)
    (hfits : FatPathFits path) : v.createDirectory env path = some (eRofs, v) := by
  unfold FatPathFits at hfits
  simp [createDirectory, normalizeInto, hfits, hro]

/-- The two functions that make a file copy the path before they look at the flag. -/
theorem createFile_long (v : FatData) (env : FatEnv) {path : List Char}
    (hlong : ¬ FatPathFits path) :
    v.createFile env path = none := by
  unfold FatPathFits at hlong
  simp [createFile, normalizeInto, hlong]

end FatData

/-- Every operation of the FAT driver refuses, and opening and closing do nothing. -/
theorem fatFilesystem_refuses :
    fatFilesystem.Refuses (fun v => v.readOnly = true) FatPathFits id where
  createFile hro hfits := ⟨eRofs, by decide, FatData.createFile_readOnly hro hfits⟩
  createDirectory hro hfits := ⟨eRofs, by decide, FatData.createDirectory_readOnly hro hfits⟩
  mknod hmknod _ := nomatch hmknod
  write hro := ⟨eRofs, by decide, if_pos hro⟩
  remove hro := ⟨eRofs, by decide, if_pos hro⟩
  rename hro := ⟨eRofs, by decide, if_pos hro⟩
  openFile hro h := by cases h; exact ⟨hro, rfl⟩
  closeFile hro h := by cases h; exact ⟨hro, rfl⟩
  walk_neg h := FatData.walkNames_neg h
  stat_neg {env v handle res} h := by
    have h : (v.stat env.sector handle).map Prod.fst = .error res := Option.some.inj h
    unfold FatData.stat at h
    dsimp only at h
    split at h
    · cases h
      decide
    · cases h

theorem fatFilesystem_refusesTruncate :
    fatFilesystem.RefusesTruncate fun v => v.readOnly = true :=
  fun _ _ _ _ hro => ⟨eRofs, by decide, if_pos hro⟩

/-- The calls that leave a read-only ramfs as it is: they do not reach `ramfs_truncate`.
A regular file that is only opened is opened, with `O_CREAT`, too. -/
def SparesRamfs (s : MountFiles Ramfs) (a : RamfsEnv × FileCall) : Prop :=
  ramfsFilesystem.ReadsEnd a.1 s a.2 ∧ ¬ ramfsFilesystem.Truncates a.1 s a.2 ∧
    ¬ ramfsFilesystem.OpensOnly a.1 s a.2

/-- The calls that a read-only FAT volume refuses: a path to create a file at fits the
driver's buffer.  A regular file that is only opened is opened, with `O_CREAT`, too. -/
def SparesFat (s : MountFiles FatData) (a : FatEnv × FileCall) : Prop :=
  fatFilesystem.ReadsEnd a.1 s a.2 ∧ fatFilesystem.Fits FatPathFits a.1 s a.2 ∧
    ¬ fatFilesystem.OpensOnly a.1 s a.2

/-- On a read-only ramfs and on a read-only FAT volume each call of a run comes back,
leaves all files, directories and sectors, and fails if it asks for a change. -/
theorem read_only_mounts_immutable {s : MountFiles Ramfs} {v : MountFiles FatData}
    {ramfsRun : List (RamfsEnv × FileCall)} {fatRun : List (FatEnv × FileCall)}
    (hs : s.fs.ReadOnly) (hv : v.fs.readOnly = true)
    (hramfs : Along ramfsFilesystem.step SparesRamfs s ramfsRun)
    (hfat : Along fatFilesystem.step SparesFat v fatRun) :
    Along ramfsFilesystem.step (ramfsFilesystem.Immutable Ramfs.view) s ramfsRun ∧
      Along fatFilesystem.step (fatFilesystem.Immutable id) v fatRun := by
  constructor
  · refine ramfsFilesystem_refuses.run hs (hramfs.mono ?_)
    rintro s a ⟨hreads, htruncates, hopens⟩
    refine ⟨hreads, ?_, fun h => absurd h htruncates, hopens⟩
    cases a.2 <;> first | trivial | exact fun _ _ => trivial
  · refine fatFilesystem_refuses.run hv (hfat.mono ?_)
    rintro v a ⟨hreads, hfits, hopens⟩
    exact ⟨hreads, hfits, fun _ => fatFilesystem_refusesTruncate, hopens⟩

/-- A volume of 128 clusters that is mounted read-only. -/
def readOnlyVolume : FatData := { uniformVolume 0 0 with readOnly := true }

def plainFatEnv : FatEnv :=
  ⟨8, fun _ _ => 0, fun _ => 0, fun _ => 0, 0, 0, 4096 * 32, by decide⟩

theorem read_only_mounts_immutable_creating :
    Along ramfsFilesystem.step (ramfsFilesystem.Immutable Ramfs.view) ⟨ramfsMount 0 true, []⟩
      [(⟨1, 0⟩, .createFile "/f".toList), (⟨1, 0⟩, .createDirectory "/d".toList),
        (⟨1, 0⟩, .mknod "/n".toList .char 5)] ∧
    Along fatFilesystem.step (fatFilesystem.Immutable id) ⟨readOnlyVolume, []⟩
      [(plainFatEnv, .createFile "/f".toList), (plainFatEnv, .createDirectory "/d".toList),
        (plainFatEnv, .mknod "/n".toList .char 5)] :=
  read_only_mounts_immutable (Ramfs.ramfsMount_readOnly 0) rfl
    ⟨⟨trivial, id, id⟩, ⟨trivial, id, id⟩, ⟨trivial, id, id⟩, trivial⟩
    ⟨⟨trivial, by unfold Filesystem.Fits FatPathFits; decide, id⟩,
      ⟨trivial, by unfold Filesystem.Fits FatPathFits; decide, id⟩, ⟨trivial, trivial, id⟩,
      trivial⟩

theorem Ramfs.truncate_fileSize {s s' : Ramfs} {p newSize : Nat} {res : Int}
    (h : s.truncate p newSize = some (res, s')) :
    res = 0 ∧ (s'.dirents p).fileSize = newSize := by
  obtain ⟨d, -, h⟩ := Option.bind_eq_some_iff.mp h
  obtain ⟨blocks, -, h⟩ := Option.bind_eq_some_iff.mp h
  obtain ⟨s₁, hmodify, h⟩ := Option.bind_eq_some_iff.mp h
  cases h
  unfold modify at hmodify
  split at hmodify
  · cases hmodify
    simp [setDirent]
  · cases hmodify

theorem foldl_normalizeRound {path output : List Char} (h : '/' ∉ path) :
    path.foldl normalizeRound output = output ++ path.map Char.toUpper := by
  induction path generalizing output with
  | nil => exact (List.append_nil output).symm
  | cons c rest ih =>
      rw [List.mem_cons, not_or] at h
      have hround : normalizeRound output c = output ++ [c.toUpper] :=
        if_neg fun hslash => h.1 hslash.1.symm
      rw [List.foldl_cons, hround, ih h.2, List.append_assoc]
      rfl

/-- Behind its first slash a path without slashes keeps its length, but for one. -/
theorem length_normalizeFatPath {path : List Char} (h : '/' ∉ path) :
    path.length ≤ (normalizeFatPath ('/' :: path)).length + 1 := by
  have hdrop : ('/' :: path).dropWhile (· = '/') = path := by
    cases path with
    | nil => rfl
    | cons c rest =>
        have hc : c ≠ '/' := fun hc => h (hc ▸ List.mem_cons_self)
        simp [hc]
  unfold normalizeFatPath
  simp only [hdrop, foldl_normalizeRound h, List.nil_append]
  split
  · rw [List.length_dropLast, List.length_map]
    omega
  · rw [List.length_map]
    omega

/-- The directory of a read-only ramfs can be given a size, and a long path overruns the
buffer of `fat_create_file` on a read-only volume. -/
theorem read_only_mounts_change :
    ((ramfsMount 0 true).ReadOnly ∧
      ¬ ramfsFilesystem.Immutable Ramfs.view ⟨ramfsMount 0 true, []⟩
        (⟨1, 0⟩, .truncate [] 5000)) ∧
    (readOnlyVolume.readOnly = true ∧
      ¬ fatFilesystem.Immutable id ⟨readOnlyVolume, []⟩
        (plainFatEnv, .createFile ('/' :: List.replicate 513 'A'))) := by
  refine ⟨⟨Ramfs.ramfsMount_readOnly 0, ?_⟩, rfl, ?_⟩
  · rintro ⟨res, s', hcall, hview, -⟩
    obtain ⟨⟨res', fs⟩, htruncate, hs'⟩ :
        ∃ x, (ramfsMount 0 true).truncate 0 5000 = some x ∧ (x.1, ⟨x.2, []⟩) = (res, s') :=
      Option.map_eq_some_iff.mp hcall
    cases hs'
    have hsize := (Ramfs.truncate_fileSize htruncate).2
    have hsame : (fs.view.dirents 0).fileSize = ((ramfsMount 0 true).view.dirents 0).fileSize :=
      congrArg (fun fs : Ramfs => (fs.dirents 0).fileSize) hview
    exact absurd (hsize.symm.trans hsame) (by decide)
  · rintro ⟨res, s', hcall, -⟩
    have hlong : ¬ FatPathFits ('/' :: List.replicate 513 'A') := by
      have hslash : '/' ∉ List.replicate 513 'A' :=
        fun h => absurd (List.eq_of_mem_replicate h) (by decide)
      have hlength := length_normalizeFatPath hslash
      rw [List.length_replicate] at hlength
      unfold FatPathFits
      omega
    have hnone := FatData.createFile_long readOnlyVolume plainFatEnv hlong
    change (MountFiles.answer _ (readOnlyVolume.createFile plainFatEnv _)) = _ at hcall
    rw [hnone] at hcall
    cases hcall

end GlitchedOS
