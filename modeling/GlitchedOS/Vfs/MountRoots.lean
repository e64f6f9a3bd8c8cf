/-
`find_mountpoint` on path strings, with the rest of the path behind the last
mount, and `remove_file` and `rename_file`, which take an empty rest for the root
of a mount.  The rest is a slash when the path ends with "..", with "." and a
slash, or is the root itself.
-/
import GlitchedOS.Vfs.Path
import GlitchedOS.Vfs.Mount

namespace GlitchedOS

/-- The mount on a handle of `current`, if there is one. -/
def coveringChild (v : MountTable) (fuel current handle : Nat) : Option (Option Nat) :=
  match (v.mounts current).children with
  | none => some none
  | some first => coveringMount v first handle fuel first

theorem drop_component_lt {c : Char} (hc : c ≠ '/') (more : List Char) :
    ((c :: more).drop (((c :: more).takeWhile (· ≠ '/')).take 256).length).length <
      (c :: more).length := by
  rw [List.takeWhile_cons_of_pos (by simpa using hc), List.length_drop, List.length_take,
    List.length_cons, List.length_cons]
  omega

/-- The loop of `find_mountpoint` over the characters of the resolved path.  A
component of 256 characters has no room for its terminator. -/
def walkLoop (env : WalkEnv) (fuel : Nat) (v : MountTable) (path : List Char)
    (at_ : FileHandle) (remaining : List Char) :
    Option (Except Int (FileHandle × List Char)) :=
  match path with
  | [] => some (.ok (at_, remaining))
  | c :: more =>
    if _hc : c = '/' then walkLoop env fuel v more at_ remaining
    else
      let subdir := ((c :: more).takeWhile (· ≠ '/')).take 256
      let path := (c :: more).drop subdir.length
      if subdir.length = 256 then none
      else match env.lookup at_.mountpoint at_.handle (String.ofList subdir) with
      | .error res => some (.error res)
      | .ok handle =>
        match coveringChild v fuel at_.mountpoint handle with
        | none => none
        | some none => walkLoop env fuel v path ⟨at_.mountpoint, handle⟩ remaining
        | some (some m) => walkLoop env fuel v path ⟨m, env.getRoot m⟩ path
termination_by path.length
decreasing_by
  · exact Nat.lt_succ_self _
  · exact drop_component_lt _hc more
  · exact drop_component_lt _hc more

/-- `find_mountpoint` with `remaining_path`. -/
def findMountpointPath (env : WalkEnv) (fuel : Nat) (v : MountTable) (wd : WorkingDir)
    (path : List Char) : Option (Except Int (FileHandle × List Char)) := do
  let absolute ← makeAbsolute wd.chars path
  let resolved := resolvePath absolute
  walkLoop env fuel v (resolved.dropWhile (· = '/')) ⟨v.root, env.getRoot v.root⟩ resolved

/-- What the file systems answer to `remove_file` and `rename_file`, and which of
them have the operations. -/
structure RemoveEnv where
  stat : FileHandle → Except Int DirentType
  stat_neg : ∀ {file res}, stat file = .error res → res < 0
  readdir : FileHandle → Nat → Int
  hasRemove : Nat → Bool
  hasRename : Nat → Bool

/-- The end of a call: an answer, or the operation of the file system that
answers for it. -/
inductive PathCall where
  | answer (res : Int)
  | remove (mount : Nat) (path : List Char)
  | rename (mount : Nat) (oldPath newPath : List Char)
deriving Repr, DecidableEq

section Calls

variable (env : WalkEnv) (ops : RemoveEnv) (fuel : Nat) (v : MountTable) (wd : WorkingDir)

/-- `remove_file` -/
def removeFile (path : List Char) : Option PathCall := do
  match ← findMountpointPath env fuel v wd path with
  | .error res => some (.answer res)
  | .ok (file, remaining) =>
    if remaining = [] then some (.answer eBusy)
    else match ops.stat file with
    | .error res => some (.answer res)
    | .ok type =>
      if type = .dir ∧ ops.readdir file 0 ≠ 0 then some (.answer eNotempty)
      else if !ops.hasRemove file.mountpoint then some (.answer eNosys)
      else some (.remove file.mountpoint remaining)

/-- `rename_file` -/
def renameFile (oldPath newPath : List Char) : Option PathCall := do
  let old ← findMountpointPath env fuel v wd oldPath
  let new ← findMountpointPath env fuel v wd newPath
  match old, new with
  | .error res, _ => some (.answer res)
  | .ok _, .error res => some (.answer res)
  | .ok (oldFile, oldRemaining), .ok (newFile, newRemaining) =>
    if oldRemaining = [] then some (.answer eBusy)
    else if oldFile.mountpoint ≠ newFile.mountpoint then some (.answer eXdev)
    else if !ops.hasRename oldFile.mountpoint then some (.answer eNosys)
    else some (.rename oldFile.mountpoint oldRemaining newRemaining)

end Calls

/-- The walk along the names of a path, with the names behind the last mount. -/
def mountWalk (env : WalkEnv) (fuel : Nat) (v : MountTable) :
    List (List Char) → FileHandle → List (List Char) →
      Option (Except Int (FileHandle × List (List Char)))
  | [], at_, rest => some (.ok (at_, rest))
  | name :: names, at_, rest =>
    if 256 ≤ name.length then none
    else match env.lookup at_.mountpoint at_.handle (String.ofList name) with
    | .error res => some (.error res)
    | .ok handle =>
      match coveringChild v fuel at_.mountpoint handle with
      | none => none
      | some none => mountWalk env fuel v names ⟨at_.mountpoint, handle⟩ rest
      | some (some m) => mountWalk env fuel v names ⟨m, env.getRoot m⟩ names

/-- The walk of an absolute path from the root file system. -/
def walkFrom (env : WalkEnv) (fuel : Nat) (v : MountTable) (path : List Char) :
    Option (Except Int (FileHandle × List (List Char))) :=
  mountWalk env fuel v (normalNames path) ⟨v.root, env.getRoot v.root⟩ (normalNames path)

variable {env : WalkEnv} {ops : RemoveEnv} {fuel : Nat} {v : MountTable}

theorem crossMount_eq (at_ : FileHandle) (handle : Nat) :
    crossMount env fuel v at_.mountpoint handle =
      (coveringChild v fuel at_.mountpoint handle).map fun
        | none => ⟨at_.mountpoint, handle⟩
        | some m => ⟨m, env.getRoot m⟩ := by
  unfold crossMount coveringChild
  cases (v.mounts at_.mountpoint).children <;> rfl

/-- The walk finds what the walk of the mounts finds. -/
theorem walkPath_of_mountWalk {names rest : List (List Char)} {at_ : FileHandle}
    {found : Except Int (FileHandle × List (List Char))}
    (h : mountWalk env fuel v names at_ rest = some found) :
    walkPath env fuel v (names.map String.ofList) at_ = some (found.map Prod.fst) := by
  induction names generalizing at_ rest with
  | nil =>
      obtain rfl := Option.some.inj h
      rfl
  | cons name names ih =>
      rw [mountWalk] at h
      rw [List.map_cons, walkPath]
      split at h
      · cases h
      · cases hlookup : env.lookup at_.mountpoint at_.handle (String.ofList name) with
        | error res =>
            rw [hlookup] at h
            obtain rfl := Option.some.inj h
            rfl
        | ok handle =>
            rw [hlookup] at h
            dsimp only at h ⊢
            rw [crossMount_eq]
            split at h
            · cases h
            · rename_i hcover
              simpa [hcover] using ih h
            · rename_i m hcover
              simpa [hcover] using ih h

theorem walkLoop_name {name tail : List Char} (hname : IsName name)
    (htail : tail = [] ∨ ∃ more, tail = '/' :: more) (at_ : FileHandle) (remaining : List Char) :
    walkLoop env fuel v (name ++ tail) at_ remaining =
      if 256 ≤ name.length then none
      else match env.lookup at_.mountpoint at_.handle (String.ofList name) with
      | .error res => some (.error res)
      | .ok handle =>
        match coveringChild v fuel at_.mountpoint handle with
        | none => none
        | some none => walkLoop env fuel v tail ⟨at_.mountpoint, handle⟩ remaining
        | some (some m) => walkLoop env fuel v tail ⟨m, env.getRoot m⟩ tail := by
  have hcomponent := takeWhile_name hname htail
  cases name with
  | nil => exact absurd rfl hname.1
  | cons c cs =>
      have hc : c ≠ '/' := fun h => hname.2 (h ▸ List.mem_cons_self)
      rw [List.cons_append] at hcomponent ⊢
      rw [walkLoop, dif_neg hc]
      simp only [hcomponent]
      by_cases hlong : 256 ≤ (c :: cs).length
      · rw [if_pos hlong, if_pos (by rw [List.length_take]; omega)]
      · have hwhole : (c :: cs).take 256 = c :: cs := List.take_of_length_le (by omega)
        have htail : (c :: (cs ++ tail)).drop (c :: cs).length = tail := by
          rw [← List.cons_append, List.drop_left]
        simp only [hwhole, htail]
        rw [if_neg hlong, if_neg (by omega)]

theorem renderPath_cases (names : List (List Char)) (plain : Bool) :
    renderPath names plain = [] ∨ ∃ more, renderPath names plain = '/' :: more := by
  cases names with
  | nil => cases plain <;> simp [renderPath]
  | cons name names => exact .inr ⟨_, rfl⟩

/-- The loop over characters is the walk along the names. -/
theorem walkLoop_renderPath {names rest : List (List Char)} {plain : Bool} {at_ : FileHandle}
    (hnames : ∀ name ∈ names, IsName name) :
    walkLoop env fuel v (renderPath names plain) at_ (renderPath rest plain) =
      (mountWalk env fuel v names at_ rest).map
        (Except.map fun found => (found.1, renderPath found.2 plain)) := by
  induction names generalizing at_ rest with
  | nil => cases plain <;> simp [renderPath, walkLoop, mountWalk, Except.map]
  | cons name names ih =>
      have hname := hnames name List.mem_cons_self
      have hothers : ∀ name ∈ names, IsName name := fun name h =>
        hnames name (List.mem_cons_of_mem _ h)
      have hslash : renderPath (name :: names) plain = '/' :: (name ++ renderPath names plain) := by
        simp [renderPath]
      rw [hslash, walkLoop, dif_pos rfl, walkLoop_name hname (renderPath_cases names plain),
        mountWalk]
      split
      · rfl
      · split
        · rfl
        · split
          · rfl
          · exact ih hothers
          · exact ih hothers

theorem walkLoop_strip (path : List Char) (at_ : FileHandle) (remaining : List Char) :
    walkLoop env fuel v (path.dropWhile (· = '/')) at_ remaining =
      walkLoop env fuel v path at_ remaining := by
  induction path with
  | nil => rfl
  | cons c path ih =>
      by_cases hc : c = '/'
      · rw [List.dropWhile_cons_of_pos (by simpa using hc), ih, walkLoop.eq_def _ _ _ (c :: path)]
        simp [hc]
      · rw [List.dropWhile_cons_of_neg (by simpa using hc)]

variable (env fuel v) in
theorem findMountpointPath_eq (wd : WorkingDir) (path : List Char) :
    findMountpointPath env fuel v wd path = (makeAbsolute wd.chars path).bind fun absolute =>
      (walkFrom env fuel v absolute).map (Except.map fun found =>
        (found.1, renderPath found.2 (plainAfter false (absolute.splitOn '/')))) := by
  cases habsolute : makeAbsolute wd.chars path with
  | none => simp [findMountpointPath, habsolute]
  | some absolute =>
      obtain ⟨hroot, hfits⟩ := makeAbsolute_root habsolute
      simp only [findMountpointPath, habsolute, Option.bind_eq_bind, Option.bind_some,
        walkLoop_strip, resolvePath_eq hroot hfits]
      exact walkLoop_renderPath (normalNames_isName absolute)

/-- The call ends with an error and the file system is not asked. -/
def Refused (call : Option PathCall) : Prop :=
  ∃ res < 0, call = some (.answer res)

section Roots

variable (env : WalkEnv) (ops : RemoveEnv) (fuel : Nat) (v : MountTable) (wd : WorkingDir)

/-- A path can be neither removed nor renamed to any path there is. -/
def Protected (path : List Char) : Prop :=
  Refused (removeFile env ops fuel v wd path) ∧
    ∀ newPath found, findMountpointPath env fuel v wd newPath = some (.ok found) →
      Refused (renameFile env ops fuel v wd path newPath)

/-- The file system has nothing that could remove or rename the file. -/
def RemoveEnv.Inert (file : FileHandle) : Prop :=
  ops.hasRename file.mountpoint = false ∧
    (ops.hasRemove file.mountpoint = false ∨ (∃ res, ops.stat file = .error res) ∨
      (ops.stat file = .ok .dir ∧ ops.readdir file 0 ≠ 0))

/-- A path leads nowhere, or to the root of a mount with a name at its end, or to
a file that nothing could be done to anyway; what counts of it is the part that
fits into the buffer. -/
def LeadsSafely (path : List Char) : Prop :=
  ∃ absolute found, makeAbsolute wd.chars path = some absolute ∧
    walkFrom env fuel v absolute = some found ∧
      ∀ file rest, found = .ok (file, rest) →
        (rest = [] ∧ PlainEnd absolute) ∨ ops.Inert file

/-- A path to the root of a mount ends with a name, or the file system is inert;
of a path that is too long, the part that fits has to lead to something safe. -/
def SafelySpelled (file : FileHandle) (path : List Char) : Prop :=
  if (fullPath wd path).length < maxPath then PlainEnd (fullPath wd path) ∨ ops.Inert file
  else LeadsSafely env ops fuel v wd path

end Roots

theorem renderPath_eq_nil {names : List (List Char)} {plain : Bool} :
    renderPath names plain = [] ↔ names = [] ∧ plain = true := by
  cases plain <;> cases names <;> simp [renderPath]

variable {wd : WorkingDir}

theorem findMountpointPath_neg {path : List Char} {res : Int}
    (h : findMountpointPath env fuel v wd path = some (.error res)) : res < 0 := by
  rw [findMountpointPath_eq] at h
  obtain ⟨absolute, -, h⟩ := Option.bind_eq_some_iff.mp h
  obtain ⟨found, hwalk, hfound⟩ := Option.map_eq_some_iff.mp h
  cases found with
  | ok _ => cases hfound
  | error err =>
      obtain rfl := Except.error.inj hfound
      exact findMountpoint_neg (walkPath_of_mountWalk hwalk)

theorem Refused.error {res : Int} (h : res < 0) : Refused (some (.answer res)) :=
  ⟨res, h, rfl⟩

theorem removeFile_refused_iff {path remaining : List Char} {file : FileHandle}
    (h : findMountpointPath env fuel v wd path = some (.ok (file, remaining))) :
    Refused (removeFile env ops fuel v wd path) ↔
      remaining = [] ∨ ops.hasRemove file.mountpoint = false ∨
        (∃ res, ops.stat file = .error res) ∨
        (ops.stat file = .ok .dir ∧ ops.readdir file 0 ≠ 0) := by
  simp only [removeFile, h, Option.bind_eq_bind, Option.bind_some]
  by_cases hempty : remaining = []
  · simp [hempty, Refused, eBusy]
  · cases hstat : ops.stat file with
    | error res => simpa [hempty] using Refused.error (ops.stat_neg hstat)
    | ok type =>
        by_cases hdir : type = .dir ∧ ops.readdir file 0 ≠ 0
        · simp [hempty, hdir, Refused, eNotempty]
        · cases hremove : ops.hasRemove file.mountpoint with
          | false => simp [hempty, hdir, Refused, eNosys]
          | true => simp [hempty, hdir, Refused]

theorem renameFile_refused_iff {path newPath remaining newRemaining : List Char}
    {file newFile : FileHandle}
    (h : findMountpointPath env fuel v wd path = some (.ok (file, remaining)))
    (hnew : findMountpointPath env fuel v wd newPath = some (.ok (newFile, newRemaining))) :
    Refused (renameFile env ops fuel v wd path newPath) ↔
      remaining = [] ∨ file.mountpoint ≠ newFile.mountpoint ∨
        ops.hasRename file.mountpoint = false := by
  simp only [renameFile, h, hnew, Option.bind_eq_bind, Option.bind_some]
  by_cases hempty : remaining = []
  · simp [hempty, Refused, eBusy]
  · by_cases hmount : file.mountpoint = newFile.mountpoint
    · cases hrename : ops.hasRename file.mountpoint with
      | false => simp [hempty, hmount, Refused, eNosys]
      | true => simp [hempty, hmount, Refused]
    · simp [hempty, hmount, Refused, eXdev]

theorem protected_of_error {path : List Char} {res : Int}
    (h : findMountpointPath env fuel v wd path = some (.error res)) :
    Protected env ops fuel v wd path := by
  have hneg := findMountpointPath_neg h
  refine ⟨⟨res, hneg, by simp [removeFile, h]⟩, fun newPath found hnew => ⟨res, hneg, ?_⟩⟩
  simp [renameFile, h, hnew]

/-- A path that leads to a file can always be given as the new path, too. -/
theorem protected_iff_of_ok {path remaining : List Char} {file : FileHandle}
    (h : findMountpointPath env fuel v wd path = some (.ok (file, remaining))) :
    Protected env ops fuel v wd path ↔ remaining = [] ∨ ops.Inert file := by
  rw [Protected, removeFile_refused_iff h]
  constructor
  · rintro ⟨hremove, hrename⟩
    have hself := (renameFile_refused_iff h h).mp (hrename path _ h)
    rcases hself with hempty | hother | hself
    · exact .inl hempty
    · exact absurd rfl hother
    · exact hremove.imp_right fun hremove => ⟨hself, hremove⟩
  · rintro (hempty | ⟨hrename, hremove⟩)
    · exact ⟨.inl hempty, fun newPath ⟨newFile, newRemaining⟩ hnew =>
        (renameFile_refused_iff h hnew).mpr (.inl hempty)⟩
    · exact ⟨.inr hremove, fun newPath ⟨newFile, newRemaining⟩ hnew =>
        (renameFile_refused_iff h hnew).mpr (.inr (.inr hrename))⟩

/-- A path that the search does not get through is not refused. -/
theorem not_protected_of_none {path : List Char}
    (h : findMountpointPath env fuel v wd path = none) : ¬ Protected env ops fuel v wd path := by
  rintro ⟨⟨res, -, hcall⟩, -⟩
  simp [removeFile, h] at hcall

theorem protected_iff_leadsSafely (path : List Char) :
    Protected env ops fuel v wd path ↔ LeadsSafely env ops fuel v wd path := by
  have hfind := findMountpointPath_eq env fuel v wd path
  unfold LeadsSafely
  cases habsolute : makeAbsolute wd.chars path with
  | none =>
      rw [habsolute] at hfind
      simpa using not_protected_of_none hfind
  | some absolute =>
      simp only [habsolute, Option.bind_some] at hfind
      cases hwalk : walkFrom env fuel v absolute with
      | none =>
          rw [hwalk] at hfind
          simpa [hwalk] using not_protected_of_none hfind
      | some found =>
          rw [hwalk] at hfind
          cases found with
          | error res => simpa [hwalk] using protected_of_error hfind
          | ok found =>
              obtain ⟨file, rest⟩ := found
              rw [protected_iff_of_ok hfind, renderPath_eq_nil]
              simp [hwalk, PlainEnd]

theorem leadsSafely_of_fits {file : FileHandle} {path : List Char}
    (hroot : walkFrom env fuel v (fullPath wd path) = some (.ok (file, [])))
    (hfits : (fullPath wd path).length < maxPath) :
    LeadsSafely env ops fuel v wd path ↔ PlainEnd (fullPath wd path) ∨ ops.Inert file := by
  simp [LeadsSafely, makeAbsolute_fits hfits, hroot]

/-- A path to the root of a mounted file system is refused exactly when it is
spelled safely. -/
theorem mount_root_protected_iff {file : FileHandle} {path : List Char}
    (hroot : walkFrom env fuel v (fullPath wd path) = some (.ok (file, []))) :
    Protected env ops fuel v wd path ↔ SafelySpelled env ops fuel v wd file path := by
  rw [protected_iff_leadsSafely, SafelySpelled]
  split
  · rename_i hfits
    exact leadsSafely_of_fits hroot hfits
  · rfl

/-- A file system is mounted on the directory 5 of the root file system. -/
def mountOnFive : MountTable where
  mounts m :=
    if m = 0 then ⟨0, 0, 0, none, none, some 1⟩ else ⟨5, 1, 0, some 0, none, none⟩
  live := {0, 1}
  root := 0

def fiveIsMnt : WalkEnv where
  getRoot _ := 2
  lookup m handle name :=
    if m = 0 ∧ handle = 2 ∧ name = "mnt" then .ok 5 else .error eNoent
  lookup_neg h := by
    split at h
    · cases h
    · obtain rfl := Except.error.inj h
      decide

def onlyRoot : MountTable where
  mounts _ := ⟨0, 0, 0, none, none, none⟩
  live := {0}
  root := 0

/-- All directories are empty, and the file systems have both operations. -/
def emptyDirs : RemoveEnv where
  stat _ := .ok .dir
  stat_neg h := nomatch h
  readdir _ _ := 0
  hasRemove _ := true
  hasRename _ := true

def rootDir : WorkingDir := ⟨['/'], rfl⟩

theorem mount_root_protected_mnt :
    walkFrom fiveIsMnt 1 mountOnFive (fullPath rootDir "/mnt/.".toList) =
        some (.ok (⟨1, 2⟩, [])) ∧
      Protected fiveIsMnt emptyDirs 1 mountOnFive rootDir "/mnt/.".toList := by
  refine ⟨rfl, (mount_root_protected_iff rfl).mpr ?_⟩
  rw [SafelySpelled, if_pos (by decide)]
  exact .inl (by decide)

/-- With one more slash the file system is asked to remove its root. -/
theorem mount_root_removed :
    walkFrom fiveIsMnt 1 mountOnFive (fullPath rootDir "/mnt/./".toList) =
        some (.ok (⟨1, 2⟩, [])) ∧
      removeFile fiveIsMnt emptyDirs 1 mountOnFive rootDir "/mnt/./".toList =
        some (.remove 1 ['/']) ∧
      ¬ Protected fiveIsMnt emptyDirs 1 mountOnFive rootDir "/mnt/./".toList := by
  have hfind : findMountpointPath fiveIsMnt 1 mountOnFive rootDir "/mnt/./".toList =
      some (.ok (⟨1, 2⟩, ['/'])) := by
    rw [findMountpointPath_eq]
    rfl
  refine ⟨rfl, by rw [removeFile, hfind]; rfl, ?_⟩
  rw [protected_iff_of_ok hfind]
  rintro (hempty | ⟨hrename, -⟩)
  · cases hempty
  · cases hrename

section NewNames

variable (env : WalkEnv) (ops : RemoveEnv) (fuel : Nat) (v : MountTable) (wd : WorkingDir)

/-- The old path leads to an entry that is not the root of a mount, and the new path
to nothing, but to a name in a directory of the same mount. -/
structure NewTarget (oldPath newPath : List Char) : Prop where
  absent : ∃ res, findMountpointPath env fuel v wd newPath = some (.error res)
  sameMount : ∃ file remaining dir rest,
    findMountpointPath env fuel v wd oldPath = some (.ok (file, remaining)) ∧
      file.handle ≠ env.getRoot file.mountpoint ∧
      mountWalk env fuel v (normalNames (fullPath wd newPath)).dropLast
        ⟨v.root, env.getRoot v.root⟩ (normalNames (fullPath wd newPath)) = some (.ok (dir, rest)) ∧
      dir.mountpoint = file.mountpoint

/-- `rename_file` answers with what the file system makes of two paths in a mount. -/
def RenameReaches (oldPath newPath : List Char) : Prop :=
  ∃ mount oldRemaining newRemaining,
    renameFile env ops fuel v wd oldPath newPath = some (.rename mount oldRemaining newRemaining)

end NewNames

/-- A new path has to lead somewhere, or its error is the answer. -/
theorem renameFile_absent {oldPath newPath remaining : List Char} {file : FileHandle} {res : Int}
    (hold : findMountpointPath env fuel v wd oldPath = some (.ok (file, remaining)))
    (hnew : findMountpointPath env fuel v wd newPath = some (.error res)) :
    renameFile env ops fuel v wd oldPath newPath = some (.answer res) := by
  simp [renameFile, hold, hnew]

theorem RenameReaches.not_answer {oldPath newPath : List Char} {res : Int}
    (h : renameFile env ops fuel v wd oldPath newPath = some (.answer res)) :
    ¬ RenameReaches env ops fuel v wd oldPath newPath := by
  rintro ⟨mount, oldRemaining, newRemaining, hcall⟩
  rw [h] at hcall
  cases hcall

/-- `rename_file` never reaches the file system for a name that is not there yet. -/
theorem rename_file_new_never {oldPath newPath : List Char}
    (htarget : NewTarget env fuel v wd oldPath newPath) :
    ¬ RenameReaches env ops fuel v wd oldPath newPath := by
  obtain ⟨res, hnew⟩ := htarget.absent
  obtain ⟨file, remaining, -, -, hold, -⟩ := htarget.sameMount
  exact RenameReaches.not_answer (renameFile_absent hold hnew)

theorem rename_new_target : NewTarget fiveIsMnt 1 onlyRoot rootDir "/mnt".toList "/new".toList := by
  refine ⟨⟨eNoent, ?_⟩, ⟨0, 5⟩, "/mnt".toList, ⟨0, 2⟩, [['n', 'e', 'w']], ?_, by decide, rfl, rfl⟩
  · rw [findMountpointPath_eq]
    rfl
  · rw [findMountpointPath_eq]
    rfl

theorem rename_file_new_refused : ¬ RenameReaches fiveIsMnt emptyDirs 1 onlyRoot rootDir
    "/mnt".toList "/new".toList :=
  rename_file_new_never rename_new_target

/-- The file system has the operation, but the answer is that there is no such name. -/
theorem rename_file_new_noent :
    NewTarget fiveIsMnt 1 onlyRoot rootDir "/mnt".toList "/new".toList ∧
      emptyDirs.hasRename 0 = true ∧
      renameFile fiveIsMnt emptyDirs 1 onlyRoot rootDir "/mnt".toList "/new".toList =
        some (.answer eNoent) ∧
      ¬ RenameReaches fiveIsMnt emptyDirs 1 onlyRoot rootDir "/mnt".toList "/new".toList := by
  have hold : findMountpointPath fiveIsMnt 1 onlyRoot rootDir "/mnt".toList =
      some (.ok (⟨0, 5⟩, "/mnt".toList)) := by
    rw [findMountpointPath_eq]
    rfl
  have hnew : findMountpointPath fiveIsMnt 1 onlyRoot rootDir "/new".toList =
      some (.error eNoent) := by
    rw [findMountpointPath_eq]
    rfl
  have hcall : renameFile fiveIsMnt emptyDirs 1 onlyRoot rootDir "/mnt".toList "/new".toList =
      some (.answer eNoent) := renameFile_absent hold hnew
  exact ⟨rename_new_target, rfl, hcall, RenameReaches.not_answer hcall⟩

end GlitchedOS
