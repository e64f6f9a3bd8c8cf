/-
The calls of `vfs.c` and `fd.c` that change files, for files of one mount.  A driver
is the table of its operations; an operation that follows a bad pointer, writes behind
a buffer or does not come back has no result, and then the call has none.
-/
import GlitchedOS.Vfs.Mount
import GlitchedOS.Lib.Run

namespace GlitchedOS

/-- The flags of `fd_open` that matter here. -/
structure OpenFlags where
  wronly : Bool
  rdwr : Bool
  creat : Bool
  excl : Bool
  directory : Bool
  trunc : Bool
deriving Repr, DecidableEq

/-- `filesystem_t`, for a mount in a state and what an operation meets besides it.  The
walk of `find_mountpoint` is made of the driver's `lookup`, and the first entry tells
whether `readdir` gives one for a directory. -/
structure Filesystem (σ ε : Type) where
  walk : ε → σ → List Char → Option (Except Int Nat)
  stat : ε → σ → Nat → Option (Except Int DirentType)
  hasEntry : ε → σ → Nat → Option Bool
  createFile : ε → σ → List Char → Option (Int × σ)
  createDirectory : ε → σ → List Char → Option (Int × σ)
  mknod : Option (ε → σ → List Char → DirentType → Nat → Option (Int × σ))
  openFile : Option (ε → σ → Nat → Option (Int × σ))
  closeFile : Option (ε → σ → Nat → Option (Int × σ))
  write : ε → σ → Nat → List UInt8 → Nat → Option (Int × σ)
  truncate : ε → σ → Nat → Nat → Option (Int × σ)
  remove : ε → σ → List Char → Option (Int × σ)
  rename : ε → σ → List Char → List Char → Option (Int × σ)

/-- An open file description on the mount: its handle, and whether it is
`FD_TYPE_DIR`. -/
structure OpenFile where
  handle : Nat
  isDir : Bool
deriving Repr, DecidableEq

/-- A mount and the open file descriptions on it. -/
structure MountFiles (σ : Type) where
  fs : σ
  files : List OpenFile

/-- What `fd_open` finds in the tables of descriptors and descriptions. -/
structure FdRoom where
  fd : Bool
  description : Bool
deriving Repr, DecidableEq

/-- A call on files of the mount, with paths behind the mount.  `created` is the path
that `create_file` passes on, and `room` tells whether there are a free descriptor and a
free description. -/
inductive FileCall where
  | createFile (path : List Char)
  | createDirectory (path : List Char)
  | mknod (path : List Char) (type : DirentType) (device : Nat)
  | fdOpen (path created : List Char) (flags : OpenFlags) (room : FdRoom)
  | fdClose (i : Nat)
  | writeFile (i : Nat) (buffer : List UInt8) (offset : Nat)
  | ftruncate (i newSize : Nat)
  | truncate (path : List Char) (newSize : Nat)
  | removeFile (path : List Char)
  | renameFile (oldPath newPath : List Char)

/-- What an operation of the driver leaves. -/
def MountFiles.answer {σ : Type} (s : MountFiles σ) (result : Option (Int × σ)) :
    Option (Int × MountFiles σ) :=
  result.map fun (res, after) => (res, { s with fs := after })

namespace Filesystem

variable {σ ε : Type} (fs : Filesystem σ ε) (env : ε) (s : MountFiles σ)

/-- `stat` of a path. -/
def statPath (path : List Char) : Option (Except Int DirentType) := do
  match ← fs.walk env s.fs path with
  | .error res => some (.error res)
  | .ok handle => fs.stat env s.fs handle

/-- The start of `fd_open`: the type of the file, which is created when it is
missing. -/
def openStat (path created : List Char) (flags : OpenFlags) :
    Option (Int × DirentType × σ) := do
  match ← fs.statPath env s path with
  | .ok type => some (if flags.excl then eExist else 0, type, s.fs)
  | .error res =>
    if flags.creat then
      let (res, after) ← fs.createFile env s.fs created
      some (res, .unknown, after)
    else some (res, .unknown, s.fs)

/-- An operation that a driver need not have. -/
def optional (op : Option (ε → σ → Nat → Option (Int × σ))) (at_ : σ) (handle : Nat) :
    Option (Int × σ) :=
  match op with
  | none => some (0, at_)
  | some op => op env at_ handle

/-- `open`, and the truncation by `fd_open`. -/
def openHandle (at_ : σ) (path : List Char) (truncates isDir : Bool) :
    Option (Int × MountFiles σ) := do
  match ← fs.walk env at_ path with
  | .error res => some (res, { s with fs := at_ })
  | .ok handle =>
    let (res, after) ← optional env fs.openFile at_ handle
    if res < 0 then some (res, { s with fs := after })
    else
      let (res, after) ← if truncates then fs.truncate env after handle 0 else some (0, after)
      if res < 0 then some (res, { s with fs := after })
      else some (0, { fs := after, files := s.files ++ [⟨handle, isDir⟩] })

/-- `fd_open` -/
def fdOpen (path created : List Char) (flags : OpenFlags) (room : FdRoom) :
    Option (Int × MountFiles σ) :=
  if flags.wronly ∧ flags.rdwr then some (eInval, s)
  else do
    let (res, type, after) ← fs.openStat env s path created flags
    if res < 0 then some (res, { s with fs := after })
    else if flags.directory ∧ type ≠ .dir then some (eNotdir, { s with fs := after })
    else if room.fd = false then some (eMfile, { s with fs := after })
    else if room.description = false then some (eNfile, { s with fs := after })
    else
      let truncates := flags.trunc && decide (type = .file)
      fs.openHandle env s after path truncates (decide (type = .dir))

/-- `fd_close` for the last descriptor of a description. -/
def fdClose (i : Nat) : Option (Int × MountFiles σ) :=
  match s.files[i]? with
  | none => some (eBadf, s)
  | some file => do
    let (res, after) ← optional env fs.closeFile s.fs file.handle
    if res < 0 then some (res, { s with fs := after })
    else some (0, { fs := after, files := s.files.eraseIdx i })

/-- `write_file` to an open file. -/
def writeFile (i : Nat) (buffer : List UInt8) (offset : Nat) : Option (Int × MountFiles σ) :=
  match s.files[i]? with
  | none => some (eBadf, s)
  | some file => do
    match ← fs.stat env s.fs file.handle with
    | .error _ => some (eNoent, s)
    | .ok type =>
      if type = .dir then some (eIsdir, s)
      else s.answer (fs.write env s.fs file.handle buffer offset)

/-- `ftruncate` -/
def ftruncate (i newSize : Nat) : Option (Int × MountFiles σ) :=
  match s.files[i]? with
  | none => some (eBadf, s)
  | some file =>
    if file.isDir then some (eInval, s)
    else s.answer (fs.truncate env s.fs file.handle newSize)

/-- `truncate` of a path. -/
def truncatePath (path : List Char) (newSize : Nat) : Option (Int × MountFiles σ) := do
  match ← fs.walk env s.fs path with
  | .error res => some (res, s)
  | .ok handle => s.answer (fs.truncate env s.fs handle newSize)

/-- `remove_file` -/
def removeFile (path : List Char) : Option (Int × MountFiles σ) := do
  match ← fs.walk env s.fs path with
  | .error res => some (res, s)
  | .ok handle =>
    if path = [] then some (eBusy, s)
    else match ← fs.stat env s.fs handle with
    | .error res => some (res, s)
    | .ok type =>
      if type = .dir then do
        if ← fs.hasEntry env s.fs handle then some (eNotempty, s)
        else s.answer (fs.remove env s.fs path)
      else s.answer (fs.remove env s.fs path)

/-- `rename_file` -/
def renameFile (oldPath newPath : List Char) : Option (Int × MountFiles σ) := do
  let old ← fs.walk env s.fs oldPath
  let new ← fs.walk env s.fs newPath
  match old, new with
  | .error res, _ => some (res, s)
  | .ok _, .error res => some (res, s)
  | .ok _, .ok _ =>
    if oldPath = [] then some (eBusy, s) else s.answer (fs.rename env s.fs oldPath newPath)

def call : FileCall → Option (Int × MountFiles σ)
  | .createFile path => s.answer (fs.createFile env s.fs path)
  | .createDirectory path => s.answer (fs.createDirectory env s.fs path)
  | .mknod path type device =>
    match fs.mknod with
    | none => some (eNosys, s)
    | some mknod => s.answer (mknod env s.fs path type device)
  | .fdOpen path created flags room => fs.fdOpen env s path created flags room
  | .fdClose i => fs.fdClose env s i
  | .writeFile i buffer offset => fs.writeFile env s i buffer offset
  | .ftruncate i newSize => fs.ftruncate env s i newSize
  | .truncate path newSize => fs.truncatePath env s path newSize
  | .removeFile path => fs.removeFile env s path
  | .renameFile oldPath newPath => fs.renameFile env s oldPath newPath

/-- The state after a call; without a result it stays. -/
def step (s : MountFiles σ) (action : ε × FileCall) : MountFiles σ :=
  ((fs.call action.1 s action.2).map Prod.snd).getD s

end Filesystem

end GlitchedOS
