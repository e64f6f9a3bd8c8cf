/-
The mounts of `vfs.c`: the walk along a path, mounting and unmounting, and the
use counts that `open` and `close` keep.  A pointer to a mount is a number, and
the answers of the file systems are given with each call.
-/
import GlitchedOS.Error
import Mathlib.Data.Finset.Basic
import Mathlib.Data.Finset.Erase

namespace GlitchedOS

/-- `DT_*` -/
inductive DirentType where
  | unknown | file | dir | block | char
deriving Repr, DecidableEq

/-- `mountpoint_t`, without the data of the file system. -/
structure Mountpoint where
  handle : Nat
  type : Nat
  refcount : Int
  parent : Option Nat
  next : Option Nat
  children : Option Nat
deriving Repr, DecidableEq

/-- `file_handle_t` -/
structure FileHandle where
  mountpoint : Nat
  handle : Nat
deriving Repr, DecidableEq

/-- The mounts in memory, and the one `root` points to. -/
structure MountTable where
  mounts : Nat → Mountpoint
  live : Finset Nat
  root : Nat

namespace MountTable

def modify (v : MountTable) (m : Nat) (f : Mountpoint → Mountpoint) :
    MountTable :=
  { v with mounts := Function.update v.mounts m (f (v.mounts m)) }

theorem modify_mounts (v : MountTable) (m : Nat) (f : Mountpoint → Mountpoint)
    (n : Nat) : (v.modify m f).mounts n =
      if n = m then f (v.mounts m) else v.mounts n :=
  Function.update_apply _ _ _ _

/-- `mount->refcount++`, the end of `open`. -/
def acquire (v : MountTable) (m : Nat) : MountTable :=
  v.modify m fun x => { x with refcount := x.refcount + 1 }

/-- `mount->refcount--`, the end of `close`. -/
def release (v : MountTable) (m : Nat) : MountTable :=
  v.modify m fun x => { x with refcount := x.refcount - 1 }

end MountTable

/-- What the file systems answer to a walk: the root of a mount, and the lookup
of a name in a directory of a mount, where only a negative number is an error. -/
structure WalkEnv where
  getRoot : Nat → Nat
  lookup : Nat → Nat → String → Except Int Nat
  lookup_neg : ∀ {m handle name res}, lookup m handle name = .error res → res < 0

/-- The search of `find_mountpoint` for a mount on `handle`, from `m` on; `none`
when it does not end. -/
def coveringMount (v : MountTable) (first handle : Nat) :
    Nat → Nat → Option (Option Nat)
  | 0, _ => none
  | n + 1, m =>
    if (v.mounts m).handle = handle then some (some m)
    else match (v.mounts m).next with
    | none => some none
    | some m' =>
      if m' = first then some none else coveringMount v first handle n m'

/-- The mount and the handle that a handle found in `current` stands for: the
root of the mount on it, if there is one. -/
def crossMount (env : WalkEnv) (fuel : Nat) (v : MountTable)
    (current handle : Nat) : Option FileHandle :=
  match (v.mounts current).children with
  | none => some ⟨current, handle⟩
  | some first => (coveringMount v first handle fuel first).map fun
    | none => ⟨current, handle⟩
    | some m => ⟨m, env.getRoot m⟩

/-- The loop of `find_mountpoint` over the names of a path. -/
def walkPath (env : WalkEnv) (fuel : Nat) (v : MountTable) :
    List String → FileHandle → Option (Except Int FileHandle)
  | [], at_ => some (.ok at_)
  | name :: rest, at_ =>
    match env.lookup at_.mountpoint at_.handle name with
    | .error res => some (.error res)
    | .ok handle => do
      let next ← crossMount env fuel v at_.mountpoint handle
      walkPath env fuel v rest next

/-- `find_mountpoint`, for the names of the resolved path. -/
def findMountpoint (env : WalkEnv) (fuel : Nat) (v : MountTable)
    (path : List String) : Option (Except Int FileHandle) :=
  walkPath env fuel v path ⟨v.root, env.getRoot v.root⟩

theorem findMountpoint_neg {env : WalkEnv} {fuel : Nat} {v : MountTable}
    {path : List String} {res : Int}
    (h : findMountpoint env fuel v path = some (.error res)) : res < 0 := by
  rw [findMountpoint] at h
  generalize (⟨v.root, env.getRoot v.root⟩ : FileHandle) = start at h
  induction path generalizing start with
  | nil => cases h
  | cons name rest ih =>
      rw [walkPath] at h
      split at h
      · rename_i hlookup
        obtain rfl := Except.error.inj (Option.some.inj h)
        exact env.lookup_neg hlookup
      · obtain ⟨next, -, h⟩ := Option.bind_eq_some_iff.mp h
        exact ih next h

/-- What the file systems answer to `mount_filesystem`: the file system for the
source and type, and whether it mounts. -/
structure MountEnv where
  fsIndex : Except Int Nat
  mounts : Bool

/-- The new mount, as the first child of `parent`. -/
def linkMount (v : MountTable) (new parent handle type : Nat) : MountTable :=
  { v with live := insert new v.live
           mounts := Function.update v.mounts new
             { handle := handle, type := type, refcount := 0
               parent := some parent, next := (v.mounts parent).children
               children := none } }.modify parent fun x =>
    { x with children := some new }

/-- `mount_filesystem`; `new` is the address of the new mount, whose memory is
zeroed. -/
def mountFilesystem (env : MountEnv) (walk : WalkEnv) (fuel : Nat)
    (v : MountTable) (target : List String) (new : Nat) :
    Option (Int × MountTable) :=
  match env.fsIndex with
  | .error res => some (res, v)
  | .ok fsIndex => do
    match ← findMountpoint walk fuel v target with
    | .error res => some (res, v)
    | .ok file =>
      if file.handle = walk.getRoot file.mountpoint then some (eBusy, v)
      else if !env.mounts then some (eIo, v)
      else some (0, linkMount v new file.mountpoint file.handle fsIndex)

/-- The search of `unmount_filesystem` for the mount before `m`. -/
def unlinkLoop (v : MountTable) (m : Nat) : Nat → Option Nat → Option MountTable
  | _, none => some v
  | 0, some _ => none
  | n + 1, some s =>
    if (v.mounts s).next = some m then
      some (v.modify s fun x => { x with next := (v.mounts m).next })
    else unlinkLoop v m n (v.mounts s).next

/-- `unmount_filesystem` takes a mount out of its parent's list. -/
def unlinkMount (fuel : Nat) (v : MountTable) (m parent : Nat) :
    Option MountTable :=
  if (v.mounts parent).children = some m then
    some (v.modify parent fun x => { x with children := (v.mounts m).next })
  else unlinkLoop v m fuel (v.mounts parent).children

/-- `unmount_filesystem`; `res` is what the file system answers.  When it fails
the mount is out of the tree but not freed. -/
def unmountFilesystem (walk : WalkEnv) (fuel : Nat) (v : MountTable)
    (path : List String) (res : Int) : Option (Int × MountTable) := do
  match ← findMountpoint walk fuel v path with
  | .error res => some (res, v)
  | .ok file =>
    let m := file.mountpoint
    if m = v.root then some (eInval, v)
    else if 0 < (v.mounts m).refcount ∨ (v.mounts m).children ≠ none then
      some (eBusy, v)
    else
      let parent ← (v.mounts m).parent
      let v ← unlinkMount fuel v m parent
      if res < 0 then some (res, v)
      else some (0, { v with live := v.live.erase m })

end GlitchedOS
