/-
Tasks, file descriptions and pipes, and the calls of `fd.c` that open, share and
close descriptions.  A pointer to a task, a description or a pipe is a number;
`kmalloc` returns any number that is not in use.  The answers of the file
systems and of the network are given with each call.
-/
import GlitchedOS.Paging.Model
import GlitchedOS.Vfs.Mount
import Mathlib.Data.Finset.Basic
import Mathlib.Data.Finset.Erase

namespace GlitchedOS

inductive ProcessState where
  | ready
  | zombie
  | running
  | blocked
  | deleted
  | stopped
deriving Repr, DecidableEq

inductive BlockReason where
  | none
  | delay
  | waitpid
deriving Repr, DecidableEq

/-- A signal handler: `SIG_DFL`, `SIG_IGN` or a function of the program. -/
inductive Handler where
  | dfl
  | ign
  | user (addr : BitVec 64)
deriving Repr, DecidableEq

/-- The registers of an interrupt frame the scheduler looks at. -/
structure Iframe where
  rip : BitVec 64
  rdi : BitVec 64
  rsp : BitVec 64
  rax : Int
  cs : Nat
deriving Repr, DecidableEq

structure Fd where
  fd : Option Nat
  flags : BitVec 32
deriving Repr, DecidableEq

/-- `task_t`, without the kernel stack, the FPU state and the working directory,
which no function here reads. -/
structure Task where
  iframe : Iframe
  signalInterruptedIframe : Iframe
  pid : Int
  pgid : Int
  sid : Int
  inSignal : Bool
  state : ProcessState
  cr3 : Nat
  initialBrk : Nat
  brk : Nat
  fdTable : Nat → Fd
  signalHandlers : Nat → Handler
  pendingSignals : BitVec 32
  signalMask : BitVec 32
  timeSlice : Int
  blockReason : BlockReason
  blockedTicks : BitVec 64
  isKworker : Bool
  wstatus : Option Nat
  blockedProcess : Option Nat
  waitpidEvent : Int
  waitpidFlags : BitVec 32
  returnCode : Int
  stopSignal : Nat
  next : Nat
  nextSibling : Option Nat
  parent : Option Nat
  child : Option Nat

inductive FdType where
  | file
  | dir
  | socket
  | pipe
deriving Repr, DecidableEq

/-- `file_description_t`.  A count stays far below the range of `int`: there are
at most 1024 kernel allocations, and so fewer tasks. -/
structure FileDescription where
  fileHandle : FileHandle
  socket : Nat
  pipe : Nat
  type : FdType
  offset : Int
  flags : BitVec 32
  refcount : Int
deriving Repr, DecidableEq

structure Pipe where
  readerCount : Int
  writerCount : Int
deriving Repr, DecidableEq

/-- The state of the kernel.  `userInts` holds the status words written to user
memory, by address space and address; `switching` holds from the call of
`switch_task`, which does not return, until the next task runs. -/
structure Kernel where
  phys : PhysMem
  userInts : Nat → Nat → BitVec 32
  tasks : Nat → Task
  allocated : Finset Nat
  files : Nat → FileDescription
  pipes : Nat → Pipe
  livePipes : Finset Nat
  vfs : MountTable
  current : Nat
  rr : Nat
  lastPid : Int
  ticksRemaining : Int
  basePml4 : Nat
  vvarPaddr : Nat
  switching : Bool

/-- Why the kernel stops: a panic, a fault in kernel mode, or a loop that does
not end. -/
inductive Stop where
  | paging (reason : Panic)
  | noPids
  | initExited (ret : Int)
  | nullPointer
  | diverges
deriving Repr, DecidableEq

def idleTask : Nat := 0
def initTask : Nat := 1

def maxFds : Nat := 1024
def maxFiles : Nat := 4096

def oRdonly : BitVec 32 := 0x00#32
def oWronly : BitVec 32 := 0x01#32
def oRdwr : BitVec 32 := 0x02#32
def oCreat : BitVec 32 := 0x04#32
def oNonblock : BitVec 32 := 0x08#32
def oDirectory : BitVec 32 := 0x10#32
def oAppend : BitVec 32 := 0x20#32
def oCloexec : BitVec 32 := 0x40#32
def oExcl : BitVec 32 := 0x80#32
def oTrunc : BitVec 32 := 0x100#32
def oAccess : BitVec 32 := 0x03#32
def fcntlMutable : BitVec 32 := oAppend ||| oNonblock

def hasBits (flags bits : BitVec 32) : Bool := flags &&& bits != 0#32

namespace Kernel

def modifyTask (k : Kernel) (t : Nat) (f : Task → Task) : Kernel :=
  { k with tasks := Function.update k.tasks t (f (k.tasks t)) }

def modifyFile (k : Kernel) (d : Nat) (f : FileDescription → FileDescription) :
    Kernel :=
  { k with files := Function.update k.files d (f (k.files d)) }

def modifyPipe (k : Kernel) (p : Nat) (f : Pipe → Pipe) : Kernel :=
  { k with pipes := Function.update k.pipes p (f (k.pipes p)) }

def modifyCurrent (k : Kernel) (f : Task → Task) : Kernel :=
  k.modifyTask k.current f

def currentTask (k : Kernel) : Task := k.tasks k.current

end Kernel

def Task.setFd (t : Task) (fd : Nat) (entry : Fd) : Task :=
  { t with fdTable := Function.update t.fdTable fd entry }

/-- `create_pipe`, at the address `kmalloc` returns. -/
def createPipe (k : Kernel) (p : Nat) : Kernel :=
  { k with pipes := Function.update k.pipes p ⟨1, 1⟩
           livePipes := insert p k.livePipes }

/-- The last line of both removals. -/
def freePipe (k : Kernel) (p : Nat) : Kernel :=
  if (k.pipes p).readerCount = 0 ∧ (k.pipes p).writerCount = 0 then
    { k with livePipes := k.livePipes.erase p }
  else k

/-- `remove_pipe_reader` -/
def removePipeReader (k : Kernel) (p : Nat) : Kernel :=
  freePipe (k.modifyPipe p fun pipe =>
    { pipe with readerCount := pipe.readerCount - 1 }) p

/-- `remove_pipe_writer` -/
def removePipeWriter (k : Kernel) (p : Nat) : Kernel :=
  freePipe (k.modifyPipe p fun pipe =>
    { pipe with writerCount := pipe.writerCount - 1 }) p

/-- What `close` and `socket_close` answer for each description. -/
structure CloseEnv where
  close : Nat → Int
  socketClose : Nat → Int

/-- `close`, once the file system has closed the file. -/
def closeFile (k : Kernel) (file : FileHandle) : Kernel :=
  { k with vfs := k.vfs.release file.mountpoint }

/-- `close_file_description` -/
def closeFileDescription (env : CloseEnv) (k : Kernel) (d : Nat) : Int × Kernel :=
  let description := k.files d
  let clear := fun k : Kernel =>
    ((0 : Int), k.modifyFile d fun f => { f with offset := 0 })
  match description.type with
  | .file | .dir =>
      if env.close d < 0 then (env.close d, k)
      else clear (closeFile k description.fileHandle)
  | .socket => if env.socketClose d < 0 then (env.socketClose d, k) else clear k
  | .pipe =>
      if description.flags &&& oAccess = oRdonly then
        clear (removePipeReader k description.pipe)
      else clear (removePipeWriter k description.pipe)

/-- The test at the head of every call that takes a descriptor. -/
def lookupFd (k : Kernel) (fd : Int) : Option Nat :=
  if 0 ≤ fd ∧ fd < maxFds then (k.currentTask.fdTable fd.toNat).fd else none

def dropRef (k : Kernel) (d : Nat) : Kernel :=
  k.modifyFile d fun f => { f with refcount := f.refcount - 1 }

def addRef (k : Kernel) (d : Nat) : Kernel :=
  k.modifyFile d fun f => { f with refcount := f.refcount + 1 }

/-- `fd_close` -/
def fdClose (env : CloseEnv) (k : Kernel) (fd : Int) : Int × Kernel :=
  match lookupFd k fd with
  | none => (eBadf, k)
  | some d =>
    let k := dropRef k d
    let clear := fun k : Kernel =>
      ((0 : Int), k.modifyCurrent fun t => t.setFd fd.toNat ⟨none, 0#32⟩)
    if (k.files d).refcount = 0 then
      let (res, k) := closeFileDescription env k d
      if res < 0 then (res, k) else clear k
    else clear k

/-- The first free slot of the descriptor table from `i` on. -/
def freeSlot (t : Task) : Nat → Nat → Option Nat
  | 0, _ => none
  | n + 1, i => if (t.fdTable i).fd = none then some i else freeSlot t n (i + 1)

/-- The first free file description from `i` on. -/
def freeDescription (files : Nat → FileDescription) : Nat → Nat → Option Nat
  | 0, _ => none
  | n + 1, i =>
      if (files i).refcount = 0 then some i
      else freeDescription files n (i + 1)

/-- What the file systems answer to `fd_open`: to the calls it makes before it
opens the path, to the walk along the path, to `fs->open`, and to the call that
truncates the file. -/
structure OpenEnv where
  stat : Int
  type : Nat
  createFile : Int
  path : List String
  walk : WalkEnv
  fsOpen : Int
  truncate : Int

def dtFile : Nat := 1
def dtDir : Nat := 2

/-- `open`, into the description `i`. -/
def openFile (env : OpenEnv) (fuel : Nat) (k : Kernel) (i : Nat) :
    Except Stop (Int × Kernel) :=
  match findMountpoint env.walk fuel k.vfs env.path with
  | none => .error .diverges
  | some (.error res) => .ok (res, k)
  | some (.ok file) =>
    let k := k.modifyFile i fun f => { f with fileHandle := file }
    if env.fsOpen < 0 then .ok (env.fsOpen, k)
    else .ok (0, { k with vfs := k.vfs.acquire file.mountpoint })

/-- The checks of `fd_open` before it looks for a slot, with the type `st` then
holds: `0` when `stat` failed. -/
def checkOpen (env : OpenEnv) (flags : BitVec 32) : Except Int Nat :=
  let type := if env.stat < 0 then 0 else env.type
  if hasBits flags oWronly && hasBits flags oRdwr then .error eInval
  else if env.stat < 0 && !hasBits flags oCreat then .error env.stat
  else if env.stat < 0 && decide (env.createFile < 0) then .error env.createFile
  else if 0 ≤ env.stat && hasBits flags oExcl then .error eExist
  else if hasBits flags oDirectory && decide (type ≠ dtDir) then .error eNotdir
  else .ok type

/-- The truncation that `fd_open` asks for fails. -/
def truncateFails (env : OpenEnv) (flags : BitVec 32) (type : Nat) : Bool :=
  hasBits flags oTrunc && decide (type = dtFile) && decide (env.truncate < 0)

/-- `fd_open` from the free description `i` on. -/
def openDescription (env : OpenEnv) (fuel : Nat) (k : Kernel)
    (flags : BitVec 32) (type slot i : Nat) : Except Stop (Int × Kernel) := do
  let (res, k) ← openFile env fuel k i
  if res < 0 then .ok (res, k)
  else if truncateFails env flags type then
    .ok (env.truncate, k.modifyFile i fun f => { f with fileHandle := ⟨0, 0⟩ })
  else
    let k := k.modifyFile i fun f =>
      { f with type := if type = dtDir then .dir else .file, offset := 0,
               flags := flags &&& ~~~oCloexec, refcount := 1 }
    .ok (slot, k.modifyCurrent fun t =>
      t.setFd slot ⟨some i, flags &&& oCloexec⟩)

/-- `fd_open` -/
def fdOpen (env : OpenEnv) (fuel : Nat) (k : Kernel) (flags : BitVec 32) :
    Except Stop (Int × Kernel) :=
  match checkOpen env flags with
  | .error res => .ok (res, k)
  | .ok type => match freeSlot k.currentTask maxFds 0 with
    | none => .ok (eMfile, k)
    | some slot => match freeDescription k.files maxFiles 0 with
      | none => .ok (eNfile, k)
      | some i => openDescription env fuel k flags type slot i

/-- `dup` -/
def dup (k : Kernel) (fd minfd : Int) (flags : BitVec 32) : Int × Kernel :=
  match lookupFd k fd with
  | none => (eBadf, k)
  | some d =>
    if minfd < 0 ∨ (maxFds : Int) ≤ minfd then (eInval, k)
    else match freeSlot k.currentTask (maxFds - minfd.toNat) minfd.toNat with
    | none => (eMfile, k)
    | some i =>
      (i, addRef (k.modifyCurrent fun t => t.setFd i ⟨some d, flags⟩) d)

/-- `fcntl` -/
def fcntl (k : Kernel) (fd : Int) (cmd : Nat) (arg : Int) : Int × Kernel :=
  match lookupFd k fd with
  | none => (eBadf, k)
  | some d =>
    let flags := BitVec.ofInt 32 arg
    match cmd with
    | 0 => (((k.currentTask.fdTable fd.toNat).flags).toInt, k)
    | 1 => (0, k.modifyCurrent fun t => t.setFd fd.toNat ⟨some d, flags⟩)
    | 2 => ((k.files d).flags.toInt, k)
    | 3 => (0, k.modifyFile d fun f =>
        { f with flags := (f.flags &&& ~~~fcntlMutable) ||| (flags &&& fcntlMutable) })
    | 4 => dup k fd arg 0#32
    | 5 => dup k fd arg oCloexec
    | _ => (eInval, k)

/-- `dup2` -/
def dup2 (env : CloseEnv) (k : Kernel) (fd newFd : Int) : Int × Kernel :=
  match lookupFd k fd with
  | none => (eBadf, k)
  | some d =>
    if newFd < 0 ∨ (maxFds : Int) ≤ newFd then (eBadf, k)
    else if fd = newFd then (newFd, k)
    else
      let k := (fdClose env k newFd).2
      (newFd, addRef (k.modifyCurrent fun t => t.setFd newFd.toNat ⟨some d, 0#32⟩)
        d)

/-- `pipe`; `p` is the address of the new pipe. -/
def pipe (k : Kernel) (p : Nat) : Int × Kernel :=
  match freeSlot k.currentTask maxFds 0 with
  | none => (eMfile, k)
  | some fd₀ => match freeSlot k.currentTask (maxFds - (fd₀ + 1)) (fd₀ + 1) with
    | none => (eMfile, k)
    | some fd₁ => match freeDescription k.files maxFiles 0 with
      | none => (eNfile, k)
      | some i₀ => match freeDescription k.files (maxFiles - (i₀ + 1)) (i₀ + 1) with
        | none => (eNfile, k)
        | some i₁ =>
          let k := createPipe k p
          let k := k.modifyFile i₀ fun f =>
            { f with pipe := p, flags := oRdonly, refcount := 1, type := .pipe }
          let k := k.modifyFile i₁ fun f =>
            { f with pipe := p, flags := oWronly, refcount := 1, type := .pipe }
          let k := k.modifyCurrent fun t => t.setFd fd₀ ⟨some i₀, 0#32⟩
          (0, k.modifyCurrent fun t => t.setFd fd₁ ⟨some i₁, 0#32⟩)

/-- `fd_socket`; `res` and `sock` are what `socket` returns. -/
def fdSocket (k : Kernel) (res : Int) (sock : Nat) : Int × Kernel :=
  match freeSlot k.currentTask maxFds 0 with
  | none => (eMfile, k)
  | some slot => match freeDescription k.files maxFiles 0 with
    | none => (eNfile, k)
    | some i =>
      if res < 0 then (res, k)
      else
        let k := k.modifyFile i fun f =>
          { f with socket := sock, type := .socket, offset := 0, flags := 0#32,
                   refcount := 1 }
        (slot, k.modifyCurrent fun t => t.setFd slot ⟨some i, 0#32⟩)

/-- `release_process_fds` -/
def releaseProcessFds (env : CloseEnv) (k : Kernel) : Kernel :=
  loopPure (fun fd k =>
    if (k.currentTask.fdTable fd).fd = none then k
    else (fdClose env k fd).2) maxFds k

end GlitchedOS
