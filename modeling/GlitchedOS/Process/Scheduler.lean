/-
The scheduler, as it computes.  `switch_task` never returns to its caller, so a
function that ends in it sets `switching` and the next step of the system picks a
task.  Loops over the task ring and the sibling lists follow the pointers; the
number of rounds they may take is given, and a loop that needs more diverges.
-/
import GlitchedOS.Process.Files
import Mathlib.Data.List.Basic

namespace GlitchedOS

inductive SignalAction where
  | ignore
  | terminate
  | stop
deriving Repr, DecidableEq

def sigKill : Nat := 9
def sigChld : Nat := 17
def sigCont : Nat := 18
def sigStop : Nat := 19

/-- `signal_default_actions` -/
def signalDefaultActions : Nat → SignalAction
  | 0 | 17 | 18 | 23 | 28 => .ignore
  | 19 | 20 | 21 | 22 => .stop
  | _ => .terminate

/-- The bit of signal `sig` in a signal set. -/
def sigBit (sig : Nat) : BitVec 32 := 1#32 <<< (sig - 1)

def userCs : Nat := 0x1B

def wnohang : BitVec 32 := 1#32
def wuntraced : BitVec 32 := 2#32
def wcontinued : BitVec 32 := 4#32

def maxPid : Int := 2147483647

/-- A paging call, whose panic stops the kernel. -/
def liftPaging {α : Type} : Except Panic α → Except Stop α
  | .ok a => .ok a
  | .error reason => .error (.paging reason)

/-- The search of `gc_tasks` for the sibling before `t`. -/
def siblingLoop (k : Kernel) (t : Nat) : Nat → Nat → Except Stop Kernel
  | 0, _ => .error .diverges
  | n + 1, s =>
    match (k.tasks s).nextSibling with
    | none => .ok k
    | some s' =>
      if s' = t then
        .ok (k.modifyTask s fun x =>
          { x with nextSibling := (k.tasks t).nextSibling })
      else siblingLoop k t n s'

/-- `gc_tasks` takes a task out of its parent's list. -/
def unlinkChild (fuel : Nat) (k : Kernel) (t : Nat) : Except Stop Kernel :=
  match (k.tasks t).parent with
  | none => .error .nullPointer
  | some parent =>
    if (k.tasks parent).child = some t then
      .ok (k.modifyTask parent fun x =>
        { x with child := (k.tasks t).nextSibling })
    else match (k.tasks parent).child with
    | none => .error .nullPointer
    | some s => siblingLoop k t fuel s

/-- The loop of `gc_tasks`. -/
def gcLoop : Nat → Kernel → Nat → Nat → Except Stop Kernel
  | 0, _, _, _ => .error .diverges
  | n + 1, k, p, t =>
    if t = initTask then .ok k
    else if (k.tasks t).state = .deleted then do
      let k := { k with phys := freePageTables k.phys (k.tasks t).cr3 }
      let k := k.modifyTask p fun x => { x with next := (k.tasks t).next }
      let k ← (if (k.tasks t).isKworker then .ok k else unlinkChild n k t)
      let next := (k.tasks t).next
      let k := if k.current = t then { k with current := next } else k
      let k := if k.rr = t then { k with rr := next } else k
      gcLoop n { k with allocated := k.allocated.erase t } p next
    else gcLoop n k t (k.tasks t).next

/-- `gc_tasks` -/
def gcTasks (fuel : Nat) (k : Kernel) : Except Stop Kernel :=
  gcLoop fuel k initTask (k.tasks initTask).next

/-- The loop of `get_next_task`: the task found and the new `rr_task`. -/
def nextLoop (k : Kernel) (start : Nat) :
    Nat → Nat → Except Stop (Option Nat × Nat)
  | 0, _ => .error .diverges
  | n + 1, rr =>
    let rr := (k.tasks rr).next
    if (k.tasks rr).state = .ready then .ok (some rr, rr)
    else if rr = start then .ok (none, rr)
    else nextLoop k start n rr

/-- `get_next_task` -/
def getNextTask (fuel : Nat) (k : Kernel) : Except Stop (Option Nat × Kernel) := do
  let (next, rr) ← nextLoop k k.rr fuel k.rr
  .ok (next, { k with rr := rr })

/-- Hand the siblings from `c` on over to `target`. -/
def reparent : Nat → Kernel → Nat → Option Nat → Except Stop Kernel
  | _, k, _, none => .ok k
  | 0, _, _, some _ => .error .diverges
  | n + 1, k, target, some c =>
    let next := (k.tasks c).nextSibling
    let k := k.modifyTask c fun x =>
      { x with parent := some target, nextSibling := (k.tasks target).child }
    reparent n (k.modifyTask target fun x => { x with child := some c }) target
      next

/-- `exit` after the descriptors are closed: become a zombie, tell the parent,
and hand the children to `init_task`. -/
def exitTask (fuel : Nat) (k : Kernel) (ret : Int) : Except Stop Kernel :=
  let k := k.modifyCurrent fun x =>
    { x with state := .zombie, returnCode := ret }
  match k.currentTask.parent with
  | none => .error .nullPointer
  | some parent => do
    let k := k.modifyTask parent fun x =>
      { x with pendingSignals := x.pendingSignals ||| sigBit sigChld }
    let k ← reparent fuel k initTask k.currentTask.child
    .ok { k with switching := true }

/-- `exit` -/
def exit (env : CloseEnv) (fuel : Nat) (k : Kernel) (ret : Int) :
    Except Stop Kernel :=
  if k.current = initTask then .error (.initExited ret)
  else exitTask fuel (releaseProcessFds env k) ret

/-- `has_pending_signals` -/
def hasPendingSignals (t : Task) : Bool :=
  !t.inSignal && (List.range 31).any fun i =>
    (t.pendingSignals &&& ~~~t.signalMask).getLsbD i &&
      decide (t.signalHandlers (i + 1) ≠ .ign) &&
      !(decide (t.signalHandlers (i + 1) = .dfl) &&
        decide (signalDefaultActions (i + 1) = .ignore))

/-- Entering the handler at `addr` for signal `sig`.  The return address pushed
on the user stack is not part of the model. -/
def enterHandler (t : Task) (addr : BitVec 64) (sig : Nat) : Task :=
  { t with
    signalInterruptedIframe := t.iframe
    iframe := { t.iframe with
      rip := addr
      rdi := BitVec.ofNat 64 sig
      rsp := (t.iframe.rsp &&& ~~~15#64) - 8#64 }
    inSignal := true }

/-- One round of `deliver_signals`.  The second component is the argument of the
call of `exit`, if it is made. -/
def deliverSignal (deliverable : BitVec 32) (i : Nat) (t : Task) :
    Task × Option Int :=
  if !deliverable.getLsbD i then (t, none)
  else
    let t := { t with pendingSignals := t.pendingSignals &&& ~~~sigBit (i + 1) }
    match t.signalHandlers (i + 1) with
    | .dfl =>
      if signalDefaultActions (i + 1) = .terminate then (t, some (-i - 1))
      else (t, none)
    | .ign => (t, none)
    | .user addr =>
      if t.iframe.cs ≠ userCs then
        ({ t with pendingSignals := t.pendingSignals ||| sigBit (i + 1) }, none)
      else (enterHandler t addr (i + 1), none)

/-- Rounds `i, i + 1, ...` of `deliver_signals`, up to a call of `exit`. -/
def deliverLoop (deliverable : BitVec 32) :
    Nat → Nat → Task → Task × Option Int
  | 0, _, t => (t, none)
  | n + 1, i, t =>
    match deliverSignal deliverable i t with
    | (t, some ret) => (t, some ret)
    | (t, none) => deliverLoop deliverable n (i + 1) t

/-- `deliver_signals` -/
def deliverSignals (env : CloseEnv) (fuel : Nat) (k : Kernel) :
    Except Stop Kernel :=
  let t := k.currentTask
  let deliverable := t.pendingSignals &&& ~~~t.signalMask
  if deliverable = 0#32 then .ok k
  else if t.inSignal then .ok k
  else
    let (t, ret) := deliverLoop deliverable 31 0 t
    let k := k.modifyCurrent fun _ => t
    match ret with
    | none => .ok k
    | some ret => exit env fuel k ret

/-- `sigprocmask` of the current task. -/
def sigprocmask (k : Kernel) (how : Int) (set : BitVec 32) : Int × Kernel :=
  let mask := k.currentTask.signalMask
  let install := fun newMask : BitVec 32 =>
    ((0 : Int), k.modifyCurrent fun x =>
      { x with signalMask := newMask &&& ~~~(sigBit sigStop ||| sigBit sigKill) })
  if how = 0 then install (mask ||| set)
  else if how = 1 then install (mask &&& ~~~set)
  else if how = 2 then install set
  else (eInval, k)

/-- `switch_task`: run the next task, or the idle task when none is ready. -/
def switchTask (env : CloseEnv) (fuel : Nat) (k : Kernel) :
    Except Stop Kernel := do
  let (next, k) ← getNextTask fuel k
  let k := { k with current := next.getD idleTask }
  let k := k.modifyCurrent fun x => { x with state := .running }
  deliverSignals env fuel
    { k with ticksRemaining := k.currentTask.timeSlice, switching := false }

/-- `run_next` -/
def runNext (fuel : Nat) (k : Kernel) : Except Stop Kernel := do
  let k := k.modifyCurrent fun x =>
    if x.state = .running then { x with state := .ready } else x
  let k ← gcTasks fuel k
  .ok { k with switching := true }

/-- The loop that counts the descriptors a new task shares. -/
def addRefs (table : Nat → Fd) (k : Kernel) : Kernel :=
  loopPure (fun fd k => match (table fd).fd with
    | none => k
    | some d => addRef k d) maxFds k

/-- The new task's place in the ring and in the tree: after `parent`, and as its
first child. -/
def linkTask (k : Kernel) (new parent : Nat) : Kernel :=
  let k := k.modifyTask new fun x => { x with next := (k.tasks parent).next }
  let k := k.modifyTask parent fun x => { x with next := new }
  let k := k.modifyTask new fun x =>
    { x with nextSibling := (k.tasks parent).child, child := none,
             parent := some parent }
  k.modifyTask parent fun x => { x with child := some new }

/-- A task allocated at `new`, with the memory its page tables leave. -/
def allocTask (k : Kernel) (new : Nat) (phys : PhysMem) (x : Task) : Kernel :=
  { k with phys := phys
           allocated := insert new k.allocated
           tasks := Function.update k.tasks new x }

/-- The last part of `fork`, from the links on. -/
def forkLink (k : Kernel) (new : Nat) : Kernel :=
  let k := linkTask k new k.current
  let k := { k with lastPid := k.lastPid + 1, switching := true }
  let k := k.modifyTask new fun x =>
    { x with pid := k.lastPid, iframe := { x.iframe with rax := 0 } }
  k.modifyCurrent fun x =>
    { x with state := .ready, iframe := { x.iframe with rax := k.lastPid } }

/-- `fork`; `new` is the address of the new task. -/
def fork (k : Kernel) (new : Nat) : Except Stop Kernel :=
  if k.lastPid = maxPid then .error .noPids
  else do
    let (cr3, phys) ← liftPaging (clonePageTables k.phys k.currentTask.cr3)
    let k := allocTask k new phys
      { k.currentTask with state := .ready, cr3 := cr3 }
    .ok (forkLink (addRefs (k.tasks new).fdTable k) new)

/-- `create_kworker`; `new` is the address of the new task. -/
def createKworker (k : Kernel) (new : Nat) (regs : Iframe) :
    Except Stop Kernel :=
  if k.lastPid = maxPid then .error .noPids
  else do
    let (cr3, phys) ← liftPaging (clonePageTables k.phys k.basePml4)
    let k := { k with lastPid := k.lastPid + 1 }
    let k := allocTask k new phys
      { k.tasks initTask with
        state := .ready, cr3 := cr3, iframe := regs, isKworker := true,
        next := k.currentTask.next, child := none, nextSibling := none,
        pid := k.lastPid, parent := none }
    .ok (k.modifyCurrent fun x => { x with next := new })

/-- `kworker_exit` -/
def kworkerExit (k : Kernel) : Kernel :=
  if !k.currentTask.isKworker then k
  else { k.modifyCurrent fun x => { x with state := .deleted } with
         switching := true }

/-- `sleep` -/
def sleep (fuel : Nat) (k : Kernel) (ms : BitVec 64) : Except Stop Kernel :=
  if ms = 0#64 then
    .ok (k.modifyCurrent fun x => { x with iframe := { x.iframe with rax := 0 } })
  else
    runNext fuel (k.modifyCurrent fun x =>
      { x with state := .blocked, blockReason := .delay, blockedTicks := ms,
               iframe := { x.iframe with rax := 0 } })

/-- The tasks from `t` on, up to the one before `init_task`. -/
def ringFrom (k : Kernel) : Nat → Nat → Except Stop (List Nat)
  | 0, _ => .error .diverges
  | n + 1, t =>
    if (k.tasks t).next = initTask then .ok [t]
    else do
      let rest ← ringFrom k n (k.tasks t).next
      .ok (t :: rest)

/-- `get_child`, from the child `c` on. -/
def getChild (k : Kernel) (pid : Int) :
    Nat → Option Nat → Except Stop (Option Nat)
  | _, none => .ok none
  | 0, some _ => .error .diverges
  | n + 1, some c =>
    if (k.tasks c).state ≠ .deleted ∧ (k.tasks c).pid = pid then .ok (some c)
    else getChild k pid n (k.tasks c).nextSibling

/-- The last lines of `setpgid`. -/
def assignPgid (k : Kernel) (target : Nat) (pgid : Int) : Int × Kernel :=
  if (k.tasks target).pgid = (k.tasks target).pid ∧
      pgid ≠ (k.tasks target).pgid then (ePerm, k)
  else (0, k.modifyTask target fun x => { x with pgid := pgid })

/-- `setpgid` once the target is found. -/
def setpgidOf (fuel : Nat) (k : Kernel) (target : Nat) (pid pgid : Int) :
    Except Stop (Int × Kernel) :=
  if (k.tasks target).sid ≠ k.currentTask.sid then .ok (ePerm, k)
  else if pid ≠ pgid then do
    let ring ← ringFrom k fuel initTask
    match ring.find? fun i =>
        decide ((k.tasks i).pgid = pgid ∧ (k.tasks i).state ≠ .deleted) with
    | none => .ok (eSrch, k)
    | some i =>
      if (k.tasks i).sid ≠ (k.tasks target).sid then .ok (ePerm, k)
      else .ok (assignPgid k target pgid)
  else .ok (assignPgid k target pgid)

/-- `setpgid` -/
def setpgid (fuel : Nat) (k : Kernel) (pid pgid : Int) :
    Except Stop (Int × Kernel) := do
  let pid := if pid = 0 then k.currentTask.pid else pid
  let pgid := if pgid = 0 then pid else pgid
  let target ← (if pid ≠ k.currentTask.pid then
      getChild k pid fuel k.currentTask.child
    else .ok (some k.current))
  match target with
  | none => .ok (eSrch, k)
  | some target => setpgidOf fuel k target pid pgid

/-- `setsid` -/
def setsid (k : Kernel) : Int × Kernel :=
  let t := k.currentTask
  if t.pgid = t.pid then (ePerm, k)
  else (t.pid, k.modifyCurrent fun x => { x with sid := x.pid, pgid := x.pid })

structure SpawnAction where
  action : Nat
  oldfd : Int
  newfd : Int
  sigmaskHow : Int
  sigmask : BitVec 32
  pgid : Int
deriving Repr, DecidableEq

/-- One slot of a null-terminated array of user pointers: what
`validate_user_pointer` answers for the slot, and what it points to, with the
answer for that. -/
structure UserSlot (α : Type) where
  res : Int
  value : Option (α × Int)

/-- The validation loops of `add_task`, over `n` slots from `i` on. -/
def scanSlots {α : Type} (slots : Nat → UserSlot α) :
    Nat → Nat → Except Int (List α)
  | 0, _ => .ok []
  | n + 1, i =>
    if (slots i).res < 0 then .error (slots i).res
    else match (slots i).value with
    | none => .ok []
    | some (a, res) =>
      if res < 0 then .error res
      else do
        let rest ← scanSlots slots n (i + 1)
        .ok (a :: rest)

/-- The arguments of `spawn` and `execve`; a missing array is a null pointer. -/
structure ExecArgs where
  argv : Option (Nat → UserSlot Nat)
  envp : Option (Nat → UserSlot Nat)
  actions : Option (Nat → UserSlot SpawnAction)

def maxArgs : Nat := 8192

/-- The checks at the head of `add_task`: the actions, or the error returned.
The last check tests `envc` where it means the number of actions. -/
def validateArgs (args : ExecArgs) : Except Int (List SpawnAction) := do
  match args.argv with
  | none => .ok ()
  | some argv => do
    let argv ← scanSlots argv maxArgs 0
    if argv.length = maxArgs then .error eInval else .ok ()
  let envc ← match args.envp with
    | none => .ok 0
    | some envp => do
      let envp ← scanSlots envp maxArgs 0
      if envp.length = maxArgs then .error eInval else .ok envp.length
  match args.actions with
  | none => .ok []
  | some actions => do
    let actions ← scanSlots actions maxArgs 0
    if envc = maxArgs then .error eInval else .ok actions

/-- What the file systems, the ELF loader and the copying of the arguments to the
new stack answer. -/
structure ExecEnv where
  closeEnv : CloseEnv
  stat : Int
  type : Nat
  lookup : Int
  compatible : Bool
  loadElf : PhysMem → Nat → Except Panic (Option (BitVec 64 × Nat) × PhysMem)
  buildStack : PhysMem → Nat → Except Panic (BitVec 64 × PhysMem)

def userStack : Nat := 0x10000000000

/-- `sizeof(vvar_t)` -/
def vvarSize : Nat := 32

def stackFlags : Flags := ⟨flagsUser ||| flagsRw, by decide⟩
def vvarFlags : Flags := ⟨flagsUser, by decide⟩

/-- One spawn action, run with `current_task` set to the new task. -/
def spawnAction (env : CloseEnv) (fuel : Nat) (k : Kernel) (new : Nat)
    (pid : Int) (a : SpawnAction) : Except Stop (Int × Kernel) :=
  let old := k.current
  let back := fun (r : Int × Kernel) => (r.1, { r.2 with current := old })
  let k := { k with current := new }
  match a.action with
  | 0 => .ok (back (dup2 env k a.oldfd a.newfd))
  | 1 => .ok (back (sigprocmask k a.sigmaskHow a.sigmask))
  | 2 => do
    let r ← setpgid fuel k pid a.pgid
    .ok (back r)
  | 3 => .ok (back (setsid k))
  | _ => .ok (eInval, { k with current := old })

/-- The actions in order, up to the first that fails. -/
def spawnActions (env : CloseEnv) (fuel : Nat) (new : Nat) (pid : Int) :
    List SpawnAction → Kernel → Except Stop (Int × Kernel)
  | [], k => .ok (0, k)
  | a :: rest, k => do
    let (res, k) ← spawnAction env fuel k new pid a
    if res < 0 then .ok (res, k) else spawnActions env fuel new pid rest k

/-- The `O_CLOEXEC` loop of `add_task`. -/
def closeOnExec (env : CloseEnv) (new : Nat) (k : Kernel) : Kernel :=
  loopPure (fun fd k =>
    let entry := (k.tasks new).fdTable fd
    match entry.fd with
    | none => k
    | some d =>
      if !hasBits entry.flags oCloexec then k
      else
        let k := dropRef k d
        let k := if (k.files d).refcount = 0 then
            (closeFileDescription env k d).2 else k
        k.modifyTask new fun x => x.setFd fd ⟨none, 0#32⟩) maxFds k

/-- The part of `add_task` that runs in the new address space, up to the new
stack: `none` with an error to return, or the entry point, the program break and
the stack pointer. -/
def loadProgram (env : ExecEnv) (k : Kernel) (cr3 : Nat) :
    Except Stop (Int × Option (BitVec 64 × Nat × BitVec 64) × Kernel) :=
  if env.stat < 0 then .ok (env.stat, none, k)
  else if env.type = dtDir then .ok (eIsdir, none, k)
  else if env.lookup < 0 then .ok (env.lookup, none, k)
  else if !env.compatible then .ok (eNoexec, none, k)
  else do
    let (loaded, phys) ← liftPaging (env.loadElf k.phys cr3)
    match loaded with
    | none => .ok (eNoexec, none, { k with phys := phys })
    | some (entry, brk) => do
      let phys ← liftPaging
        (allocZeroRegion phys cr3 userStack (pageSize * 128) stackFlags)
      let phys ← liftPaging (allocMmioRegion phys cr3
        (userStack + pageSize * 128) k.vvarPaddr vvarSize vvarFlags)
      let (rsp, phys) ← liftPaging (env.buildStack phys cr3)
      .ok (0, some (entry, brk, rsp), { k with phys := phys })

/-- The head of `add_task` after the checks: the new task, still unlinked. -/
def newTask (k : Kernel) (new : Nat) (pid : Int) : Except Stop Kernel := do
  let (cr3, phys) ← liftPaging (clonePageTables k.phys k.basePml4)
  let k := allocTask k new phys
    { k.currentTask with state := .ready, inSignal := false, cr3 := cr3,
                         pid := pid }
  .ok (addRefs (k.tasks new).fdTable k)

/-- `add_task` from the switch to the new address space on. -/
def startTask (env : ExecEnv) (k : Kernel) (parent : Option Nat) (pid : Int)
    (new : Nat) : Except Stop (Int × Kernel) := do
  let (res, program, k) ← loadProgram env k (k.tasks new).cr3
  match program with
  | none => .ok (res, k)
  | some (entry, brk, rsp) =>
    let k := k.modifyTask new fun x =>
      { x with initialBrk := brk, brk := brk,
               iframe := { k.currentTask.iframe with rsp := rsp, rip := entry } }
    match parent with
    | none => .error .nullPointer
    | some parent => .ok (pid, linkTask k new parent)

/-- `add_task`; `new` is the address of the new task. -/
def addTask (env : ExecEnv) (fuel : Nat) (k : Kernel) (args : ExecArgs)
    (parent : Option Nat) (pid : Int) (new : Nat) :
    Except Stop (Int × Kernel) :=
  match validateArgs args with
  | .error res => .ok (res, k)
  | .ok actions => do
    let k ← newTask k new pid
    let (res, k) ← spawnActions env.closeEnv fuel new pid actions k
    if res < 0 then .ok (res, k)
    else startTask env (closeOnExec env.closeEnv new k) parent pid new

/-- `spawn` -/
def spawn (env : ExecEnv) (fuel : Nat) (k : Kernel) (args : ExecArgs)
    (new : Nat) : Except Stop (Int × Kernel) :=
  if k.lastPid = maxPid then .error .noPids
  else do
    let k := { k with lastPid := k.lastPid + 1 }
    let (res, k) ← addTask env fuel k args (some k.current) k.lastPid new
    if res ≠ k.lastPid then .ok (res, k)
    else
      let k := k.modifyCurrent fun x =>
        { x with state := .ready, iframe := { x.iframe with rax := res } }
      .ok (res, { k with switching := true })

/-- The loop of `execve` that redirects the tasks waiting for `old`. -/
def redirectWaiters (old new : Nat) : List Nat → Kernel → Kernel
  | [], k => k
  | t :: rest, k =>
    redirectWaiters old new rest (if (k.tasks t).blockedProcess = some old then
        k.modifyTask t fun x => { x with blockedProcess := some new }
      else k)

/-- The last part of `execve`: the children go to the new task. -/
def execveFinish (fuel : Nat) (k : Kernel) (old new : Nat) :
    Except Stop Kernel := do
  let k ← reparent fuel k new (k.tasks old).child
  .ok { k with switching := true }

/-- `execve` -/
def execve (env : ExecEnv) (fuel : Nat) (k : Kernel) (args : ExecArgs)
    (new : Nat) : Except Stop (Int × Kernel) := do
  let old := k.current
  let (res, k) ← addTask env fuel k { args with actions := none }
    k.currentTask.parent k.currentTask.pid new
  if res ≠ (k.tasks old).pid then .ok (res, k)
  else
    let k := k.modifyTask old fun x => { x with state := .deleted }
    let ring ← ringFrom k fuel initTask
    let k := redirectWaiters old new (ring.tail ++ [initTask]) k
    let k ← execveFinish fuel (releaseProcessFds env.closeEnv k) old new
    .ok (res, k)

end GlitchedOS
