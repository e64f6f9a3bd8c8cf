/-
Sending signals, and waiting for children: `signal_task`, `kill`, `waitpid` and
`check_blocked_tasks`, with the steps a running system takes.
-/
import GlitchedOS.Process.Scheduler
import GlitchedOS.Lib.Run

namespace GlitchedOS

/-- `SIGCHLD` for the parent of a task. -/
def notifyParent (k : Kernel) (t : Nat) : Kernel :=
  match (k.tasks t).parent with
  | none => k
  | some parent => k.modifyTask parent fun x =>
      { x with pendingSignals := x.pendingSignals ||| sigBit sigChld }

/-- The test of `signal_task` for a signal that stops the task. -/
def stops (x : Task) (sig : Nat) : Bool :=
  decide (signalDefaultActions sig = .stop) &&
    decide (x.signalHandlers sig = .dfl) && decide (x.state ≠ .stopped)

/-- `signal_task` -/
def signalTask (k : Kernel) (t sig : Nat) : Kernel :=
  let k := k.modifyTask t fun x =>
    { x with pendingSignals := x.pendingSignals ||| sigBit sig }
  let k := if stops (k.tasks t) sig then
      notifyParent (k.modifyTask t fun x =>
        { x with state := .stopped
                 pendingSignals := x.pendingSignals &&& ~~~sigBit sig
                 stopSignal := sig
                 waitpidEvent := 1 }) t
    else k
  if sig = sigCont ∧ (k.tasks t).state = .stopped then
    notifyParent (k.modifyTask t fun x =>
      { x with state := .ready, waitpidEvent := 2 }) t
  else k

/-- The tasks `kill` signals. -/
def killTarget (k : Kernel) (pid : Int) (t : Nat) : Bool :=
  if 0 < pid then decide ((k.tasks t).pid = pid)
  else if pid = 0 then decide ((k.tasks t).pgid = k.currentTask.pgid)
  else if pid = -1 then decide (t ≠ initTask ∧ t ≠ k.current)
  else decide ((k.tasks t).pgid = -pid)

/-- The loop of `kill`. -/
def killLoop (pid : Int) (sig : Nat) : List Nat → Kernel → Bool × Kernel
  | [], k => (false, k)
  | t :: rest, k =>
    if killTarget k pid t && decide ((k.tasks t).state ≠ .deleted) then
      (true, (killLoop pid sig rest (signalTask k t sig)).2)
    else killLoop pid sig rest k

/-- `kill` -/
def kill (fuel : Nat) (k : Kernel) (pid : Int) (sig : Nat) :
    Except Stop (Int × Kernel) :=
  if sig < 1 ∨ 31 < sig then .ok (eInval, k)
  else do
    let ring ← ringFrom k fuel initTask
    let (found, k) := killLoop pid sig ring k
    .ok (if found then 0 else eSrch, k)

/-- `raise` -/
def raise (k : Kernel) (sig : Nat) : Int × Kernel :=
  if sig < 1 ∨ 31 < sig then (eInval, k)
  else (0, signalTask k k.current sig)

/-- `get_first_waitpid_target`, from the child `c` on. -/
def firstWaitpidTarget (k : Kernel) (flags : BitVec 32) :
    Nat → Option Nat → Except Stop (Option Nat)
  | _, none => .ok none
  | 0, some _ => .error .diverges
  | n + 1, some c =>
    if (k.tasks c).state = .zombie then .ok (some c)
    else if hasBits flags wuntraced && decide ((k.tasks c).waitpidEvent = 1) then
      .ok (some c)
    else if hasBits flags wcontinued && decide ((k.tasks c).waitpidEvent = 2) then
      .ok (some c)
    else firstWaitpidTarget k flags n (k.tasks c).nextSibling

/-- `W_EXITCODE` -/
def wExitcode (status sig : Int) : BitVec 32 :=
  (BitVec.ofInt 32 status <<< 8) ||| BitVec.ofInt 32 sig

/-- `W_STOPCODE` -/
def wStopcode (sig : Nat) : BitVec 32 := (BitVec.ofNat 32 sig <<< 8) ||| 0x7f#32

/-- `W_CONTINUED` -/
def wContinued : BitVec 32 := 0xffff#32

def exitWord (returnCode : Int) : BitVec 32 :=
  if 0 ≤ returnCode then wExitcode returnCode 0 else wExitcode 0 (-returnCode)

/-- `if (wstatus) *wstatus = word`, in the address space `cr3`. -/
def storeStatus (k : Kernel) (cr3 : Nat) (wstatus : Option Nat)
    (word : BitVec 32) : Kernel :=
  match wstatus with
  | none => k
  | some addr =>
    let space := Function.update (k.userInts cr3) addr word
    { k with userInts := Function.update k.userInts cr3 space }

/-- The kinds of event `waitpid` reports. -/
inductive WaitEvent where
  | terminated
  | stopped
  | continued
deriving Repr, DecidableEq

/-- The event of `child` that a call with these flags reports, if any. -/
def waitEvent (x : Task) (flags : BitVec 32) : Option WaitEvent :=
  if x.state = .zombie then some .terminated
  else if hasBits flags wuntraced && decide (x.waitpidEvent = 1) then
    some .stopped
  else if hasBits flags wcontinued && decide (x.waitpidEvent = 2) then
    some .continued
  else none

/-- The word stored for an event of `x`. -/
def eventWord (x : Task) : WaitEvent → BitVec 32
  | .terminated => exitWord x.returnCode
  | .stopped => wStopcode x.stopSignal
  | .continued => wContinued

/-- Taking an event of a child off: a terminated child is deleted. -/
def consumeEvent (k : Kernel) (child : Nat) : WaitEvent → Kernel
  | .terminated => k.modifyTask child fun x => { x with state := .deleted }
  | _ => k.modifyTask child fun x => { x with waitpidEvent := 0 }

/-- What a call of `waitpid` comes to. -/
inductive WaitResult where
  | returned (ret : Int) (report : Option (Nat × WaitEvent))
  | blocked
deriving Repr, DecidableEq

/-- The last lines of both halves of `waitpid`. -/
def waitpidBlock (fuel : Nat) (k : Kernel) (child wstatus : Option Nat)
    (options : BitVec 32) : Except Stop (WaitResult × Kernel) :=
  if hasBits options wnohang then .ok (.returned 0 none, k)
  else if hasPendingSignals k.currentTask then .ok (.returned eIntr none, k)
  else do
    let k ← runNext fuel (k.modifyCurrent fun x =>
      { x with state := .blocked, blockReason := .waitpid,
               blockedProcess := child, wstatus := wstatus,
               waitpidFlags := options })
    .ok (.blocked, k)

/-- `waitpid` -/
def waitpid (fuel : Nat) (k : Kernel) (pid : Int) (wstatus : Option Nat)
    (options : BitVec 32) : Except Stop (WaitResult × Kernel) :=
  let report := fun (child : Nat) (event : WaitEvent) =>
    let k := storeStatus k k.currentTask.cr3 wstatus
      (eventWord (k.tasks child) event)
    (WaitResult.returned (k.tasks child).pid (some (child, event)),
      consumeEvent k child event)
  if 0 < pid then do
    match ← getChild k pid fuel k.currentTask.child with
    | none => .ok (.returned eSrch none, k)
    | some child =>
      match waitEvent (k.tasks child) options with
      | some event => .ok (report child event)
      | none => waitpidBlock fuel k (some child) wstatus options
  else do
    let child ← firstWaitpidTarget k options fuel k.currentTask.child
    match child.bind fun child =>
        (waitEvent (k.tasks child) options).map fun event => (child, event) with
    | some (child, event) => .ok (report child event)
    | none => waitpidBlock fuel k none wstatus options

def unblock (k : Kernel) (t : Nat) (rax : Int) : Kernel :=
  k.modifyTask t fun x =>
    { x with state := .ready, blockReason := .none,
             iframe := { x.iframe with rax := rax } }

/-- `check_blocked_tasks` on a sleeping task. -/
def checkDelay (reduceTicks : Bool) (k : Kernel) (t : Nat) : Kernel :=
  let k := if reduceTicks then
      k.modifyTask t fun x => { x with blockedTicks := x.blockedTicks - 1#64 }
    else k
  let k := if (k.tasks t).blockedTicks = 0#64 then
      k.modifyTask t fun x => { x with state := .ready, blockReason := .none }
    else k
  if hasPendingSignals (k.tasks t) then
    (unblock k t (k.tasks t).blockedTicks.toInt).modifyTask t fun x =>
      { x with blockedTicks := 0#64 }
  else k

/-- `check_blocked_tasks` on a task that waits for one child. -/
def checkWaitChild (k : Kernel) (t child : Nat) :
    Option (Nat × WaitEvent) × Kernel :=
  let x := k.tasks t
  match waitEvent (k.tasks child) x.waitpidFlags with
  | some event =>
    let k := storeStatus k x.cr3 x.wstatus (eventWord (k.tasks child) event)
    let k := consumeEvent k child event
    (some (child, event), (unblock k t (k.tasks child).pid).modifyTask t fun x =>
      { x with blockedProcess := none })
  | none =>
    if hasPendingSignals x then
      (none, (unblock k t eIntr).modifyTask t fun x =>
        { x with blockedProcess := none })
    else (none, k)

/-- `check_blocked_tasks` on a task that waits for any child.  A terminated child
is deleted only when the status is stored, and the status word of a stopped child
is made from the stop signal of the waiting task. -/
def checkWaitAny (fuel : Nat) (k : Kernel) (t : Nat) :
    Except Stop (Option (Nat × WaitEvent) × Kernel) := do
  let x := k.tasks t
  match ← firstWaitpidTarget k x.waitpidFlags fuel x.child with
  | none =>
    .ok (none, if hasPendingSignals x then unblock k t eIntr else k)
  | some child =>
    match waitEvent (k.tasks child) x.waitpidFlags with
    | none => .ok (none, k)
    | some event =>
      let word := match event with
        | .stopped => wStopcode x.stopSignal
        | _ => eventWord (k.tasks child) event
      let k := storeStatus k x.cr3 x.wstatus word
      let k := if event = .terminated ∧ x.wstatus = none then k
        else consumeEvent k child event
      .ok (some (child, event), unblock k t (k.tasks child).pid)

/-- The body of the loop of `check_blocked_tasks`, with the event it reports. -/
def checkBlockedTask (fuel : Nat) (reduceTicks : Bool) (k : Kernel) (t : Nat) :
    Except Stop (Option (Nat × WaitEvent) × Kernel) :=
  let x := k.tasks t
  if x.state ≠ .blocked then .ok (none, k)
  else match x.blockReason with
  | .none => .ok (none, k)
  | .delay => .ok (none, checkDelay reduceTicks k t)
  | .waitpid =>
    match x.blockedProcess with
    | some child => .ok (checkWaitChild k t child)
    | none => checkWaitAny fuel k t

/-- The loop of `check_blocked_tasks`, with the events it reports. -/
def checkBlockedLoop (fuel : Nat) (reduceTicks : Bool) :
    List Nat → Kernel → Except Stop (List (Nat × WaitEvent) × Kernel)
  | [], k => .ok ([], k)
  | t :: rest, k => do
    let (report, k) ← checkBlockedTask fuel reduceTicks k t
    let (reports, k) ← checkBlockedLoop fuel reduceTicks rest k
    .ok (report.toList ++ reports, k)

/-- `check_blocked_tasks` -/
def checkBlockedTasks (fuel : Nat) (reduceTicks : Bool) (k : Kernel) :
    Except Stop (List (Nat × WaitEvent) × Kernel) := do
  let ring ← ringFrom k fuel initTask
  checkBlockedLoop fuel reduceTicks ring k

/-- `sigaction` with a new handler. -/
def sigaction (k : Kernel) (sig : Nat) (handler : Handler) : Int × Kernel :=
  if sig < 1 ∨ 31 < sig then (eInval, k)
  else if sig = sigStop ∨ sig = sigKill then (ePerm, k)
  else (0, k.modifyCurrent fun x =>
    { x with signalHandlers := Function.update x.signalHandlers sig handler })

/-- What the system does next.  Addresses of new tasks and pipes, and the answers
of the other parts of the kernel, are given with the operation. -/
inductive Op where
  | switchTask (env : CloseEnv)
  | userCode (regs : Iframe)
  | deliverSignals (env : CloseEnv)
  | runNext
  | checkBlockedTasks (reduceTicks : Bool)
  | createKworker (new : Nat) (regs : Iframe)
  | kworkerExit
  | sleep (ms : BitVec 64)
  | fork (new : Nat)
  | spawn (env : ExecEnv) (pathRes : Int) (args : ExecArgs) (new : Nat)
  | execve (env : ExecEnv) (pathRes : Int) (args : ExecArgs) (new : Nat)
  | exit (env : CloseEnv) (ret : Int)
  | waitpid (pid : Int) (wstatus : Option Nat) (options : BitVec 32)
  | kill (pid : Int) (sig : Nat)
  | raise (sig : Nat)
  | sigaction (sig : Nat) (handler : Handler)
  | fdOpen (env : OpenEnv) (flags : BitVec 32)
  | fdClose (env : CloseEnv) (fd : Int)
  | fcntl (fd : Int) (cmd : Nat) (arg : Int)
  | dup2 (env : CloseEnv) (fd newFd : Int)
  | pipe (p : Nat)
  | fdSocket (res : Int) (sock : Nat)
  | sigprocmask (how : Int) (set : BitVec 32)
  | setpgid (pid pgid : Int)
  | setsid
  | mount (env : MountEnv) (walk : WalkEnv) (target : List String) (new : Nat)
  | unmount (walk : WalkEnv) (path : List String) (res : Int)

/-- A system call entered: `rax` holds its number. -/
def enterSyscall (k : Kernel) (number : Int) : Kernel :=
  k.modifyCurrent fun x => { x with iframe := { x.iframe with rax := number } }

/-- A system call left: `rax` holds its result. -/
def leaveSyscall (r : Int × Kernel) : Kernel := enterSyscall r.2 r.1

/-- `SYSCALL_SPAWN`; `pathRes` is what `validate_user_string` answers. -/
def sysSpawn (env : ExecEnv) (fuel : Nat) (k : Kernel) (pathRes : Int)
    (args : ExecArgs) (new : Nat) : Except Stop Kernel :=
  let k := enterSyscall k 54
  if pathRes < 0 then .ok (leaveSyscall (pathRes, k))
  else do
    let (res, k) ← spawn env fuel k args new
    .ok (if k.switching then k else leaveSyscall (res, k))

/-- `SYSCALL_EXECVE`, which drops the result of `execve`. -/
def sysExecve (env : ExecEnv) (fuel : Nat) (k : Kernel) (pathRes : Int)
    (args : ExecArgs) (new : Nat) : Except Stop Kernel :=
  let k := enterSyscall k 12
  if pathRes < 0 then .ok (leaveSyscall (pathRes, k))
  else do
    let (_, k) ← execve env fuel k args new
    .ok (if k.switching then k else leaveSyscall (pathRes, k))

/-- `SYSCALL_WAITPID`, with the event it reports. -/
def sysWaitpid (fuel : Nat) (k : Kernel) (pid : Int) (wstatus : Option Nat)
    (options : BitVec 32) : Except Stop (List (Nat × WaitEvent) × Kernel) := do
  match ← waitpid fuel (enterSyscall k 53) pid wstatus options with
  | (.returned ret report, k) => .ok (report.toList, leaveSyscall (ret, k))
  | (.blocked, k) => .ok ([], k)

/-- `SYSCALL_MOUNT` and `SYSCALL_UNMOUNT`, with what the call leaves of the
mounts; `none` is a loop that does not end. -/
def sysMounts (k : Kernel) : Option (Int × MountTable) → Except Stop Kernel
  | none => .error .diverges
  | some (res, vfs) => .ok (leaveSyscall (res, { k with vfs := vfs }))

/-- The state an operation leaves, and the events of children it reports. -/
def Op.run (fuel : Nat) (k : Kernel) :
    Op → Except Stop (List (Nat × WaitEvent) × Kernel)
  | .switchTask env => do .ok ([], ← GlitchedOS.switchTask env fuel k)
  | .userCode regs => .ok ([], k.modifyCurrent fun x => { x with iframe := regs })
  | .deliverSignals env => do .ok ([], ← GlitchedOS.deliverSignals env fuel k)
  | .runNext => do .ok ([], ← GlitchedOS.runNext fuel k)
  | .checkBlockedTasks reduceTicks =>
      GlitchedOS.checkBlockedTasks fuel reduceTicks k
  | .createKworker new regs => do .ok ([], ← GlitchedOS.createKworker k new regs)
  | .kworkerExit => .ok ([], GlitchedOS.kworkerExit k)
  | .sleep ms => do .ok ([], ← GlitchedOS.sleep fuel (enterSyscall k 16) ms)
  | .fork new => do .ok ([], ← GlitchedOS.fork (enterSyscall k 11) new)
  | .spawn env pathRes args new => do
      .ok ([], ← sysSpawn env fuel k pathRes args new)
  | .execve env pathRes args new => do
      .ok ([], ← sysExecve env fuel k pathRes args new)
  | .exit env ret => do
      .ok ([], ← GlitchedOS.exit env fuel (enterSyscall k 0) ret)
  | .waitpid pid wstatus options => sysWaitpid fuel k pid wstatus options
  | .kill pid sig => do
      .ok ([], leaveSyscall (← GlitchedOS.kill fuel k pid sig))
  | .raise sig => .ok ([], leaveSyscall (GlitchedOS.raise k sig))
  | .sigaction sig handler =>
      .ok ([], leaveSyscall (GlitchedOS.sigaction k sig handler))
  | .fdOpen env flags => do
      .ok ([], leaveSyscall (← GlitchedOS.fdOpen env fuel k flags))
  | .fdClose env fd => .ok ([], leaveSyscall (GlitchedOS.fdClose env k fd))
  | .fcntl fd cmd arg => .ok ([], leaveSyscall (GlitchedOS.fcntl k fd cmd arg))
  | .dup2 env fd newFd =>
      .ok ([], leaveSyscall (GlitchedOS.dup2 env k fd newFd))
  | .pipe p => .ok ([], leaveSyscall (GlitchedOS.pipe k p))
  | .fdSocket res sock => .ok ([], leaveSyscall (GlitchedOS.fdSocket k res sock))
  | .sigprocmask how set =>
      .ok ([], leaveSyscall (GlitchedOS.sigprocmask k how set))
  | .setpgid pid pgid => do
      .ok ([], leaveSyscall (← GlitchedOS.setpgid fuel k pid pgid))
  | .setsid => .ok ([], leaveSyscall (GlitchedOS.setsid k))
  | .mount env walk target new => do
      .ok ([], ← sysMounts k (mountFilesystem env walk fuel k.vfs target new))
  | .unmount walk path res => do
      .ok ([], ← sysMounts k (unmountFilesystem walk fuel k.vfs path res))

/-- When an operation can happen.  Only user tasks make system calls that deal
with processes and descriptors: the idle task halts, and no kernel worker makes
them.  `kmalloc` returns memory that is not in use. -/
def Op.enabled (k : Kernel) : Op → Prop
  | .switchTask _ => k.switching = true
  | .runNext | .checkBlockedTasks _ => k.switching = false
  | .createKworker new _ => k.switching = false ∧ new ∉ k.allocated
  | .kworkerExit | .sleep _ => k.switching = false ∧ k.current ≠ idleTask
  | .fork new | .spawn _ _ _ new | .execve _ _ _ new =>
      k.switching = false ∧ k.currentTask.isKworker = false ∧ new ∉ k.allocated
  | .pipe p =>
      k.switching = false ∧ k.currentTask.isKworker = false ∧ p ∉ k.livePipes
  | .mount _ _ _ new =>
      k.switching = false ∧ k.currentTask.isKworker = false ∧ new ∉ k.vfs.live
  | _ => k.switching = false ∧ k.currentTask.isKworker = false

def Step (k : Kernel) (op : Op) (k' : Kernel) : Prop :=
  op.enabled k ∧ ∃ fuel reports, op.run fuel k = .ok (reports, k')

instance (k : Kernel) (op : Op) : Decidable (op.enabled k) :=
  match op with
  | .switchTask _ => inferInstanceAs (Decidable (k.switching = true))
  | .runNext | .checkBlockedTasks _ =>
      inferInstanceAs (Decidable (k.switching = false))
  | .createKworker new _ =>
      inferInstanceAs (Decidable (k.switching = false ∧ new ∉ k.allocated))
  | .kworkerExit | .sleep _ =>
      inferInstanceAs (Decidable (k.switching = false ∧ k.current ≠ idleTask))
  | .fork new | .spawn _ _ _ new | .execve _ _ _ new =>
      inferInstanceAs (Decidable (k.switching = false ∧
        k.currentTask.isKworker = false ∧ new ∉ k.allocated))
  | .pipe p =>
      inferInstanceAs (Decidable (k.switching = false ∧
        k.currentTask.isKworker = false ∧ p ∉ k.livePipes))
  | .mount _ _ _ new =>
      inferInstanceAs (Decidable (k.switching = false ∧
        k.currentTask.isKworker = false ∧ new ∉ k.vfs.live))
  | .userCode _ | .deliverSignals _ | .exit _ _ | .waitpid _ _ _ | .kill _ _
  | .raise _ | .sigaction _ _ | .fdOpen _ _ | .fdClose _ _ | .fcntl _ _ _
  | .dup2 _ _ _ | .fdSocket _ _ | .sigprocmask _ _ | .setpgid _ _ | .setsid
  | .unmount _ _ _ =>
      inferInstanceAs (Decidable (k.switching = false ∧
        k.currentTask.isKworker = false))

/-- The operations in order, each where it is enabled and `keep` holds. -/
def runOps (fuel : Nat) (keep : Kernel → Bool) :
    List Op → Kernel → Option Kernel
  | [], k => some k
  | op :: rest, k =>
    if op.enabled k ∧ keep k = true then
      match op.run fuel k with
      | .ok (_, k) => runOps fuel keep rest k
      | .error _ => none
    else none

theorem runOps_run {fuel : Nat} {keep : Kernel → Bool} :
    ∀ {ops : List Op} {k k' : Kernel}, runOps fuel keep ops k = some k' →
      Run (fun k op k' => keep k = true ∧ Step k op k') k ops k'
  | [], k, _, h => by
      obtain rfl := Option.some.inj h
      exact .nil k
  | op :: rest, k, k', h => by
      rw [runOps] at h
      split at h
      · rename_i henabled
        split at h
        · rename_i reports k₁ hop
          exact .cons ⟨henabled.2, henabled.1, fuel, reports, hop⟩ (runOps_run h)
        · cases h
      · cases h

def processTicks : Int := 10

def zeroTask : Task where
  iframe := ⟨0#64, 0#64, 0#64, 0, 0⟩
  signalInterruptedIframe := ⟨0#64, 0#64, 0#64, 0, 0⟩
  pid := 0
  pgid := 0
  sid := 0
  inSignal := false
  state := .ready
  cr3 := 0
  initialBrk := 0
  brk := 0
  fdTable := fun _ => ⟨none, 0#32⟩
  signalHandlers := fun _ => .dfl
  pendingSignals := 0#32
  signalMask := 0#32
  timeSlice := 0
  blockReason := .none
  blockedTicks := 0#64
  isKworker := false
  wstatus := none
  blockedProcess := none
  waitpidEvent := 0
  waitpidFlags := 0#32
  returnCode := 0
  stopSignal := 0
  next := 0
  nextSibling := none
  parent := none
  child := none

/-- What `scheduler_init` and the loading of the first program leave: the memory,
the page tables of the kernel and of the two tasks, the first frames, and the
mount of the root file system. -/
structure BootInfo where
  phys : PhysMem
  basePml4 : Nat
  vvarPaddr : Nat
  idleCr3 : Nat
  idleFrame : Iframe
  initCr3 : Nat
  initFrame : Iframe
  initialBrk : Nat
  root : Nat
  rootType : Nat

/-- The two static tasks when `run_init` jumps to the first program.  The state
of `init_task` is still the zero `STATE_READY`. -/
def bootTasks (info : BootInfo) (t : Nat) : Task :=
  if t = idleTask then
    { zeroTask with
      next := idleTask, timeSlice := processTicks, cr3 := info.idleCr3
      iframe := info.idleFrame, isKworker := true }
  else if t = initTask then
    { zeroTask with
      pid := 1, pgid := 1, sid := 1, next := initTask
      timeSlice := processTicks, cr3 := info.initCr3, iframe := info.initFrame
      parent := some initTask, initialBrk := info.initialBrk
      brk := info.initialBrk }
  else zeroTask

/-- The kernel when `run_init` jumps to the first program. -/
def bootKernel (info : BootInfo) : Kernel where
  phys := info.phys
  userInts := fun _ _ => 0#32
  tasks := bootTasks info
  allocated := {idleTask, initTask}
  files := fun _ => ⟨⟨0, 0⟩, 0, 0, .file, 0, 0#32, 0⟩
  pipes := fun _ => ⟨0, 0⟩
  livePipes := ∅
  vfs := ⟨fun _ => ⟨0, info.rootType, 0, none, none, none⟩, {info.root},
    info.root⟩
  current := initTask
  rr := initTask
  lastPid := 1
  ticksRemaining := processTicks
  basePml4 := info.basePml4
  vvarPaddr := info.vvarPaddr
  switching := false

/-- A machine with 64 frames, five of them in use after boot, and page tables
that map nothing. -/
def smallBoot : BootInfo where
  phys :=
    { mem := fun _ _ => 0#64
      memoryBitmap := fun f => if f < 5 then 1 else 0
      firstUsable := 5
      usablePageCount := 64
      zeroPage := 1
      usable_le := by decide }
  basePml4 := 100
  vvarPaddr := 2
  idleCr3 := 3
  idleFrame := ⟨0#64, 0#64, 0#64, 0, 8⟩
  initCr3 := 4
  initFrame := ⟨0x400000#64, 0#64, 0x1007fff0#64, 0, userCs⟩
  initialBrk := 0x500000
  root := 1
  rootType := 0

/-- Every close succeeds. -/
def closes : CloseEnv := ⟨fun _ => 0, fun _ => 0⟩

/-- Where every word is 0, `clone_page_tables` takes a frame and changes no word. -/
theorem clonePageTables_blank {s s' : PhysMem} {f : Nat} (hmem : s'.mem = fun _ _ => 0#64)
    (halloc : getAvailableAddress s = .ok (f, s')) (root : Nat) :
    clonePageTables s root = .ok (f, s'.incCount f) := by
  have hblank : (s'.incCount f).zeroFrame f = s'.incCount f := by
    simp [PhysMem.zeroFrame, PhysMem.incCount, PhysMem.setCount, hmem]
  have hloop (n : Nat) : loopRounds (fun i s =>
      if 256 ≤ i then .ok (s.writeWord f i (s.mem root i))
      else cloneEntry (cloneTable 2) root f i s) n (s'.incCount f) = .ok (s'.incCount f) := by
    induction n with
    | zero => rfl
    | succ n ih =>
        have hwrite : Radix.write (fun _ _ => 0#64) f n 0#64 = fun _ _ => (0#64 : Word) := by
          funext t i
          simp [Radix.write]
        rw [loopRounds, ih]
        simp [bind, Except.bind, cloneEntry, PhysMem.incCount, PhysMem.setCount,
          PhysMem.writeWord, hmem, present, hasFlag, hwrite]
  rw [clonePageTables, allocatePhysicalPage, halloc]
  simp only [bind, Except.bind, hblank, hloop]

/-- The kernel of `smallBoot` after a first `fork`. -/
def childBorn : Kernel :=
  let k := enterSyscall (bootKernel smallBoot) 11
  let k := allocTask k 2 ({ smallBoot.phys with firstUsable := 6 }.incCount 5)
    { k.currentTask with state := .ready, cr3 := 5 }
  forkLink (addRefs (k.tasks 2).fdTable k) 2

variable {fuel : Nat}

theorem fork_childBorn : Op.run fuel (bootKernel smallBoot) (.fork 2) = .ok ([], childBorn) := by
  have halloc : getAvailableAddress smallBoot.phys =
      .ok (5, { smallBoot.phys with firstUsable := 6 }) := rfl
  have hclone : clonePageTables (enterSyscall (bootKernel smallBoot) 11).phys
      (enterSyscall (bootKernel smallBoot) 11).currentTask.cr3 = _ :=
    clonePageTables_blank rfl halloc 4
  rw [Op.run, fork, if_neg (by decide), hclone]
  rfl

theorem runOps_childBorn (ops : List Op) :
    runOps fuel (fun _ => true) (.fork 2 :: ops) (bootKernel smallBoot) =
      runOps fuel (fun _ => true) ops childBorn := by
  rw [runOps, if_pos (by decide), fork_childBorn]

end GlitchedOS
