/-
What a `spawn` or `execve` that fails leaves behind.  `add_task` undoes nothing:
an error found after the new task is made leaves its page tables allocated and
the descriptors it shares counted.  `SYSCALL_EXECVE` moreover drops the error.
-/
import GlitchedOS.Process.TreePrograms
import GlitchedOS.Paging.Walk

namespace GlitchedOS

variable {k k' : Kernel} {new : Nat}

inductive ExecCall where
  | spawn
  | execve
deriving Repr, DecidableEq

namespace ExecCall

/-- The call of `add_task` each of them makes. -/
def addTask (env : ExecEnv) (fuel : Nat) (k : Kernel) (args : ExecArgs)
    (new : Nat) : ExecCall → Except Stop (Int × Kernel)
  | .spawn =>
    if k.lastPid = maxPid then .error .noPids
    else
      let k := enterSyscall k 54
      GlitchedOS.addTask env fuel { k with lastPid := k.lastPid + 1 } args
        (some k.current) (k.lastPid + 1) new
  | .execve =>
    let k := enterSyscall k 12
    GlitchedOS.addTask env fuel k { args with actions := none }
      k.currentTask.parent k.currentTask.pid new

def run (env : ExecEnv) (fuel : Nat) (k : Kernel) (pathRes : Int)
    (args : ExecArgs) (new : Nat) : ExecCall → Except Stop Kernel
  | .spawn => sysSpawn env fuel k pathRes args new
  | .execve => sysExecve env fuel k pathRes args new

end ExecCall

def framesInUse (s : PhysMem) : Set Nat := { f | s.memoryBitmap f ≠ 0 }

structure Unchanged (k k' : Kernel) : Prop where
  refcounts : ∀ d, (k'.files d).refcount = (k.files d).refcount
  pipes : ∀ p, k'.pipes p = k.pipes p
  mounts : ∀ m, (k'.vfs.mounts m).refcount = (k.vfs.mounts m).refcount
  links : ∀ t, (k'.tasks t).links = (k.tasks t).links
  table : k'.currentTask.fdTable = k.currentTask.fdTable
  space : ∀ addr, pte k'.phys k'.currentTask.cr3 addr =
    pte k.phys k.currentTask.cr3 addr
  frames : framesInUse k'.phys = framesInUse k.phys

/-- `load_elf` allocates pages and releases none. -/
def ExecEnv.FreesNoPage (env : ExecEnv) : Prop :=
  ∀ phys cr3 loaded phys', env.loadElf phys cr3 = .ok (loaded, phys') →
    ∀ f, phys.memoryBitmap f ≠ 0 → phys'.memoryBitmap f ≠ 0

/-- The page tables `clone_page_tables` makes for a new program are in use: no
count of a frame wraps around while it shares pages. -/
def CloneCounts (k : Kernel) : Prop :=
  ∀ cr3 phys, clonePageTables k.phys k.basePml4 = .ok (cr3, phys) →
    phys.memoryBitmap cr3 ≠ 0

theorem clonePageTables_free {s s' : PhysMem} {root cr3 : Nat}
    (h : clonePageTables s root = .ok (cr3, s')) : s.memoryBitmap cr3 = 0 := by
  rw [clonePageTables, bind_ok] at h
  obtain ⟨⟨f, s₁⟩, halloc, h⟩ := h
  rw [bind_ok] at h
  obtain ⟨s₂, -, h⟩ := h
  obtain ⟨rfl, -⟩ := Prod.mk.inj (Except.ok.inj h)
  exact (allocatePhysicalPage_ok halloc).2.1

theorem FilesOnly.phys (h : FilesOnly k k') : k'.phys = k.phys := by
  obtain ⟨_, _, _, _, _, rfl⟩ := h
  rfl

/-- No call of `setpgid` touches the memory. -/
theorem setpgid_phys {fuel : Nat} {pid pgid : Int} {r : Int × Kernel}
    (h : setpgid fuel k pid pgid = .ok r) : r.2.phys = k.phys := by
  rcases setpgid_ok h with heq | ⟨t, p, heq⟩
  · rw [heq]
  · rw [heq]
    rfl

theorem spawnActions_phys {env : CloseEnv} {fuel : Nat} {pid : Int} :
    ∀ {actions : List SpawnAction} {k : Kernel} {r : Int × Kernel},
      spawnActions env fuel new pid actions k = .ok r → r.2.phys = k.phys
  | [], k, r, h => by rw [← Except.ok.inj h]
  | a :: rest, k, r, h => by
      have hone : ∀ {r : Int × Kernel}, spawnAction env fuel k new pid a = .ok r →
          r.2.phys = k.phys := by
        intro r h
        rw [spawnAction] at h
        dsimp only at h
        split at h
        · rw [← Except.ok.inj h]
          exact (FilesOnly.dup2 env { k with current := new } a.oldfd a.newfd).phys
        · rw [← Except.ok.inj h]
          dsimp only
          rw [sigprocmask]
          dsimp only
          split
          · rfl
          split
          · rfl
          split <;> rfl
        · rw [bind_ok_iff] at h
          obtain ⟨r', hset, h⟩ := h
          rw [← Except.ok.inj h]
          have hphys := setpgid_phys hset
          exact hphys
        · rw [← Except.ok.inj h]
          dsimp only
          rw [setsid]
          split <;> rfl
        · rw [← Except.ok.inj h]
      rw [spawnActions, bind_ok_iff] at h
      obtain ⟨⟨res, k₁⟩, ha, h⟩ := h
      have hk₁ := hone ha
      dsimp only at h hk₁
      split at h
      · rw [← Except.ok.inj h]
        exact hk₁
      · exact (spawnActions_phys h).trans hk₁

/-- An error found once the new task is made leaves the page tables it got. -/
theorem addTask_late {env : ExecEnv} {fuel : Nat} {args : ExecArgs}
    {parent : Option Nat} {pid res : Int} {actions : List SpawnAction}
    (hargs : validateArgs args = .ok actions) (hload : env.FreesNoPage)
    (hclone : CloneCounts k)
    (h : addTask env fuel k args parent pid new = .ok (res, k')) (hneg : res < 0)
    (hpid : 0 ≤ pid) : framesInUse k'.phys ≠ framesInUse k.phys := by
  rw [addTask, hargs] at h
  dsimp only at h
  rw [bind_ok_iff] at h
  obtain ⟨k₁, hnew, h⟩ := h
  rw [bind_ok_iff] at h
  obtain ⟨⟨res', k₂⟩, hactions, h⟩ := h
  obtain ⟨cr3, phys, hmade, hk₁⟩ := newTask_ok hnew
  have hphys₁ : k₁.phys = phys := by
    rw [hk₁]
    exact (FilesOnly.addRefs _ _).phys
  have hphys₂ : k₂.phys = phys := (spawnActions_phys hactions).trans hphys₁
  have hused : ∀ {phys' : PhysMem}, phys'.memoryBitmap cr3 ≠ 0 →
      framesInUse phys' ≠ framesInUse k.phys := by
    intro phys' hne heq
    have hmem : cr3 ∈ framesInUse k.phys := heq ▸ hne
    exact hmem (clonePageTables_free hmade)
  have hcount := hclone cr3 phys hmade
  dsimp only at h
  split at h
  · obtain ⟨-, rfl⟩ := Prod.mk.inj (Except.ok.inj h)
    exact hused (hphys₂ ▸ hcount)
  rw [startTask, bind_ok_iff] at h
  obtain ⟨⟨res₃, program, k₃⟩, hprogram, h⟩ := h
  have hclosed : (closeOnExec env.closeEnv new k₂).phys = phys :=
    (FilesOnly.closeOnExec env.closeEnv new k₂).phys.trans hphys₂
  dsimp only at h
  split at h
  · obtain ⟨rfl, rfl⟩ := Prod.mk.inj (Except.ok.inj h)
    refine hused ?_
    generalize closeOnExec env.closeEnv new k₂ = k₄ at hprogram hclosed
    rw [← hclosed] at hcount
    rw [loadProgram] at hprogram
    split at hprogram
    · obtain ⟨-, -, rfl⟩ := hprogram
      exact hcount
    split at hprogram
    · obtain ⟨-, -, rfl⟩ := hprogram
      exact hcount
    split at hprogram
    · obtain ⟨-, -, rfl⟩ := hprogram
      exact hcount
    split at hprogram
    · obtain ⟨-, -, rfl⟩ := hprogram
      exact hcount
    rw [bind_ok_iff] at hprogram
    obtain ⟨⟨loaded, phys₅⟩, hloaded, hprogram⟩ := hprogram
    cases loaded with
    | none =>
        obtain ⟨-, -, rfl⟩ := hprogram
        exact hload _ _ _ _ (liftPaging_ok.mp hloaded) cr3 hcount
    | some loaded =>
        simp only [bind_ok_iff] at hprogram
        obtain ⟨_, -, _, -, _, -, hprogram⟩ := hprogram
        cases Except.ok.inj hprogram
  split at h
  · cases h
  · obtain ⟨rfl, -⟩ := Prod.mk.inj (Except.ok.inj h)
    omega

theorem enterSyscall_rax (k : Kernel) (n : Int) :
    (enterSyscall k n).currentTask.iframe.rax = n := by
  rw [enterSyscall, Kernel.modifyCurrent, Kernel.currentTask,
    Kernel.modifyTask_current, Kernel.modifyTask_self]

/-- A call that leaves only the result and the last process number. -/
theorem unchanged_of_refused (k : Kernel) (number res lastPid : Int) :
    Unchanged k (enterSyscall { enterSyscall k number with lastPid := lastPid }
      res) ∧ (enterSyscall { enterSyscall k number with lastPid := lastPid }
        res).currentTask.iframe.rax = res := by
  have hkept : ∀ {α : Type} (π : Task → α),
      (∀ x frame, π { x with iframe := frame } = π x) → ∀ t,
      π ((enterSyscall { enterSyscall k number with lastPid := lastPid }
        res).tasks t) = π (k.tasks t) := fun π hπ t =>
    (enterSyscall_proj π hπ _ res t).trans (enterSyscall_proj π hπ k number t)
  have hcurrent : (enterSyscall { enterSyscall k number with lastPid := lastPid }
      res).current = k.current := rfl
  refine ⟨⟨fun _ => rfl, fun _ => rfl, fun _ => rfl,
    hkept Task.links fun _ _ => rfl, ?_, fun addr => ?_, rfl⟩,
    enterSyscall_rax _ res⟩
  · rw [Kernel.currentTask, hcurrent]
    exact hkept Task.fdTable (fun _ _ => rfl) _
  · rw [Kernel.currentTask, hcurrent, hkept Task.cr3 fun _ _ => rfl]
    rfl

/-- `execve` looks at the process number of its caller after the call. -/
theorem addTask_pid {env : ExecEnv} {fuel : Nat} {args : ExecArgs}
    {parent : Option Nat} {res : Int}
    (h : addTask env fuel k args parent k.currentTask.pid new = .ok (res, k')) :
    (k'.tasks k.current).pid = k.currentTask.pid := by
  by_cases hne : k.current = new
  · rcases addTask_cases h with ⟨-, rfl⟩ | ⟨phys, cr3, ⟨-, -, hattrs⟩ |
      ⟨p, k₂, -, -, hattrs, rfl⟩⟩
    · rfl
    · rw [hattrs.proj Task.pid fun _ _ => rfl, hne, allocTask_new]
      rfl
    · rw [(LinksOnly.linkTask k₂ new p).proj Task.pid fun _ _ => rfl,
        hattrs.proj Task.pid fun _ _ => rfl, hne, allocTask_new]
      rfl
  · exact addTask_frame h Task.pid (fun _ _ => rfl) (fun _ _ => rfl) hne

/-- A failed call changes nothing and returns its error when it is a `spawn` that
refuses one of its pointers.  Conversely, as long as no frame count wraps around
and `load_elf` releases no page, no other failed call does. -/
theorem failed_exec_unchanged_iff {call : ExecCall} {env : ExecEnv} {fuel : Nat}
    {pathRes : Int} {args : ExecArgs} {res : Int} {k₁ : Kernel}
    (hswitch : k.switching = false) (hpid : 0 ≤ k.currentTask.pid)
    (hlast : 0 ≤ k.lastPid) (hpath : 0 ≤ pathRes)
    (hfail : call.addTask env fuel k args new = .ok (res, k₁)) (hneg : res < 0) :
    ∃ k', call.run env fuel k pathRes args new = .ok k' ∧
      ((call = .spawn ∧ validateArgs args = .error res) →
        Unchanged k k' ∧ k'.currentTask.iframe.rax = res) ∧
      (CloneCounts k → env.FreesNoPage →
        Unchanged k k' ∧ k'.currentTask.iframe.rax = res →
        call = .spawn ∧ validateArgs args = .error res) := by
  cases call with
  | spawn =>
      rw [ExecCall.addTask] at hfail
      split at hfail
      · cases hfail
      rename_i hmax
      dsimp only at hfail
      obtain ⟨-, hs, hlast₁⟩ := addTask_current hfail
      have hs₁ : k₁.switching = false := hs.trans hswitch
      have hne : res ≠ k₁.lastPid := by
        have heq : k₁.lastPid = k.lastPid + 1 := hlast₁
        omega
      have hrun : sysSpawn env fuel k pathRes args new =
          .ok (enterSyscall k₁ res) := by
        have hmax' : (enterSyscall k 54).lastPid ≠ maxPid := hmax
        rw [sysSpawn]
        dsimp only
        rw [if_neg (not_lt.mpr hpath), spawn, if_neg hmax']
        dsimp only
        rw [hfail]
        dsimp only [bind, Except.bind]
        rw [if_pos hne]
        dsimp only
        rw [hs₁]
        rfl
      refine ⟨_, hrun, fun hrefused => ?_, fun hclone hload hsame => ⟨rfl, ?_⟩⟩
      · rw [addTask, hrefused.2] at hfail
        obtain ⟨-, rfl⟩ := Prod.mk.inj (Except.ok.inj hfail)
        exact unchanged_of_refused k 54 res (k.lastPid + 1)
      · cases hargs : validateArgs args with
        | error e =>
            rw [addTask, hargs] at hfail
            obtain ⟨rfl, -⟩ := Prod.mk.inj (Except.ok.inj hfail)
            rfl
        | ok actions =>
            have hclone₁ : CloneCounts { enterSyscall k 54 with
              lastPid := (enterSyscall k 54).lastPid + 1 } := hclone
            have hlate := addTask_late hargs hload hclone₁ hfail hneg
              (Int.le_add_one hlast)
            exact absurd hsame.1.frames hlate
  | execve =>
      rw [ExecCall.addTask] at hfail
      obtain ⟨-, hs, -⟩ := addTask_current hfail
      have hs₁ : k₁.switching = false := hs.trans hswitch
      have hpid₁ := addTask_pid hfail
      have hold : (enterSyscall k 12).currentTask.pid = k.currentTask.pid :=
        enterSyscall_proj Task.pid (fun _ _ => rfl) k 12 k.current
      have hrun : sysExecve env fuel k pathRes args new =
          .ok (enterSyscall k₁ pathRes) := by
        rw [sysExecve]
        dsimp only
        rw [if_neg (not_lt.mpr hpath), execve, hfail]
        dsimp only [bind, Except.bind]
        rw [if_pos (by rw [hpid₁, hold]; omega)]
        dsimp only
        rw [hs₁]
        rfl
      refine ⟨_, hrun, fun hcall => ?_, fun _ _ hsame => ?_⟩
      · cases hcall.1
      · have hrax := hsame.2
        rw [enterSyscall_rax] at hrax
        omega

def noProgram : ExecEnv where
  closeEnv := closes
  stat := eNoent
  type := 0
  lookup := eNoent
  compatible := false
  loadElf := fun phys _ => .ok (none, phys)
  buildStack := fun phys _ => .ok (0#64, phys)

/-- An array of arguments at an address that is not mapped. -/
def badArgv : ExecArgs := ⟨some fun _ => ⟨eFault, none⟩, none, none⟩

theorem failed_exec_unchanged_badArgv : ∃ k',
    sysSpawn noProgram 8 (bootKernel smallBoot) 0 badArgv 2 = .ok k' ∧
      Unchanged (bootKernel smallBoot) k' ∧
      k'.currentTask.iframe.rax = eFault := by
  have hfail : ExecCall.spawn.addTask noProgram 8 (bootKernel smallBoot) badArgv 2 =
      .ok (eFault, { enterSyscall (bootKernel smallBoot) 54 with lastPid := 2 }) :=
    rfl
  have hpath : (0 : Int) ≤ 0 := le_refl 0
  obtain ⟨k', hrun, hunchanged, -⟩ := failed_exec_unchanged_iff rfl (by decide)
    (by decide) hpath hfail (by decide)
  obtain ⟨hsame, hrax⟩ := hunchanged ⟨rfl, rfl⟩
  exact ⟨k', hrun, hsame, hrax⟩

/-- `execve` with the same arguments: `add_task` returns the error, and the
caller gets 0. -/
theorem execve_error_dropped : ∃ k₁ k',
    ExecCall.execve.addTask noProgram 8 (bootKernel smallBoot) badArgv 2 =
        .ok (eFault, k₁) ∧
      ExecCall.execve.run noProgram 8 (bootKernel smallBoot) 0 badArgv 2 =
        .ok k' ∧ k'.currentTask.iframe.rax = 0 ∧ eFault < 0 :=
  ⟨_, _, rfl, rfl, rfl, by decide⟩

end GlitchedOS
